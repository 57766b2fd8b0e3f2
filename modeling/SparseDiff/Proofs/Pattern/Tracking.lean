import SparseDiff.Proofs.Building
import SparseDiff.Proofs.Pattern.Movement

/-!
# Nonzeros on the move

Every entry of a rearranged matrix stands for one entry of an operand; `Source` says which, in terms
of rows and columns only. `Tracks` says that a result is well-formed, that an entry of it is nonzero
exactly if the entry it stands for is, and that the map sends its nonzero to the nonzero of that
entry. Selections, reshapes and joins do so, and so does every movement node that a call adds to a
graph (`movement_tracked`).
-/

namespace SparseDiff

/--
Which entry an entry of a result stands for: its row and column, then the number of the part, and
the row and column there.
-/
abbrev Source := Nat → Nat → Nat → Nat → Nat → Prop

namespace Source

def selected (rows cols : List Nat) : Source
  | r, c, d, r', c' => d = 0 ∧ rows[r]? = some r' ∧ cols[c]? = some c'

/-- Both entries have the same place in row-major order. -/
def reshaped (before after : Nat) : Source
  | r, c, d, r', c' => d = 0 ∧ r' * before + c' = r * after + c

def transposed : Source
  | r, c, d, r', c' => d = 0 ∧ r' = c ∧ c' = r

/-- Column `c` is column `c'` behind the parts before `d`. -/
def beside (widths : List Nat) : Source
  | r, c, d, r', c' => r' = r ∧ total (widths.take d) + c' = c

/-- Row `r` is row `r'` below the parts before `d`. -/
def stacked (heights : List Nat) : Source
  | r, c, d, r', c' => c' = c ∧ total (heights.take d) + r' = r

end Source

/-- A place inside piece `d` is found from the total of the pieces before it. -/
theorem locate_eq_iff
    {sizes : List Nat} {d n i x : Nat} (hd : sizes[d]? = some n) (hi : i < n) :
    locate sizes x = (d, i) ↔ total (sizes.take d) + i = x := by
  induction sizes generalizing d x with
  | nil => cases hd
  | cons m sizes ih =>
      rw [locate]
      cases d with
      | zero =>
          obtain rfl : m = n := Option.some.inj hd
          split
          · simp [eq_comm]
          · simp
            omega
      | succ d =>
          rw [List.take_succ_cons, total_cons]
          split
          · simp
            omega
          · have ih := @ih d (x - m) hd
            rw [Prod.ext_iff] at ih ⊢
            simp only [Nat.add_right_cancel_iff, ih]
            omega

/-- A place below the total is in one of the pieces. -/
theorem exists_locate
    {sizes : List Nat} {x : Nat} (hx : x < total sizes) :
    ∃ n, sizes[(locate sizes x).1]? = some n ∧ (locate sizes x).2 < n := by
  induction sizes generalizing x with
  | nil => simp at hx
  | cons m sizes ih =>
      rw [total_cons] at hx
      rw [locate]
      split
      · next hlt => exact ⟨m, rfl, hlt⟩
      · exact ih (x := x - m) (by omega)

namespace Pattern

/-- Result `q` with its map, made of the parts so that `stands` says what its entries stand for. -/
structure Tracks (parts : List Pattern) (q : Pattern) (map : List (Nat × Nat)) (stands : Source) :
    Prop where
  wellFormed : q.WellFormed
  indexable : q.Indexable
  length_map : map.length = q.nnz
  exists_source : ∀ r < q.nrow, ∀ c < q.ncol, ∃ (d : Nat) (p : Pattern) (r' c' : Nat),
    parts[d]? = some p ∧ r' < p.nrow ∧ c' < p.ncol ∧ stands r c d r' c'
  hasNonzero_eq : ∀ r < q.nrow, ∀ c < q.ncol, ∀ (d : Nat) (p : Pattern), parts[d]? = some p →
    ∀ r' < p.nrow, ∀ c' < p.ncol, stands r c d r' c' → q.hasNonzero r c = p.hasNonzero r' c'
  sent : ∀ r < q.nrow, ∀ c < q.ncol, ∀ (d : Nat) (p : Pattern), parts[d]? = some p →
    ∀ r' < p.nrow, ∀ c' < p.ncol, stands r c d r' c' →
      ∀ k, q.nzIndex? r c = some k → ∃ j, p.nzIndex? r' c' = some j ∧ map[k]? = some (d, j)

/-- The origins of entries are entries of the parts, and they are what the entries stand for. -/
structure Computes (origin : Origin) (parts : List Pattern) (q : Pattern) (stands : Source) :
    Prop where
  inside : ∀ r < q.nrow, ∀ c < q.ncol, ∃ p, parts[(origin r c).1]? = some p ∧
    (origin r c).2.1 < p.nrow ∧ (origin r c).2.2 < p.ncol
  origin_eq_iff : ∀ r < q.nrow, ∀ c < q.ncol, ∀ (d : Nat) (p : Pattern), parts[d]? = some p →
    ∀ r' < p.nrow, ∀ c' < p.ncol, origin r c = (d, r', c') ↔ stands r c d r' c'

section Tracking

variable {parts : List Pattern} {q : Pattern} {map : List (Nat × Nat)} {origin : Origin}

/-- A nonzero of the result is moved from the part and the nonzero that the map names. -/
theorem Arranges.sent
    (h : Arranges parts q map origin) (hlength : map.length = q.nnz) {r c k : Nat}
    (hk : q.entries[k]? = some (r, c)) :
    ∃ p j, parts[(origin r c).1]? = some p ∧ p.entries[j]? = some (origin r c).2 ∧
      map[k]? = some ((origin r c).1, j) := by
  have hmem := mem_entries_iff.1 (List.mem_of_getElem? hk)
  have hlt : k < map.length := by
    rw [hlength, ← length_entries]
    exact (List.getElem?_eq_some_iff.1 hk).1
  obtain ⟨⟨d, j⟩, hmove⟩ : ∃ move, map[k]? = some move := ⟨_, List.getElem?_eq_getElem hlt⟩
  obtain ⟨rfl, p, hp, hj⟩ := (h.moved r (lt_nrow_of_mem_row hmem) c (h.wellFormed.lt_ncol hmem) d
    j).1 (mem_zip_iff.2 ⟨k, hk, hmove⟩)
  exact ⟨p, j, hp, hj, hmove⟩

theorem Arranges.tracks
    (h : Arranges parts q map origin) (hparts : ∀ p ∈ parts, p.WellFormed)
    (hq : q.Indexable) (hlength : map.length = q.nnz) {stands : Source}
    (horigin : Computes origin parts q stands) :
    Tracks parts q map stands := by
  have hsent : ∀ r < q.nrow, ∀ c < q.ncol, ∀ (d : Nat) (p : Pattern), parts[d]? = some p →
      ∀ r' < p.nrow, ∀ c' < p.ncol, stands r c d r' c' →
        ∀ k, q.nzIndex? r c = some k → ∃ j, p.nzIndex? r' c' = some j ∧ map[k]? = some (d, j) := by
    intro r hr c hc d p hp r' hr' c' hc' hstands k hk
    have heq := (horigin.origin_eq_iff r hr c hc d p hp r' hr' c' hc').2 hstands
    obtain ⟨p', j, hp', hj, hmove⟩ := h.sent hlength ((nzIndex?_eq_some_iff h.wellFormed).1 hk)
    rw [heq] at hp' hj hmove
    cases hp.symm.trans hp'
    exact ⟨j, (nzIndex?_eq_some_iff (hparts p (List.mem_of_getElem? hp))).2 hj, hmove⟩
  refine ⟨h.wellFormed, hq, hlength, fun r hr c hc => ?_, ?_, hsent⟩
  · obtain ⟨p, hp, hr', hc'⟩ := horigin.inside r hr c hc
    exact ⟨_, p, _, _, hp, hr', hc', (horigin.origin_eq_iff r hr c hc _ p hp _ hr' _ hc').1 rfl⟩
  · intro r hr c hc d p hp r' hr' c' hc' hstands
    have heq := (horigin.origin_eq_iff r hr c hc d p hp r' hr' c' hc').2 hstands
    rw [Bool.eq_iff_iff, hasNonzero, hasNonzero, Option.isSome_iff_exists, Option.isSome_iff_exists]
    constructor
    · rintro ⟨k, hk⟩
      obtain ⟨j, hj, -⟩ := hsent r hr c hc d p hp r' hr' c' hc' hstands k hk
      exact ⟨j, hj⟩
    · rintro ⟨j, hj⟩
      have hj := (nzIndex?_eq_some_iff (hparts p (List.mem_of_getElem? hp))).1 hj
      have hmem := (h.moved r hr c hc d j).2 (by rw [heq]; exact ⟨rfl, p, hp, hj⟩)
      obtain ⟨k, hk, -⟩ := mem_zip_iff.1 hmem
      exact ⟨k, (nzIndex?_eq_some_iff h.wellFormed).2 hk⟩

end Tracking

theorem getElem?_singleton_eq
    {α : Type} {x y : α} {d : Nat} (h : [x][d]? = some y) :
    d = 0 ∧ y = x := by
  cases d with
  | zero => exact ⟨rfl, (Option.some.inj h).symm⟩
  | succ d => cases h

theorem tracks_sub
    {p q : Pattern} (hp : p.WellFormed) {rows cols map : List Nat}
    (h : p.sub rows cols = .ok (q, map)) :
    Tracks [p] q (Graph.fromOnly map) (.selected rows cols) := by
  obtain ⟨hrows, hcols, hq, hresult, hmap⟩ := sub_eq_ok h
  have hnrow : q.nrow = rows.length := congrArg Prod.fst (shape_sub h)
  have hncol : q.ncol = cols.length := congrArg Prod.snd (shape_sub h)
  refine (arranges_sub hp h).tracks (by simpa using hp) hq ?_ ⟨fun r hr c hc => ?_, ?_⟩
  · rw [Graph.fromOnly, List.length_map, hmap, hresult, nnz_labels]
  · rw [hnrow] at hr
    rw [hncol] at hc
    refine ⟨p, rfl, ?_, ?_⟩
    · simpa [Origin.selected, hr] using hrows _ (List.getElem_mem hr)
    · simpa [Origin.selected, hc] using hcols _ (List.getElem_mem hc)
  · intro r hr c hc d p' hp' r' _ c' _
    rw [hnrow] at hr
    rw [hncol] at hc
    simp [Origin.selected, Source.selected, hr, hc, eq_comm]

theorem tracks_reshape
    {p q : Pattern} (hp : p.WellFormed) (hp' : p.Indexable) {nrow ncol : Nat}
    (h : p.reshape nrow ncol = .ok q) :
    Tracks [p] q (Graph.fromOnly (List.range q.nnz)) (.reshaped p.ncol ncol) := by
  obtain ⟨⟨hnrow, hncol⟩, hcount, -⟩ := reshape_eq_ok h
  obtain ⟨-, -, hentries⟩ := entries_reshape hp h
  have hnrow' : q.nrow = nrow := congrArg Prod.fst (shape_reshape h)
  have hncol' : q.ncol = ncol := congrArg Prod.snd (shape_reshape h)
  have hq : q.Indexable := by
    refine ⟨hnrow' ▸ hnrow, hncol' ▸ hncol, ?_⟩
    rw [← length_entries, hentries, List.length_map, length_entries]
    exact hp'.nnz_le
  refine (arranges_reshape hp h).tracks (by simpa using hp) hq (by simp [Graph.fromOnly])
    ⟨fun r hr c hc => ?_, ?_⟩
  · rw [hnrow'] at hr
    rw [hncol'] at hc
    have hplace : r * ncol + c < p.ncol * p.nrow := by
      have hend := position_lt hc (.inl hr) (d := 0)
      rw [Nat.add_zero, hcount, numel, Nat.mul_comm p.nrow] at hend
      exact hend
    have hpos : 0 < p.ncol := Nat.pos_of_ne_zero fun hzero => by simp [hzero] at hplace
    exact ⟨p, rfl, Nat.div_lt_of_lt_mul hplace, Nat.mod_lt _ hpos⟩
  · intro r hr c hc d p' hp' r' _ c' hc'
    obtain ⟨rfl, rfl⟩ := getElem?_singleton_eq hp'
    simp only [Origin.reshaped, Source.reshaped, Prod.mk.injEq, true_and]
    constructor
    · rintro ⟨rfl, rfl⟩
      exact Nat.div_add_mod' ..
    · intro hplace
      rw [← hplace]
      exact ⟨position_div hc' r', position_mod hc' r'⟩

theorem tracks_transpose
    {p : Pattern} (hp : p.WellFormed) (hp' : p.Indexable) :
    Tracks [p] p.transpose (Graph.fromOnly p.transposeMap) .transposed := by
  have hq : p.transpose.Indexable :=
    ⟨(nrow_transpose p).trans_le hp'.ncol_le, hp'.nrow_le,
      (nnz_transpose hp).trans_le hp'.nnz_le⟩
  refine (arranges_transpose hp).tracks (by simpa using hp) hq ?_ ⟨fun r hr c hc => ?_, ?_⟩
  · rw [Graph.fromOnly, List.length_map, length_transposeMap]
  · rw [nrow_transpose] at hr
    exact ⟨p, rfl, hc, hr⟩
  · intro r hr c hc d p' hp' r' _ c' _
    simp [Origin.transposed, Source.transposed, eq_comm]

/-- A place below the joint size lies in one of the parts. -/
theorem exists_part
    {parts : List Pattern} {size : Pattern → Nat} {x : Nat} (hx : x < total (parts.map size)) :
    ∃ p, parts[(locate (parts.map size) x).1]? = some p ∧
      (locate (parts.map size) x).2 < size p := by
  obtain ⟨n, hn, hlt⟩ := exists_locate hx
  rw [List.getElem?_map, Option.map_eq_some_iff] at hn
  obtain ⟨p, hp, rfl⟩ := hn
  exact ⟨p, hp, hlt⟩

theorem locate_part_eq_iff
    {parts : List Pattern} {size : Pattern → Nat} {d i x : Nat} {p : Pattern}
    (hp : parts[d]? = some p) (hi : i < size p) :
    (locate (parts.map size) x).1 = d ∧ (locate (parts.map size) x).2 = i ↔
      total ((parts.map size).take d) + i = x := by
  have hd : (parts.map size)[d]? = some (size p) := by
    rw [List.getElem?_map, hp]
    rfl
  exact Prod.ext_iff.symm.trans (locate_eq_iff hd hi)

theorem tracks_horzcat
    {parts : List Pattern} (hparts : ∀ p ∈ parts, p.WellFormed) {q : Pattern}
    (h : horzcat parts = .ok q) :
    Tracks parts q (Graph.horzcatMap q.nrow parts) (.beside (parts.map ncol)) := by
  obtain ⟨hnrow, -, hq, hresult⟩ := horzcat_eq_ok h
  have hncol : q.ncol = total (parts.map ncol) := congrArg ncol hresult
  refine (arranges_horzcat hparts h).tracks hparts hq (length_horzcatMap h)
    ⟨fun r hr c hc => ?_, ?_⟩
  · obtain ⟨p, hp, hlt⟩ := exists_part (hncol ▸ hc)
    exact ⟨p, hp, (hnrow p (List.mem_of_getElem? hp)).symm ▸ hr, hlt⟩
  · intro r _ c _ d p hp r' _ c' hc'
    simp only [Origin.beside, Source.beside, Prod.mk.injEq, ← locate_part_eq_iff hp hc']
    tauto

theorem tracks_vertcat
    {parts : List Pattern} (hparts : ∀ p ∈ parts, p.WellFormed) {q : Pattern}
    (h : vertcat parts = .ok q) :
    Tracks parts q (Graph.vertcatMap parts) (.stacked (parts.map nrow)) := by
  obtain ⟨hncol, -, hq, -⟩ := vertcat_eq_ok h
  have hnrow : q.nrow = total (parts.map nrow) := congrArg Prod.fst (shape_vertcat h)
  refine (arranges_vertcat hparts h).tracks hparts hq (length_vertcatMap h)
    ⟨fun r hr c hc => ?_, ?_⟩
  · obtain ⟨p, hp, hlt⟩ := exists_part (hnrow ▸ hr)
    exact ⟨p, hp, hlt, (hncol p (List.mem_of_getElem? hp)).symm ▸ hc⟩
  · intro r _ c _ d p hp r' hr' c' _
    simp only [Origin.stacked, Source.stacked, Prod.mk.injEq, ← locate_part_eq_iff hp hr']
    tauto

end Pattern

namespace Graph

variable {F : Type} {g g' : Graph F} {id : NodeId}

/--
The result of a call is the graph with one more node, a gather of the operands, whose map keeps
track of the nonzeros of `q`.
-/
def Moved (g : Graph F) (result : NodeId × Graph F) (kind : GatherKind) (operands : List NodeId)
    (parts : List Pattern) (q : Pattern) (stands : Source) : Prop :=
  operands.mapM g.pattern = .ok parts ∧
    ∃ map, result = g.push ⟨.gather kind map, operands, q⟩ ∧ Pattern.Tracks parts q map stands

theorem moved_of_gather
    {kind : GatherKind} {operands : List NodeId} {parts : List Pattern}
    (hparts : operands.mapM g.pattern = .ok parts) {q : Pattern} {map : List (Nat × Nat)}
    (h : g.gather kind operands q map = .ok (id, g')) {stands : Source}
    (htracks : Pattern.Tracks parts q map stands) :
    g.Moved (id, g') kind operands parts q stands := by
  obtain ⟨-, -, -, heq⟩ := gather_eq_ok h
  exact ⟨hparts, map, heq, htracks⟩

theorem mapM_pattern_singleton
    {a : NodeId} {p : Pattern} (h : g.pattern a = .ok p) :
    [a].mapM g.pattern = .ok [p] :=
  mapM_eq_ok_iff.2 (.cons h .nil)

variable (hg : ∀ id p, g.pattern id = .ok p → p.WellFormed ∧ p.Indexable)
include hg

theorem wellFormed_of_mapM_pattern
    {operands : List NodeId} {parts : List Pattern}
    (h : operands.mapM g.pattern = .ok parts) :
    ∀ p ∈ parts, p.WellFormed := by
  intro p hp
  obtain ⟨i, hi⟩ := List.mem_iff_getElem?.1 hp
  obtain ⟨a, -, ha⟩ := getElem?_of_forall₂ (mapM_eq_ok_iff.1 h) hi
  exact (hg a p ha).1

theorem moved_of_reshape
    {a : NodeId} {nrow ncol : Nat} (h : g.reshape a nrow ncol = .ok (id, g')) :
    ∃ p q, p.reshape nrow ncol = .ok q ∧
      g.Moved (id, g') .reshape [a] [p] q (.reshaped p.ncol ncol) := by
  obtain ⟨p, hp, h⟩ := bind_eq_ok_iff.1 h
  obtain ⟨q, hq, h⟩ := bind_eq_ok_iff.1 h
  obtain ⟨hwf, hindexable⟩ := hg a p hp
  exact ⟨p, q, hq, moved_of_gather (mapM_pattern_singleton hp) h
    (Pattern.tracks_reshape hwf hindexable hq)⟩

theorem moved_of_transpose
    {a : NodeId} (h : g.transpose a = .ok (id, g')) :
    ∃ p, g.Moved (id, g') .transpose [a] [p] p.transpose .transposed := by
  obtain ⟨p, hp, h⟩ := bind_eq_ok_iff.1 h
  obtain ⟨hwf, hindexable⟩ := hg a p hp
  exact ⟨p, moved_of_gather (mapM_pattern_singleton hp) h (Pattern.tracks_transpose hwf hindexable)⟩

theorem moved_of_slice
    {a : NodeId} {rows cols : List Nat} (h : g.slice a rows cols = .ok (id, g')) :
    ∃ p q map, p.sub rows cols = .ok (q, map) ∧
      g.Moved (id, g') .slice [a] [p] q (.selected rows cols) := by
  obtain ⟨p, hp, h⟩ := bind_eq_ok_iff.1 h
  obtain ⟨⟨q, map⟩, hq, h⟩ := bind_eq_ok_iff.1 h
  exact ⟨p, q, map, hq, moved_of_gather (mapM_pattern_singleton hp) h
    (Pattern.tracks_sub (hg a p hp).1 hq)⟩

theorem moved_of_horzcat
    {operands : List NodeId} (h : g.horzcat operands = .ok (id, g')) :
    ∃ parts q, Pattern.horzcat parts = .ok q ∧
      g.Moved (id, g') .horzcat operands parts q (.beside (parts.map Pattern.ncol)) := by
  obtain ⟨parts, hparts, h⟩ := bind_eq_ok_iff.1 h
  obtain ⟨q, hq, h⟩ := bind_eq_ok_iff.1 h
  exact ⟨parts, q, hq, moved_of_gather hparts h
    (Pattern.tracks_horzcat (wellFormed_of_mapM_pattern hg hparts) hq)⟩

theorem moved_of_vertcat
    {operands : List NodeId} (h : g.vertcat operands = .ok (id, g')) :
    ∃ parts q, Pattern.vertcat parts = .ok q ∧
      g.Moved (id, g') .vertcat operands parts q (.stacked (parts.map Pattern.nrow)) := by
  obtain ⟨parts, hparts, h⟩ := bind_eq_ok_iff.1 h
  obtain ⟨q, hq, h⟩ := bind_eq_ok_iff.1 h
  exact ⟨parts, q, hq, moved_of_gather hparts h
    (Pattern.tracks_vertcat (wellFormed_of_mapM_pattern hg hparts) hq)⟩

end Graph

/--
Selections, reshapes and joins of well-formed patterns keep track of every nonzero, and so does
every movement node that a call adds to a graph of such patterns.
-/
theorem movement_tracked
    {F : Type} :
    (∀ p : Pattern, p.WellFormed → p.Indexable →
      (∀ rows cols q map, p.sub rows cols = .ok (q, map) →
        q.shape = (rows.length, cols.length) ∧
          Pattern.Tracks [p] q (Graph.fromOnly map) (.selected rows cols)) ∧
      ∀ nrow ncol q, p.reshape nrow ncol = .ok q →
        q.shape = (nrow, ncol) ∧
          Pattern.Tracks [p] q (Graph.fromOnly (List.range q.nnz)) (.reshaped p.ncol ncol)) ∧
    (∀ parts : List Pattern, (∀ p ∈ parts, p.WellFormed ∧ p.Indexable) →
      (∀ q, Pattern.horzcat parts = .ok q →
        (∀ p ∈ parts, p.nrow = q.nrow) ∧ q.ncol = total (parts.map Pattern.ncol) ∧
          Pattern.Tracks parts q (Graph.horzcatMap q.nrow parts)
            (.beside (parts.map Pattern.ncol))) ∧
      ∀ q, Pattern.vertcat parts = .ok q →
        (∀ p ∈ parts, p.ncol = q.ncol) ∧ q.nrow = total (parts.map Pattern.nrow) ∧
          Pattern.Tracks parts q (Graph.vertcatMap parts) (.stacked (parts.map Pattern.nrow))) ∧
    ∀ g : Graph F, (∀ a p, g.pattern a = .ok p → p.WellFormed ∧ p.Indexable) → ∀ id g',
      (∀ a nrow ncol, g.reshape a nrow ncol = .ok (id, g') →
        ∃ p q, p.reshape nrow ncol = .ok q ∧
          g.Moved (id, g') .reshape [a] [p] q (.reshaped p.ncol ncol)) ∧
      (∀ a, g.transpose a = .ok (id, g') →
        ∃ p, g.Moved (id, g') .transpose [a] [p] p.transpose .transposed) ∧
      (∀ a rows cols, g.slice a rows cols = .ok (id, g') →
        ∃ p q map, p.sub rows cols = .ok (q, map) ∧
          g.Moved (id, g') .slice [a] [p] q (.selected rows cols)) ∧
      (∀ operands, g.horzcat operands = .ok (id, g') →
        ∃ parts q, Pattern.horzcat parts = .ok q ∧
          g.Moved (id, g') .horzcat operands parts q (.beside (parts.map Pattern.ncol))) ∧
      ∀ operands, g.vertcat operands = .ok (id, g') →
        ∃ parts q, Pattern.vertcat parts = .ok q ∧
          g.Moved (id, g') .vertcat operands parts q (.stacked (parts.map Pattern.nrow)) := by
  refine ⟨?_, ?_, ?_⟩
  · intro p hp hindexable
    constructor
    · intro rows cols q map hsub
      exact ⟨Pattern.shape_sub hsub, Pattern.tracks_sub hp hsub⟩
    · intro nrow ncol q hreshape
      exact ⟨Pattern.shape_reshape hreshape, Pattern.tracks_reshape hp hindexable hreshape⟩
  · intro parts hparts
    have hwf : ∀ p ∈ parts, p.WellFormed := fun p hp => (hparts p hp).1
    constructor
    · intro q hbeside
      have hncol := congrArg Prod.snd (Pattern.shape_horzcat hbeside)
      exact ⟨(Pattern.horzcat_eq_ok hbeside).1, hncol, Pattern.tracks_horzcat hwf hbeside⟩
    · intro q hstacked
      have hnrow := congrArg Prod.fst (Pattern.shape_vertcat hstacked)
      exact ⟨(Pattern.vertcat_eq_ok hstacked).1, hnrow, Pattern.tracks_vertcat hwf hstacked⟩
  · intro g hg id g'
    refine ⟨?_, ?_, ?_, ?_, ?_⟩
    · intro a nrow ncol hcall
      exact Graph.moved_of_reshape hg hcall
    · intro a hcall
      exact Graph.moved_of_transpose hg hcall
    · intro a rows cols hcall
      exact Graph.moved_of_slice hg hcall
    · intro operands hcall
      exact Graph.moved_of_horzcat hg hcall
    · intro operands hcall
      exact Graph.moved_of_vertcat hg hcall

/-- Rows and columns taken twice and out of order, and a matrix beside itself. -/
theorem movement_tracked_repeated :
    (∃ q map, (Pattern.mk 3 #[[0, 2], [], [1]]).sub [2, 0, 2] [1, 1, 0] = .ok (q, map) ∧
      q.hasNonzero 1 2 = (Pattern.mk 3 #[[0, 2], [], [1]]).hasNonzero 0 0 ∧
      ∃ j, (Pattern.mk 3 #[[0, 2], [], [1]]).nzIndex? 0 0 = some j ∧
        (Graph.fromOnly map)[2]? = some (0, j)) ∧
    ∃ id, ∃ g' : Graph Int, ∃ parts q,
      (Graph.mk #[⟨.symbolic "x", [], ⟨2, #[[1]]⟩⟩]).horzcat [0, 0] = .ok (id, g') ∧
      (Graph.mk #[⟨.symbolic "x", [], ⟨2, #[[1]]⟩⟩]).Moved (id, g') .horzcat [0, 0] parts q
        (.beside (parts.map Pattern.ncol)) := by
  obtain ⟨hone, -, hgraph⟩ := movement_tracked (F := Int)
  obtain ⟨hsub, -⟩ := hone ⟨3, #[[0, 2], [], [1]]⟩ ⟨by decide, by decide⟩
    ⟨by decide, by decide, by decide⟩
  have hcall : (Pattern.mk 3 #[[0, 2], [], [1]]).sub [2, 0, 2] [1, 1, 0] =
      .ok (⟨3, #[[0, 1], [2], [0, 1]]⟩, [2, 2, 0, 2, 2]) := by
    cbv
  obtain ⟨-, htracks⟩ := hsub _ _ _ _ hcall
  have hg : ∀ a p, (Graph.mk (F := Int) #[⟨.symbolic "x", [], ⟨2, #[[1]]⟩⟩]).pattern a = .ok p →
      p.WellFormed ∧ p.Indexable := by
    intro a p hp
    cases a with
    | zero =>
        cases hp
        exact ⟨⟨by decide, by decide⟩, by decide, by decide, by decide⟩
    | succ a => cases hp
  obtain ⟨⟨id, g'⟩, hjoin⟩ := exists_eq_ok_of_isOk (x :=
    (Graph.mk (F := Int) #[⟨.symbolic "x", [], ⟨2, #[[1]]⟩⟩]).horzcat [0, 0]) (by cbv)
  obtain ⟨-, -, -, hhorzcat, -⟩ := hgraph _ hg id g'
  obtain ⟨parts, q, -, hmoved⟩ := hhorzcat [0, 0] hjoin
  refine ⟨⟨_, _, hcall, ?_, ?_⟩, id, g', parts, q, hjoin, hmoved⟩
  · exact htracks.hasNonzero_eq 1 (by decide) 2 (by decide) 0 _ rfl 0 (by decide) 0 (by decide)
      ⟨rfl, rfl, rfl⟩
  · exact htracks.sent 1 (by decide) 2 (by decide) 0 _ rfl 0 (by decide) 0 (by decide)
      ⟨rfl, rfl, rfl⟩ 2 (by decide)

end SparseDiff
