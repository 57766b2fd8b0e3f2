import SparseDiff.Proofs.Bounds.Agreement
import SparseDiff.Proofs.Coloring.Readout
import SparseDiff.Proofs.Coloring.Symmetric

/-!
# Greedy colorings have no gaps

A vertex gets the least color that no earlier neighbor has, so every smaller color is that of a
neighbor (`Coloring.exists_neighbor_of_greedy`). Hence the colors in use are those below their
number, no sweep is empty, and a color is at most the number of neighbors (`Coloring.Tight`). The
search for a free color stops inside the table of marks, which has a place for every vertex but is
asked for earlier colors only (`Strict.greedyMarked_eq`).
-/

namespace SparseDiff

namespace Pattern

variable (p : Pattern)

/-- Other columns that share a row with column `c`. -/
def columnNeighbors (c : Nat) : Finset Nat :=
  (Finset.range p.ncol).filter fun d => d ≠ c ∧ ∃ r < p.nrow, c ∈ p.row r ∧ d ∈ p.row r

/-- Other rows that share a column with row `r`. -/
def rowNeighbors (r : Nat) : Finset Nat :=
  (Finset.range p.nrow).filter fun s => s ≠ r ∧ ∃ c < p.ncol, c ∈ p.row r ∧ c ∈ p.row s

/-- Rows with a nonzero in column `c`. -/
def columnRows (c : Nat) : Finset Nat := (Finset.range p.nrow).filter fun r => c ∈ p.row r

/-- Other vertices of a square pattern that are adjacent to `v` or to a vertex that is. -/
def vertexNeighbors (v : Nat) : Finset Nat :=
  (Finset.range p.nrow).filter fun w =>
    w ≠ v ∧ (w ∈ p.row v ∨ ∃ u < p.nrow, u ∈ p.row v ∧ w ∈ p.row u)

variable {p}

/-- The columns of the transpose are the rows. -/
theorem columnNeighbors_transpose
    (hp : p.WellFormed) (r : Nat) :
    p.transpose.columnNeighbors r = p.rowNeighbors r := by
  ext s
  simp only [columnNeighbors, rowNeighbors, Finset.mem_filter, Finset.mem_range, ncol_transpose,
    nrow_transpose, mem_row_transpose_iff hp]

end Pattern

namespace Coloring

/-- The colored vertices. -/
def vertices (c : Coloring) : Finset Nat :=
  (Finset.range c.colors.size).filter fun v => (c.colorOf v).isSome

variable {c : Coloring}

theorem mem_vertices_iff
    {v : Nat} :
    v ∈ c.vertices ↔ (c.colorOf v).isSome := by
  rw [vertices, Finset.mem_filter, Finset.mem_range, and_iff_right_iff_imp,
    Option.isSome_iff_exists]
  rintro ⟨k, hk⟩
  exact (Array.getElem?_eq_some_iff.1 (Option.join_eq_some_iff.1 hk)).1

/-- The number of colors is one past a color in use. -/
theorem exists_colorOf_of_ncolors_pos
    (h : 0 < c.ncolors) :
    ∃ v, c.colorOf v = some (c.ncolors - 1) := by
  have hfold : ∀ (colors : List (Option Nat)) (n : Nat),
      colors.foldl (fun n color => max n ((color.map (· + 1)).getD 0)) n = n ∨
        some (colors.foldl (fun n color => max n ((color.map (· + 1)).getD 0)) n - 1) ∈ colors := by
    intro colors
    induction colors with
    | nil => exact fun n => .inl rfl
    | cons color colors ih =>
        intro n
        rw [List.foldl_cons]
        rcases ih (max n ((color.map (· + 1)).getD 0)) with heq | hmem
        · rw [heq]
          cases color with
          | none => exact .inl (Nat.max_zero n)
          | some k =>
              rcases Nat.le_total (k + 1) n with hle | hle
              · exact .inl (Nat.max_eq_left hle)
              · refine .inr (List.mem_cons.2 (.inl ?_))
                rw [Option.map_some, Option.getD_some, Nat.max_eq_right hle, Nat.add_sub_cancel]
        · exact .inr (List.mem_cons_of_mem _ hmem)
  rcases hfold c.colors.toList 0 with hzero | hmem
  · exact absurd hzero (Nat.pos_iff_ne_zero.1 h)
  · obtain ⟨v, hv⟩ := List.mem_iff_getElem?.1 hmem
    refine ⟨v, ?_⟩
    rw [colorOf, ← Array.getElem?_toList, hv]
    rfl

/-- Vertices with colors of their own are no more than the colors. -/
theorem card_le_ncolors
    {s : Finset Nat} (hsome : ∀ v ∈ s, (c.colorOf v).isSome)
    (hne : ∀ u ∈ s, ∀ v ∈ s, u ≠ v → c.colorOf u ≠ c.colorOf v) :
    s.card ≤ c.ncolors := by
  have hcolor : ∀ v ∈ s, c.colorOf v = some ((c.colorOf v).getD 0) := fun v hv => by
    obtain ⟨k, hk⟩ := Option.isSome_iff_exists.1 (hsome v hv)
    rw [hk, Option.getD_some]
  rw [← Finset.card_range c.ncolors]
  refine Finset.card_le_card_of_injOn (fun v => (c.colorOf v).getD 0)
    (fun v hv => Finset.mem_coe.2 (Finset.mem_range.2 (lt_ncolors (hcolor v hv))))
    fun u hu v hv heq => ?_
  by_contra hdiff
  exact hne u hu v hv hdiff (by rw [hcolor u hu, hcolor v hv]; exact congrArg some heq)

/-- A coloring of `n` vertices, with the neighbors that keep a vertex from the smaller colors. -/
structure Tight (c : Coloring) (n : Nat) (neighbors : Nat → Finset Nat) : Prop where
  size : c.colors.size = n
  /-- The colors in use are the numbers below `ncolors`. -/
  used_iff : ∀ k, (∃ v, c.colorOf v = some k) ↔ k < c.ncolors
  seeds_ne_nil : ∀ k < c.ncolors, c.seeds.row k ≠ []
  color_le : ∀ v k, c.colorOf v = some k → k ≤ (neighbors v).card
  ncolors_le : c.ncolors ≤ 1 + c.vertices.sup fun v => (neighbors v).card
  ncolors_le_card : c.ncolors ≤ c.vertices.card

/-- If the colors below that of a vertex are colors of its neighbors, nothing is left out. -/
theorem tight_of_neighbors
    {n : Nat} {neighbors : Nat → Finset Nat} (hsize : c.colors.size = n)
    (h : ∀ v k, c.colorOf v = some k → ∀ j < k, ∃ u ∈ neighbors v, c.colorOf u = some j) :
    c.Tight n neighbors := by
  have hused : ∀ k < c.ncolors, ∃ v, c.colorOf v = some k := by
    intro k hk
    obtain ⟨v, hv⟩ := exists_colorOf_of_ncolors_pos (Nat.zero_lt_of_lt hk)
    rcases Nat.lt_or_eq_of_le (Nat.le_sub_one_of_lt hk) with hlt | rfl
    · obtain ⟨u, -, hu⟩ := h v _ hv k hlt
      exact ⟨u, hu⟩
    · exact ⟨v, hv⟩
  have hcolor : ∀ v k, c.colorOf v = some k → k ≤ (neighbors v).card := by
    intro v k hv
    rw [← Finset.card_range k]
    refine Finset.card_le_card_of_surjOn (fun u => (c.colorOf u).getD 0) fun j hj => ?_
    obtain ⟨u, hu, huj⟩ := h v k hv j (Finset.mem_range.1 (Finset.mem_coe.1 hj))
    exact ⟨u, hu, by simp only [huj, Option.getD_some]⟩
  refine ⟨hsize, fun k => ⟨fun ⟨v, hv⟩ => lt_ncolors hv, hused k⟩, fun k hk => ?_, hcolor, ?_, ?_⟩
  · obtain ⟨v, hv⟩ := hused k hk
    exact List.ne_nil_of_mem (mem_row_seeds_iff.2 hv)
  · rcases Nat.eq_zero_or_pos c.ncolors with hzero | hpos
    · omega
    · obtain ⟨v, hv⟩ := exists_colorOf_of_ncolors_pos hpos
      have hmem : v ∈ c.vertices := mem_vertices_iff.2 (by rw [hv]; rfl)
      have hle := hcolor v _ hv
      have hsup := Finset.le_sup (f := fun v => (neighbors v).card) hmem
      omega
  · rw [← Finset.card_range c.ncolors]
    refine Finset.card_le_card_of_surjOn (fun u => (c.colorOf u).getD 0) fun k hk => ?_
    obtain ⟨v, hv⟩ := hused k (Finset.mem_range.1 (Finset.mem_coe.1 hk))
    exact ⟨v, mem_vertices_iff.2 (by rw [hv]; rfl), by simp only [hv, Option.getD_some]⟩

section Greedy

variable {n : Nat} {order : List Nat} (hnodup : order.Nodup) (hlt : ∀ v ∈ order, v < n)
  {conflicts : Nat → List Nat}

include hnodup hlt

/-- Every color below that of a vertex is the color of a vertex in conflict with it. -/
theorem exists_neighbor_of_greedy
    {v k j : Nat} (hv : (greedy n order conflicts).colorOf v = some k) (hj : j < k) :
    ∃ u ∈ conflicts v, u ≠ v ∧ (greedy n order conflicts).colorOf u = some j := by
  induction order using List.reverseRecOn generalizing v k with
  | nil => simp [colorOf_greedy_nil] at hv
  | append_singleton order w ih =>
      obtain ⟨hnodup', -, hnew⟩ := List.nodup_append.1 hnodup
      have hlt' : ∀ u ∈ order, u < n := fun u hu => hlt u (List.mem_append_left _ hu)
      obtain ⟨-, hcolored, -⟩ := greedy_spec hnodup' hlt' conflicts
      -- a vertex that was colored before `w` is another one and keeps its color
      have hkept : ∀ {u i : Nat}, (greedy n order conflicts).colorOf u = some i →
          u ≠ w ∧ (greedy n (order ++ [w]) conflicts).colorOf u = some i := by
        intro u i hu
        have hmem : u ∈ order := (hcolored u).1 (by rw [hu]; rfl)
        have hne : u ≠ w := fun heq => hnew u hmem w (by simp) heq
        exact ⟨hne, by rw [colorOf_greedy_concat, if_neg fun h => hne h.1, hu]⟩
      rw [colorOf_greedy_concat] at hv
      split at hv
      · next hself =>
          obtain ⟨rfl, -⟩ := hself
          cases hv
          obtain ⟨u, hu, huj⟩ := List.mem_filterMap.1 (mem_of_lt_leastUnused hj)
          exact ⟨u, hu, hkept huj⟩
      · obtain ⟨u, hu, hne, huj⟩ := ih hnodup' hlt' hv hj
        exact ⟨u, hu, hne, (hkept huj).2⟩

/-- Where conflicts are with neighbors, a greedy coloring is tight. -/
theorem tight_greedy
    {neighbors : Nat → Finset Nat}
    (h : ∀ v ∈ order, ∀ u ∈ conflicts v, u ≠ v → u ∈ neighbors v) :
    (greedy n order conflicts).Tight n neighbors := by
  refine tight_of_neighbors (size_greedy ..) fun v k hv j hj => ?_
  obtain ⟨-, hcolored, -⟩ := greedy_spec hnodup hlt conflicts
  obtain ⟨u, hu, hne, huj⟩ := exists_neighbor_of_greedy hnodup hlt hv hj
  exact ⟨u, h v ((hcolored v).1 (by rw [hv]; rfl)) u hu hne, huj⟩

end Greedy

section Columns

variable {p pt : Pattern} (hp : p.WellFormed) (hpt : ∀ r c, r ∈ pt.row c ↔ c ∈ p.row r)

include hp hpt

theorem tight_greedyColumns :
    (greedyColumns p pt (fun _ => true) (fun _ => true)).Tight p.ncol p.columnNeighbors := by
  rw [greedyColumns_eq hp hpt]
  refine tight_greedy (nodup_columnOrder ..) (fun c hc => lt_of_mem_columnOrder hc)
    fun c _ d hd hne => ?_
  obtain ⟨r, hr, -, hmem⟩ := mem_sharing_iff.1 hd
  have hcr := (hpt r c).1 hr
  exact Finset.mem_filter.2 ⟨Finset.mem_range.2 (hp.lt_ncol hmem), hne, r,
    Pattern.lt_nrow_of_mem_row hcr, hcr, hmem⟩

/-- The columns of a row need a color each. -/
theorem card_le_ncolors_greedyColumns
    {r : Nat} {s : Finset Nat} (hs : ∀ c ∈ s, c ∈ p.row r) :
    s.card ≤ (greedyColumns p pt (fun _ => true) (fun _ => true)).ncolors := by
  obtain ⟨-, hcolored, hne⟩ := greedyColumns_spec hp hpt (fun _ => true) (fun _ => true)
  exact card_le_ncolors (fun c hc => (hcolored c).2 ⟨rfl, r, rfl, hs c hc⟩)
    fun c hc d hd hdiff => hne r c d rfl (hs c hc) (hs d hd) hdiff rfl rfl

end Columns

/-- The distance-two coloring of a symmetric pattern is tight. -/
theorem tight_symmetricColoring
    {p : Pattern} (hsymm : p.IsSymmetric) :
    ∃ c, symmetricColoring p = .ok c ∧ c.Tight p.nrow p.vertexNeighbors := by
  obtain ⟨c, hc, -⟩ := hsymm.resolves
  refine ⟨c, hc, ?_⟩
  unfold symmetricColoring at hc
  split at hc
  · cases hc
  · cases hc
    have hvertex : ∀ degree : Nat → Nat,
        ∀ v ∈ byDegree degree ((List.range p.nrow).filter fun v => !(p.row v).isEmpty),
          v < p.nrow := fun degree v hv =>
      List.mem_range.1 (List.mem_filter.1 (mem_byDegree_iff.1 hv)).1
    refine tight_greedy (nodup_byDegree (List.nodup_range.filter _)) (hvertex _)
      fun v hv w hw hne => ?_
    simp only [Array.getD_eq_getD_getElem?, List.getElem?_toArray, List.getElem?_map,
      List.getElem?_range (hvertex _ v hv), Option.map_some, Option.getD_some] at hw
    obtain ⟨u, hu, hw⟩ := mem_withinTwo_iff.1 hw
    have huv := (List.mem_filter.1 hu).1
    refine Finset.mem_filter.2 ⟨Finset.mem_range.2 ?_, hne, ?_⟩
    · rcases hw with rfl | ⟨hwu, -⟩
      · exact Pattern.lt_nrow_of_mem_row ((hsymm.mem_iff v w).1 huv)
      · exact Pattern.lt_nrow_of_mem_row ((hsymm.mem_iff u w).1 (List.mem_filter.1 hwu).1)
    · rcases hw with rfl | ⟨hwu, -⟩
      · exact .inl huv
      · exact .inr ⟨u, Pattern.lt_nrow_of_mem_row (List.mem_filter.1 hwu).1, huv,
          (List.mem_filter.1 hwu).1⟩

end Coloring

namespace Strict

open Coloring

/-- First mark that is not that of `v`; to read past the last mark is out of bounds. -/
def firstUnmarked (v : Nat) : List (Option Nat) → Except Failure Nat
  | [] => .error .outOfBounds
  | mark :: marks => if mark = some v then (firstUnmarked v marks).map (· + 1) else .ok 0

/-- Mark the color of `u`, if it has one, as in use around `v`. -/
def markNext (colors : Array (Option Nat)) (v : Nat) (marks : Array (Option Nat)) (u : Nat) :
    Except Failure (Array (Option Nat)) := do
  match ← Coloring.color ⟨colors⟩ u with
  | none => return marks
  | some k =>
      inRange (k < marks.size)
      return marks.setIfInBounds k (some v)

/-- `Marking.colorNext` with every look-up in the two tables checked. -/
def colorNext (around : Nat → List Nat) (s : Marking) (v : Nat) : Except Failure Marking := do
  let marks ← (around v).foldlM (markNext s.colors v) s.marks
  let k ← firstUnmarked v marks.toList
  inRange (v < s.colors.size)
  return { colors := s.colors.setIfInBounds v (some k), marks }

/-- `Coloring.greedyMarked`, every look-up checked. -/
def greedyMarked (n : Nat) (order : List Nat) (around : Nat → List Nat) :
    Except Failure Coloring := do
  let s ← order.foldlM (colorNext around) ⟨Array.replicate n none, Array.replicate n none⟩
  return ⟨s.colors⟩

/-- `Coloring.greedyColumns` over all rows and columns, every look-up of the coloring checked. -/
def greedyColumns (p pt : Pattern) : Except Failure Coloring :=
  let around := sharing p pt fun _ => true
  let degrees := degrees p.ncol (fun _ => true) around
  let needed := (List.range p.ncol).filter fun c => (pt.row c).any fun _ => true
  greedyMarked p.ncol (byDegree (degrees.getD · 0) needed) around

theorem firstUnmarked_eq
    {v : Nat} {marks : List (Option Nat)} (h : marks.findIdx (· != some v) < marks.length) :
    firstUnmarked v marks = .ok (marks.findIdx (· != some v)) := by
  induction marks with
  | nil => simp at h
  | cons mark marks ih =>
      unfold firstUnmarked
      rw [List.findIdx_cons] at h ⊢
      by_cases hmark : mark = some v
      · have hlt : marks.findIdx (· != some v) < marks.length := by simpa [hmark] using h
        rw [if_pos hmark, ih hlt]
        simp [hmark, Except.map]
      · rw [if_neg hmark, bne_iff_ne.2 hmark]
        rfl

/-- The marks in use around a vertex, set one after the other. -/
theorem foldlM_marks_eq
    {n v : Nat} {colors marks : Array (Option Nat)} (hcolors : colors.size = n)
    (hmarks : marks.size = n) (hused : ∀ u k : Nat, (colors[u]?).join = some k → k < n)
    {us : List Nat} (hus : ∀ u ∈ us, u < n) :
    us.foldlM (markNext colors v) marks =
      .ok ((us.filterMap fun u => (colors[u]?).join).foldl
        (fun marks k => marks.setIfInBounds k (some v)) marks) := by
  rw [List.foldl_filterMap]
  refine foldlM_eq_ok_foldl (I := fun marks => marks.size = n) (fun u hu marks hsize => ?_) hmarks
  rw [markNext, color_eq (c := ⟨colors⟩) (v := u) (by simpa [hcolors] using hus u hu)]
  cases hcolor : (colors[u]?).join with
  | none =>
      simp only [colorOf, hcolor, bind, Except.bind]
      exact ⟨rfl, hsize⟩
  | some k =>
      have hk : k < marks.size := by
        rw [hsize]
        exact hused u k hcolor
      simp only [colorOf, hcolor, inRange_eq hk, bind, Except.bind]
      exact ⟨rfl, by rw [Array.size_setIfInBounds, hsize]⟩

/-- A step looks up vertices and earlier colors only, and stops at a mark. -/
theorem colorNext_eq
    {n : Nat} {around : Nat → List Nat} {s : Marking} {order : List Nat}
    (h : s.Follows n around order) {v : Nat} (hv : v ∉ order) (hlt : v < n)
    (hroom : order.length < n) (haround : ∀ u ∈ around v, u < n) :
    colorNext around s v = .ok (s.colorNext around v) := by
  have hsize : s.colors.size = n := by rw [h.colors, size_greedy]
  have hused : ∀ u k : Nat, (s.colors[u]?).join = some k → k < order.length := fun u k hk => by
    rw [h.colors] at hk
    exact colorOf_greedy_lt hk
  have hleast : leastUnused ((around v).filterMap fun u => (s.colors[u]?).join) < s.marks.size := by
    rw [h.size]
    refine Nat.lt_of_le_of_lt (leastUnused_le fun hmem => ?_) hroom
    obtain ⟨u, -, hu⟩ := List.mem_filterMap.1 hmem
    exact Nat.lt_irrefl _ (hused u _ hu)
  have hfound := findIdx_mark (fun k hk => hv (h.stale k v hk)) hleast
  have hinside := hleast
  rw [← hfound, ← size_foldl_mark ((around v).filterMap fun u => (s.colors[u]?).join) v s.marks,
    ← Array.length_toList] at hinside
  have hstops := firstUnmarked_eq hinside
  unfold colorNext
  rw [foldlM_marks_eq hsize h.size (fun u k hk => (hused u k hk).trans hroom) haround]
  simp only [bind, Except.bind, hstops, inRange_eq (hsize ▸ hlt : v < s.colors.size)]
  rfl

/-- No step of a greedy coloring looks past the end of a table. -/
theorem greedyMarked_eq
    {n : Nat} {order : List Nat} (hnodup : order.Nodup) (hlt : ∀ v ∈ order, v < n)
    {around : Nat → List Nat} (haround : ∀ v, ∀ u ∈ around v, u < n) :
    greedyMarked n order around = .ok (Coloring.greedyMarked n order around) := by
  have hrun : order.foldlM (colorNext around) ⟨Array.replicate n none, Array.replicate n none⟩ =
        .ok (order.foldl (Marking.colorNext around)
          ⟨Array.replicate n none, Array.replicate n none⟩) ∧
      (order.foldl (Marking.colorNext around)
        ⟨Array.replicate n none, Array.replicate n none⟩).Follows n around order := by
    induction order using List.reverseRecOn with
    | nil => exact ⟨rfl, follows_nil n around⟩
    | append_singleton order v ih =>
        obtain ⟨hnodup', -, hnew⟩ := List.nodup_append.1 hnodup
        obtain ⟨hran, hfollows⟩ := ih hnodup' fun u hu => hlt u (List.mem_append_left _ hu)
        have hfresh : v ∉ order := fun hmem => hnew v hmem v (by simp) rfl
        have hroom := length_lt_of_concat hnodup hlt
        rw [List.foldlM_append, List.foldl_append, hran]
        simp only [bind, Except.bind, List.foldlM_cons, List.foldlM_nil, List.foldl_cons,
          List.foldl_nil, colorNext_eq hfollows hfresh (hlt v (by simp)) hroom (haround v)]
        exact ⟨rfl, hfollows.step hfresh hroom⟩
  unfold greedyMarked
  rw [hrun.1]
  rfl

theorem greedyColumns_eq
    {p pt : Pattern} (hp : p.WellFormed) :
    greedyColumns p pt = .ok (Coloring.greedyColumns p pt (fun _ => true) (fun _ => true)) := by
  refine greedyMarked_eq (nodup_byDegree (List.nodup_range.filter _))
    (fun c hc => List.mem_range.1 (List.mem_filter.1 (mem_byDegree_iff.1 hc)).1) fun c d hd => ?_
  obtain ⟨r, -, -, hmem⟩ := mem_sharing_iff.1 hd
  exact hp.lt_ncol hmem

end Strict

open Coloring

/--
The greedy colorings of a well-formed pattern use exactly the colors below their number, and none of
them is an empty sweep. A column coloring has as many colors as the longest row at least, and at
most one more than a colored column has neighbors; so has a row coloring by the columns. The search
for a free color never looks past the end of its table. The distance-two coloring of a symmetric
pattern has no gaps either, and at most one more color than some vertex has vertices within
distance two.
-/
theorem greedy_colorings_tight :
    (∀ p : Pattern, p.WellFormed →
      ((columnColoring p).Tight p.ncol p.columnNeighbors ∧
        (∀ r, (p.row r).length ≤ (columnColoring p).ncolors) ∧
        Strict.greedyColumns p p.transpose = .ok (columnColoring p)) ∧
      (rowColoring p).Tight p.nrow p.rowNeighbors ∧
        (∀ c, (p.columnRows c).card ≤ (rowColoring p).ncolors) ∧
        Strict.greedyColumns p.transpose p = .ok (rowColoring p)) ∧
    ∀ p : Pattern, p.IsSymmetric →
      ∃ c, symmetricColoring p = .ok c ∧ c.Tight p.nrow p.vertexNeighbors := by
  constructor
  · intro p hp
    have hmem : ∀ r c, r ∈ p.transpose.row c ↔ c ∈ p.row r := fun r c =>
      Pattern.mem_row_transpose_iff hp
    have hmem' : ∀ c r, c ∈ p.row r ↔ r ∈ p.transpose.row c := fun c r => (hmem r c).symm
    have hcolumns : (columnColoring p).Tight p.ncol p.columnNeighbors :=
      tight_greedyColumns hp hmem
    have hrows : (rowColoring p).Tight p.nrow p.rowNeighbors := by
      have htight := tight_greedyColumns hp.transpose hmem'
      rwa [funext (Pattern.columnNeighbors_transpose hp), Pattern.ncol_transpose] at htight
    have hlongest : ∀ r, (p.row r).length ≤ (columnColoring p).ncolors := by
      intro r
      have hcard := List.toFinset_card_of_nodup ((hp.row_increasing r).imp Nat.ne_of_lt)
      rw [← hcard]
      exact card_le_ncolors_greedyColumns hp hmem fun c hc => List.mem_toFinset.1 hc
    have htallest : ∀ c, (p.columnRows c).card ≤ (rowColoring p).ncolors := by
      intro c
      exact card_le_ncolors_greedyColumns hp.transpose hmem' (r := c) fun r hr =>
        (hmem r c).2 (Finset.mem_filter.1 hr).2
    exact ⟨⟨hcolumns, hlongest, Strict.greedyColumns_eq hp⟩, hrows, htallest,
      Strict.greedyColumns_eq hp.transpose⟩
  · intro p hsymm
    exact tight_symmetricColoring hsymm

theorem greedy_colorings_tight_arrow :
    (∃ k, (columnColoring Partition.arrow).colorOf 3 = some k ∧ k ≤ 3) ∧
      4 ≤ (rowColoring Partition.arrow).ncolors ∧
      ∃ c, symmetricColoring Partition.arrow = .ok c ∧ c.ncolors ≤ c.vertices.card := by
  obtain ⟨hpatterns, hsymmetric⟩ := greedy_colorings_tight
  obtain ⟨⟨hcolumns, -⟩, -, hrows, -⟩ := hpatterns Partition.arrow Partition.wellFormed_arrow
  obtain ⟨c, hc, htight⟩ := hsymmetric Partition.arrow Partition.isSymmetric_arrow
  refine ⟨⟨3, by cbv, ?_⟩, (by decide : 4 ≤ (Partition.arrow.columnRows 0).card).trans (hrows 0),
    c, hc, htight.ncolors_le_card⟩
  exact (hcolumns.color_le 3 3 (by cbv)).trans (by decide)

end SparseDiff
