import SparseDiff.Graph.Build
import SparseDiff.Proofs.Pattern.Compressed
import SparseDiff.Proofs.Pattern.Sorted

/-!
# Rearranged patterns

Reshaping, transposing, selecting and joining all move entries: entry `(r, c)` of the result
is the entry `origin r c` of a part. `Arranges` says that a result pattern and its map do so
nonzero by nonzero: the result has a nonzero where the part has one, and the map names it.
There is one `arranges_…` for each movement.
-/

namespace SparseDiff

theorem position_div
    {c n : Nat} (h : c < n) (r : Nat) :
    (r * n + c) / n = r := by
  rw [Nat.mul_comm, Nat.mul_add_div (by omega), Nat.div_eq_of_lt h, Nat.add_zero]

theorem position_mod
    {c n : Nat} (h : c < n) (r : Nat) :
    (r * n + c) % n = c := by
  rw [Nat.mul_comm, Nat.mul_add_mod, Nat.mod_eq_of_lt h]

/-- Positions in row-major order increase from row to row and in every row. -/
theorem position_lt
    {r s c d n : Nat} (hc : c < n) (h : r < s ∨ r = s ∧ c < d) :
    r * n + c < s * n + d := by
  rcases h with hlt | ⟨rfl, hlt⟩
  · have := Nat.mul_le_mul_right n hlt
    rw [Nat.succ_mul] at this
    omega
  · omega

/-- A later position lies in a later row, or in the same row further to the right. -/
theorem div_mod_lt
    {l l' : Nat} (h : l < l') (n : Nat) :
    l / n < l' / n ∨ l / n = l' / n ∧ l % n < l' % n := by
  rcases Nat.lt_or_eq_of_le (Nat.div_le_div_right (c := n) (Nat.le_of_lt h)) with hlt | heq
  · exact .inl hlt
  · have hl := Nat.div_add_mod l n
    have hl' := Nat.div_add_mod l' n
    rw [← heq] at hl'
    exact .inr ⟨heq, by omega⟩

/-- Number of the piece that holds position `i` of joined pieces, and the place in it. -/
def locate : List Nat → Nat → Nat × Nat
  | [], i => (0, i)
  | n :: ns, i => if i < n then (0, i) else ((locate ns (i - n)).1 + 1, (locate ns (i - n)).2)

/-- Where an entry of a rearranged matrix comes from: part, row and column. -/
abbrev Origin := Nat → Nat → Nat × Nat × Nat

namespace Origin

/-- Row-major order is kept while the width changes. -/
def reshaped (before after : Nat) : Origin
  | r, c => (0, (r * after + c) / before, (r * after + c) % before)

def transposed : Origin
  | r, c => (0, c, r)

def selected (rows cols : List Nat) : Origin
  | r, c => (0, rows.getD r 0, cols.getD c 0)

/-- Parts of the given widths side by side. -/
def beside (widths : List Nat) : Origin
  | r, c => ((locate widths c).1, r, (locate widths c).2)

/-- Parts of the given heights on top of each other. -/
def stacked (heights : List Nat) : Origin
  | r, c => ((locate heights r).1, (locate heights r).2, c)

end Origin

namespace Pattern

variable {α : Type}

/--
The result `q` has a nonzero wherever the part behind its entry has one, and `map` says
which nonzero of which part it is.
-/
structure Arranges (parts : List Pattern) (q : Pattern) (map : List (Nat × Nat))
    (origin : Origin) : Prop where
  wellFormed : q.WellFormed
  moved : ∀ r < q.nrow, ∀ c < q.ncol, ∀ d j,
    ((r, c), (d, j)) ∈ q.entries.zip map ↔
      d = (origin r c).1 ∧ ∃ p, parts[d]? = some p ∧ p.entries[j]? = some (origin r c).2

theorem mem_zip_iff
    {β : Type} {xs : List α} {ys : List β} {x : α} {y : β} :
    (x, y) ∈ xs.zip ys ↔ ∃ k : Nat, xs[k]? = some x ∧ ys[k]? = some y := by
  simp only [List.mem_iff_getElem?, List.getElem?_zip_eq_some]

theorem mem_zip_fromOnly_iff
    {xs : List α} {numbers : List Nat} {x : α} {d j : Nat} :
    (x, (d, j)) ∈ xs.zip (Graph.fromOnly numbers) ↔ d = 0 ∧ (x, j) ∈ xs.zip numbers := by
  simp only [Graph.fromOnly, List.zip_map_right, List.mem_map, Prod.exists, Prod.map_apply, id_eq,
    Prod.mk.injEq]
  grind

/-- A result made from one part. -/
theorem arranges_fromOnly
    {p q : Pattern} (hq : q.WellFormed) {numbers : List Nat} {from? : Nat → Nat → Nat × Nat}
    (h : ∀ r < q.nrow, ∀ c < q.ncol, ∀ j,
      ((r, c), j) ∈ q.entries.zip numbers ↔ p.entries[j]? = some (from? r c)) :
    Arranges [p] q (Graph.fromOnly numbers) fun r c => (0, from? r c) := by
  refine ⟨hq, fun r hr c hc d j => ?_⟩
  rw [mem_zip_fromOnly_iff, h r hr c hc]
  constructor
  · rintro ⟨rfl, hj⟩
    exact ⟨rfl, p, rfl, hj⟩
  · rintro ⟨rfl, p', hp, hj⟩
    cases hp
    exact ⟨rfl, hj⟩

/-- Entries with their labels, of labelled rows the first of which is row `start`. -/
def labelled (start : Nat) (rows : List (List (Nat × α))) : List ((Nat × Nat) × α) :=
  (rows.zipIdx start).flatMap fun (row, r) => row.map fun (c, a) => ((r, c), a)

theorem zip_entriesFrom_labels
    (start : Nat) (rows : List (List (Nat × α))) :
    (entriesFrom start (rows.map fun row => row.map Prod.fst)).zip
        (rows.flatMap fun row => row.map Prod.snd) =
      labelled start rows := by
  induction rows generalizing start with
  | nil => rfl
  | cons row rows ih =>
      rw [List.map_cons, entriesFrom_cons, List.flatMap_cons, List.zip_append (by simp), ih]
      simp [labelled, List.zipIdx_cons, List.zip_map', Function.comp_def]

/-- The label of a nonzero stands beside its column. -/
theorem mem_zip_labels_iff
    {ncol : Nat} {rows : List (List (Nat × α))} {r c : Nat} {a : α} :
    ((r, c), a) ∈ (Pattern.mk ncol (rows.map fun row => row.map Prod.fst).toArray).entries.zip
        (rows.flatMap fun row => row.map Prod.snd) ↔
      ∃ row, rows[r]? = some row ∧ (c, a) ∈ row := by
  rw [entries_eq_entriesFrom, List.toList_toArray, zip_entriesFrom_labels]
  constructor
  · intro h
    obtain ⟨⟨row, r'⟩, hrow, hmem⟩ := List.mem_flatMap.1 h
    obtain ⟨⟨c', a'⟩, hlabel, heq⟩ := List.mem_map.1 hmem
    cases heq
    exact ⟨row, List.mem_zipIdx_iff_getElem?.1 hrow, hlabel⟩
  · rintro ⟨row, hrow, hmem⟩
    exact List.mem_flatMap.2 ⟨(row, r), List.mem_zipIdx_iff_getElem?.2 hrow,
      List.mem_map.2 ⟨(c, a), hmem, rfl⟩⟩

/-- There is one label for every nonzero. -/
theorem nnz_labels
    (ncol : Nat) (rows : List (List (Nat × α))) :
    (Pattern.mk ncol (rows.map fun row => row.map Prod.fst).toArray).nnz =
      (rows.flatMap fun row => row.map Prod.snd).length := by
  simp [nnz, total_eq_sum, List.length_flatMap, Function.comp_def]

theorem shape_transpose
    (p : Pattern) :
    p.transpose.shape = (p.ncol, p.nrow) := by
  rw [shape, nrow_transpose, ncol_transpose]

/-- Beside a nonzero `(r, c)` of the transpose stands the number of `(c, r)`. -/
theorem mem_zip_transposeMap_iff
    {p : Pattern} (hp : p.WellFormed) {r c j : Nat} (hr : r < p.ncol) :
    ((r, c), j) ∈ p.transpose.entries.zip p.transposeMap ↔ p.entries[j]? = some (c, r) := by
  have hrows : p.transpose =
      ⟨p.nrow, (p.byColumn.toList.map fun col => col.map Prod.fst).toArray⟩ := by
    rw [← Array.toList_map, Array.toArray_toList]
    rfl
  have hcol : p.byColumn.toList[r]? = some (inColumn r p.byRow) := by
    rw [Array.getElem?_toList, getElem?_byColumn hp hr]
  rw [hrows, transposeMap, mem_zip_labels_iff, hcol]
  simp only [Option.some.injEq, exists_eq_left', inColumn, byRow, List.mem_map, List.mem_filter,
    Prod.exists, List.mem_zipIdx_iff_getElem?]
  grind

theorem arranges_transpose
    {p : Pattern} (hp : p.WellFormed) :
    Arranges [p] p.transpose (Graph.fromOnly p.transposeMap) .transposed := by
  refine arranges_fromOnly hp.transpose fun r hr c _ j => ?_
  rw [nrow_transpose] at hr
  exact mem_zip_transposeMap_iff hp hr

theorem eq_of_checked
    {op : String} {p q : Pattern} (h : checked op p = .ok q) :
    q = p := by
  obtain ⟨-, -, h⟩ := bind_eq_ok_iff.1 h
  obtain ⟨-, -, h⟩ := bind_eq_ok_iff.1 h
  cases h
  rfl

theorem indexable_of_checked
    {op : String} {p q : Pattern} (h : checked op p = .ok q) :
    q.Indexable := by
  have heq := eq_of_checked h
  obtain ⟨hshape, h⟩ := check_bind_eq_ok_iff.1 h
  obtain ⟨hcount, -⟩ := check_bind_eq_ok_iff.1 h
  obtain ⟨hnrow, hncol⟩ := checkShape_eq_ok_iff.1 hshape
  rw [heq]
  exact ⟨hnrow, hncol, checkCount_eq_ok_iff.1 hcount⟩

theorem mem_takers_iff
    {ncol c j : Nat} (hc : c < ncol) (cols : List Nat) :
    j ∈ (takers ncol cols).getD c [] ↔ cols[j]? = some c := by
  rw [takers, Array.getD_eq_getD_getElem?, getElem?_sortInto ncol _ hc]
  simp [List.mem_zipIdx_iff_getElem?]

theorem nodup_takers
    {ncol c : Nat} (hc : c < ncol) (cols : List Nat) :
    ((takers ncol cols).getD c []).Nodup := by
  rw [takers, Array.getD_eq_getD_getElem?, getElem?_sortInto ncol _ hc, Option.getD_some]
  have hplaces : (cols.zipIdx.map Prod.snd).Nodup := by
    rw [List.zipIdx_map_snd]
    exact List.nodup_range'
  exact hplaces.sublist (List.filter_sublist.map _)

section Row

variable {p : Pattern} (hp : p.WellFormed) (r : Nat) (cols : List Nat)
include hp

/-- New column `c` takes the nonzero in the old column that it stands for, if there is one. -/
theorem mem_selectRow_iff
    {c j : Nat} :
    (c, j) ∈ selectRow (takers p.ncol cols) (p.rowStart r) (p.row r) ↔
      ∃ c', cols[c]? = some c' ∧ p.entries[j]? = some (r, c') := by
  rw [selectRow, List.mem_mergeSort, List.mem_flatMap]
  simp only [getElem?_entries_iff]
  constructor
  · rintro ⟨⟨c', k⟩, hk, hmem⟩
    obtain ⟨hle, hget⟩ := List.mk_mem_zipIdx_iff_le_and_getElem?_sub.1 hk
    obtain ⟨_, hc, heq⟩ := List.mem_map.1 hmem
    cases heq
    rw [mem_takers_iff (hp.lt_ncol (List.mem_of_getElem? hget))] at hc
    exact ⟨c', hc, k - p.rowStart r, hget, by omega⟩
  · rintro ⟨c', hc, i, hget, rfl⟩
    refine ⟨(c', p.rowStart r + i), ?_, List.mem_map.2 ⟨c, ?_, rfl⟩⟩
    · exact List.mk_mem_zipIdx_iff_le_and_getElem?_sub.2 ⟨Nat.le_add_right .., by simpa using hget⟩
    · exact (mem_takers_iff (hp.lt_ncol (List.mem_of_getElem? hget)) cols).2 hc

theorem nodup_selectRow :
    (selectRow (takers p.ncol cols) (p.rowStart r) (p.row r)).Nodup := by
  rw [selectRow, (List.mergeSort_perm _ _).nodup_iff, List.nodup_flatMap]
  constructor
  · rintro ⟨c, k⟩ hk
    have hget := (List.mk_mem_zipIdx_iff_le_and_getElem?_sub.1 hk).2
    refine (nodup_takers (hp.lt_ncol (List.mem_of_getElem? hget)) cols).map fun i j hij => ?_
    exact (Prod.mk.inj hij).1
  · have hnumbers : ((p.row r).zipIdx (p.rowStart r)).Pairwise fun a b => a.2 ≠ b.2 := by
      rw [← List.pairwise_map (f := Prod.snd) (R := (· ≠ ·)), List.zipIdx_map_snd]
      exact List.nodup_range'
    refine hnumbers.imp fun hne x hx hx' => hne ?_
    obtain ⟨_, -, rfl⟩ := List.mem_map.1 hx
    obtain ⟨_, -, heq⟩ := List.mem_map.1 hx'
    exact (Prod.mk.inj heq).2.symm

/-- No new column takes two nonzeros, so sorting brings the new columns into order. -/
theorem increasing_selectRow :
    ((selectRow (takers p.ncol cols) (p.rowStart r) (p.row r)).map Prod.fst).Pairwise (· < ·) := by
  have hmajor : RowMajor (selectRow (takers p.ncol cols) (p.rowStart r) (p.row r)) :=
    rowMajor_of_nodup (pairwise_mergeSort_inOrder _) (nodup_selectRow hp r cols)
  rw [List.pairwise_map]
  refine hmajor.imp_of_mem fun {a b} ha hb hab => ?_
  rcases hab with hlt | ⟨heq, hlt⟩
  · exact hlt
  · obtain ⟨c, hc, hj⟩ := (mem_selectRow_iff hp r cols).1 ha
    obtain ⟨c', hc', hj'⟩ := (mem_selectRow_iff hp r cols).1 hb
    obtain rfl : c = c' := Option.some.inj (hc.symm.trans (heq ▸ hc'))
    have hj := (nzIndex?_eq_some_iff hp).2 hj
    have hj' := (nzIndex?_eq_some_iff hp).2 hj'
    exact absurd (Option.some.inj (hj.symm.trans hj')) (Nat.ne_of_lt hlt)

theorem lt_of_mem_selectRow
    {c : Nat} (h : c ∈ (selectRow (takers p.ncol cols) (p.rowStart r) (p.row r)).map Prod.fst) :
    c < cols.length := by
  obtain ⟨⟨c, j⟩, hmem, rfl⟩ := List.mem_map.1 h
  obtain ⟨c', hc, -⟩ := (mem_selectRow_iff hp r cols).1 hmem
  exact (List.getElem?_eq_some_iff.1 hc).1

end Row

/-- An accepted selection stays inside the pattern. -/
theorem sub_eq_ok
    {p q : Pattern} {rows cols map : List Nat} (h : p.sub rows cols = .ok (q, map)) :
    (∀ r ∈ rows, r < p.nrow) ∧ (∀ c ∈ cols, c < p.ncol) ∧ q.Indexable ∧
      q = ⟨cols.length, ((p.selection rows cols).map fun row => row.map Prod.fst).toArray⟩ ∧
      map = (p.selection rows cols).flatMap fun row => row.map Prod.snd := by
  unfold sub at h
  cases hrows : rows.find? (p.nrow ≤ ·) with
  | some r =>
      simp only [hrows] at h
      obtain ⟨_, h, -⟩ := bind_eq_ok_iff.1 h
      cases h
  | none =>
      cases hcols : cols.find? (p.ncol ≤ ·) with
      | some c =>
          simp only [hrows, hcols] at h
          obtain ⟨_, h, -⟩ := bind_eq_ok_iff.1 h
          cases h
      | none =>
          simp only [hrows, hcols] at h
          obtain ⟨-, -, h⟩ := bind_eq_ok_iff.1 h
          obtain ⟨result, hchecked, h⟩ := bind_eq_ok_iff.1 h
          cases h
          exact ⟨by simpa using hrows, by simpa using hcols, indexable_of_checked hchecked,
            eq_of_checked hchecked, rfl⟩

theorem shape_sub
    {p q : Pattern} {rows cols map : List Nat} (h : p.sub rows cols = .ok (q, map)) :
    q.shape = (rows.length, cols.length) := by
  obtain ⟨-, -, -, rfl, -⟩ := sub_eq_ok h
  simp [shape, nrow, selection]

theorem selection_eq_map
    {p : Pattern} {rows cols : List Nat} (hrows : ∀ r ∈ rows, r < p.nrow) :
    p.selection rows cols =
      rows.map fun r => selectRow (takers p.ncol cols) (p.rowStart r) (p.row r) := by
  refine List.map_congr_left fun r hr => ?_
  simp [rowStart_eq_rowPtr p (Nat.le_of_lt (hrows r hr))]

theorem arranges_sub
    {p q : Pattern} (hp : p.WellFormed) {rows cols map : List Nat}
    (h : p.sub rows cols = .ok (q, map)) :
    Arranges [p] q (Graph.fromOnly map) (.selected rows cols) := by
  obtain ⟨hrows, -, -, rfl, rfl⟩ := sub_eq_ok h
  rw [selection_eq_map hrows]
  refine arranges_fromOnly ⟨fun row hmem => ?_, fun row hmem c hc => ?_⟩ fun r hr c hc j => ?_
  · obtain ⟨_, hlabels, rfl⟩ := List.mem_map.1 hmem
    obtain ⟨r, -, rfl⟩ := List.mem_map.1 hlabels
    exact increasing_selectRow hp r cols
  · obtain ⟨_, hlabels, rfl⟩ := List.mem_map.1 hmem
    obtain ⟨r, -, rfl⟩ := List.mem_map.1 hlabels
    exact lt_of_mem_selectRow hp r cols hc
  · have hr' : r < rows.length := by simpa [nrow] using hr
    have hrow : rows[r]? = some (rows.getD r 0) := by simp [hr']
    have hcol : cols[c]? = some (cols.getD c 0) := by
      have hc' : c < cols.length := hc
      simp [hc']
    rw [mem_zip_labels_iff, List.getElem?_map, hrow]
    simp only [Option.map_some, Option.some.injEq, exists_eq_left', mem_selectRow_iff hp, hcol]

theorem mem_zip_rowMoves_iff
    {xs : List α} {i start : Nat} {x : α} {d j : Nat} :
    (x, (d, j)) ∈ xs.zip (Graph.rowMoves i start xs.length) ↔
      d = i ∧ ∃ n : Nat, xs[n]? = some x ∧ j = start + n := by
  rw [mem_zip_iff]
  simp only [Graph.rowMoves, List.getElem?_map, Option.map_eq_some_iff, Prod.mk.injEq,
    List.getElem?_eq_some_iff]
  grind

/--
Position `x` of joined parts lies in part `d`, and `Q` holds of that part and the place in it.
The parts start at position `offset` and are numbered from `i` on.
-/
def LiesIn (size : Pattern → Nat) (Q : Pattern → Nat → Prop) (parts : List Pattern)
    (i offset x d : Nat) : Prop :=
  offset ≤ x ∧ d = i + (locate (parts.map size) (x - offset)).1 ∧
    ∃ p, parts[(locate (parts.map size) (x - offset)).1]? = some p ∧
      Q p (locate (parts.map size) (x - offset)).2

theorem not_liesIn_nil
    {size : Pattern → Nat} {Q : Pattern → Nat → Prop} {i offset x d : Nat} :
    ¬LiesIn size Q [] i offset x d := by
  rintro ⟨-, -, p, hp, -⟩
  cases hp

theorem liesIn_zero_iff
    {size : Pattern → Nat} {Q : Pattern → Nat → Prop} {parts : List Pattern} {x d : Nat} :
    LiesIn size Q parts 0 0 x d ↔
      d = (locate (parts.map size) x).1 ∧
        ∃ p, parts[d]? = some p ∧ Q p (locate (parts.map size) x).2 := by
  simp only [LiesIn, Nat.zero_le, true_and, Nat.zero_add, Nat.sub_zero]
  refine and_congr_right fun hd => ?_
  rw [hd]

/-- A position lies in the first part, or in the others behind it. -/
theorem liesIn_cons_iff
    {size : Pattern → Nat} {Q : Pattern → Nat → Prop} {p : Pattern} {parts : List Pattern}
    (hsize : ∀ x, Q p x → x < size p) {i offset x d : Nat} :
    LiesIn size Q (p :: parts) i offset x d ↔
      d = i ∧ offset ≤ x ∧ Q p (x - offset) ∨
        LiesIn size Q parts (i + 1) (offset + size p) x d := by
  unfold LiesIn
  rw [List.map_cons, locate]
  split
  · next hlt =>
      constructor
      · rintro ⟨hle, hd, p', hp', hQ⟩
        cases hp'
        exact .inl ⟨hd, hle, hQ⟩
      · rintro (⟨hd, hle, hQ⟩ | ⟨hle, -⟩)
        · exact ⟨hle, hd, p, rfl, hQ⟩
        · omega
  · next hge =>
      have hrest : x - (offset + size p) = x - offset - size p := by omega
      rw [hrest]
      constructor
      · rintro ⟨hle, hd, hp'⟩
        exact .inr ⟨by omega, by omega, by simpa using hp'⟩
      · rintro (⟨-, -, hQ⟩ | ⟨hle, hd, hp'⟩)
        · exact absurd (hsize _ hQ) hge
        · exact ⟨by omega, by omega, by simpa using hp'⟩

/-- What stands behind the columns of row `r` of joined parts, the first being part `i`. -/
def joinMoves (r i : Nat) : List Pattern → List (Nat × Nat)
  | [] => []
  | p :: parts => Graph.rowMoves i (p.rowStart r) (p.row r).length ++ joinMoves r (i + 1) parts

theorem length_joinMoves
    (r i offset : Nat) (parts : List Pattern) :
    (joinMoves r i parts).length = (joinRow r offset parts).length := by
  induction parts generalizing i offset with
  | nil => rfl
  | cons p parts ih => simp [joinMoves, joinRow, Graph.rowMoves, ih (i + 1) (offset + p.ncol)]

theorem horzcatMap_eq_flatMap
    {nrow : Nat} {parts : List Pattern} (h : ∀ p ∈ parts, nrow ≤ p.nrow) :
    Graph.horzcatMap nrow parts = (List.range nrow).flatMap fun r => joinMoves r 0 parts := by
  refine List.flatMap_congr fun r hr => ?_
  have hr := List.mem_range.1 hr
  have hmoves : ∀ i, ((parts.zipIdx i).map fun x => (x.2, x.1, x.1.rowPtr.toArray)).flatMap
      (fun x => Graph.rowMoves x.1 (x.2.2.getD r 0) (x.2.1.row r).length) =
        joinMoves r i parts := by
    induction parts with
    | nil => exact fun _ => rfl
    | cons p parts ih =>
        intro i
        have hle := h p (List.mem_cons_self ..)
        have hstart : p.rowPtr[r]? = some (p.rowStart r) := rowStart_eq_rowPtr p (by omega)
        have ih := ih (fun p' hp' => h p' (List.mem_cons_of_mem _ hp')) (i + 1)
        simp only [List.zipIdx_cons, List.map_cons, List.flatMap_cons, joinMoves, ih]
        simp [hstart]
  exact hmoves 0

theorem mem_zip_joinMoves_iff
    {parts : List Pattern} (hparts : ∀ p ∈ parts, p.WellFormed) {r i offset c d j : Nat} :
    (c, (d, j)) ∈ (joinRow r offset parts).zip (joinMoves r i parts) ↔
      LiesIn ncol (fun p c => p.entries[j]? = some (r, c)) parts i offset c d := by
  induction parts generalizing i offset with
  | nil => simp [joinRow, not_liesIn_nil]
  | cons p parts ih =>
      have hp := hparts p (List.mem_cons_self ..)
      have hbound : ∀ c, p.entries[j]? = some (r, c) → c < p.ncol := fun c hc =>
        hp.lt_ncol (mem_entries_iff.1 (List.mem_of_getElem? hc))
      have hfirst : (c, (d, j)) ∈ ((p.row r).map (· + offset)).zip
            (Graph.rowMoves i (p.rowStart r) (p.row r).length) ↔
          d = i ∧ offset ≤ c ∧ p.entries[j]? = some (r, c - offset) := by
        have hlength : (p.row r).length = ((p.row r).map (· + offset)).length :=
          (List.length_map ..).symm
        rw [hlength, mem_zip_rowMoves_iff, getElem?_entries_iff]
        simp only [List.getElem?_map, Option.map_eq_some_iff]
        constructor
        · rintro ⟨rfl, n, ⟨c', hc, rfl⟩, hj⟩
          exact ⟨rfl, by omega, n, by simpa using hc, hj⟩
        · rintro ⟨rfl, hle, n, hc, hj⟩
          exact ⟨rfl, n, ⟨c - offset, hc, by omega⟩, hj⟩
      rw [joinRow, joinMoves, List.zip_append (by simp [Graph.rowMoves]), List.mem_append, hfirst,
        ih fun p' hp' => hparts p' (List.mem_cons_of_mem _ hp'), liesIn_cons_iff hbound]

/-- Columns of joined rows increase from part to part and stay below the joint width. -/
theorem joinRow_increasing
    {parts : List Pattern} (hparts : ∀ p ∈ parts, p.WellFormed) (r offset : Nat) :
    (joinRow r offset parts).Pairwise (· < ·) ∧ ∀ c ∈ joinRow r offset parts,
      offset ≤ c ∧ c < offset + total (parts.map ncol) := by
  induction parts generalizing offset with
  | nil => simp [joinRow]
  | cons p parts ih =>
      have hp := hparts p (List.mem_cons_self ..)
      obtain ⟨hincreasing, hbound⟩ := ih (fun p' hp' => hparts p' (List.mem_cons_of_mem _ hp'))
        (offset + p.ncol)
      have hfirst : ∀ c ∈ (p.row r).map (· + offset), offset ≤ c ∧ c < offset + p.ncol := by
        intro c hc
        obtain ⟨c', hc', rfl⟩ := List.mem_map.1 hc
        have := hp.lt_ncol hc'
        omega
      rw [joinRow, List.map_cons, total_cons]
      refine ⟨List.pairwise_append.2 ⟨?_, hincreasing, fun a ha b hb => ?_⟩, fun c hc => ?_⟩
      · exact List.pairwise_map.2 ((hp.row_increasing r).imp fun hlt => by omega)
      · have := hfirst a ha
        have := hbound b hb
        omega
      · rcases List.mem_append.1 hc with hc | hc
        · have := hfirst c hc
          omega
        · have := hbound c hc
          omega

theorem horzcat_eq_ok
    {parts : List Pattern} {q : Pattern} (h : horzcat parts = .ok q) :
    (∀ p ∈ parts, p.nrow = q.nrow) ∧ q.nrow = (parts.head?.map nrow).getD 0 ∧ q.Indexable ∧
      q = ⟨total (parts.map ncol),
        ((List.range q.nrow).map fun r => joinRow r 0 parts).toArray⟩ := by
  simp only [horzcat] at h
  generalize (parts.head?.map nrow).getD 0 = height at h ⊢
  cases hrows : parts.find? (·.nrow ≠ height) with
  | some p =>
      simp only [hrows] at h
      obtain ⟨_, h, -⟩ := bind_eq_ok_iff.1 h
      cases h
  | none =>
      simp only [hrows] at h
      obtain ⟨-, -, h⟩ := bind_eq_ok_iff.1 h
      have hindexable := indexable_of_checked h
      have hq := eq_of_checked h
      have hheight : q.nrow = height := by
        rw [hq]
        simp [nrow]
      rw [hheight]
      exact ⟨by simpa using hrows, rfl, hindexable, hq⟩

theorem shape_horzcat
    {parts : List Pattern} {q : Pattern} (h : horzcat parts = .ok q) :
    q.shape = ((parts.head?.map nrow).getD 0, total (parts.map ncol)) := by
  obtain ⟨-, hnrow, -, hq⟩ := horzcat_eq_ok h
  exact Prod.ext hnrow (congrArg ncol hq)

/-- Row `r` of joined parts, each column with the nonzero behind it. -/
def joinedRow (parts : List Pattern) (r : Nat) : List (Nat × (Nat × Nat)) :=
  (joinRow r 0 parts).zip (joinMoves r 0 parts)

theorem map_fst_joinedRow
    (parts : List Pattern) (nrow : Nat) :
    ((List.range nrow).map (joinedRow parts)).map (fun row => row.map Prod.fst) =
      (List.range nrow).map fun r => joinRow r 0 parts := by
  have hlength : ∀ r, (joinMoves r 0 parts).length = (joinRow r 0 parts).length :=
    fun r => length_joinMoves r 0 0 parts
  simp [joinedRow, Function.comp_def, List.map_fst_zip, hlength]

theorem flatMap_snd_joinedRow
    {parts : List Pattern} {nrow : Nat} (h : ∀ p ∈ parts, nrow ≤ p.nrow) :
    ((List.range nrow).map (joinedRow parts)).flatMap (fun row => row.map Prod.snd) =
      Graph.horzcatMap nrow parts := by
  have hlength : ∀ r, (joinMoves r 0 parts).length = (joinRow r 0 parts).length :=
    fun r => length_joinMoves r 0 0 parts
  simp [joinedRow, horzcatMap_eq_flatMap h, List.flatMap_map, List.map_snd_zip, hlength]

/-- The nonzeros of joined rows, each with the one behind it. -/
theorem mem_zip_horzcatMap_iff
    {parts : List Pattern} {ncol nrow : Nat} (h : ∀ p ∈ parts, nrow ≤ p.nrow) {r c d j : Nat}
    (hr : r < nrow) :
    ((r, c), (d, j)) ∈ (Pattern.mk ncol ((List.range nrow).map fun r =>
        joinRow r 0 parts).toArray).entries.zip (Graph.horzcatMap nrow parts) ↔
      (c, (d, j)) ∈ (joinRow r 0 parts).zip (joinMoves r 0 parts) := by
  rw [← map_fst_joinedRow, ← flatMap_snd_joinedRow h, mem_zip_labels_iff]
  simp [hr, joinedRow]

theorem length_horzcatMap
    {parts : List Pattern} {q : Pattern} (h : horzcat parts = .ok q) :
    (Graph.horzcatMap q.nrow parts).length = q.nnz := by
  obtain ⟨hnrow, -, -, hq⟩ := horzcat_eq_ok h
  rw [← flatMap_snd_joinedRow fun p hp => (hnrow p hp).ge, ← nnz_labels (total (parts.map ncol)),
    map_fst_joinedRow, ← hq]

theorem arranges_horzcat
    {parts : List Pattern} (hparts : ∀ p ∈ parts, p.WellFormed) {q : Pattern}
    (h : horzcat parts = .ok q) :
    Arranges parts q (Graph.horzcatMap q.nrow parts) (.beside (parts.map ncol)) := by
  obtain ⟨hnrow, -, -, hq⟩ := horzcat_eq_ok h
  have hrow : ∀ row ∈ q.rows.toList, ∃ r, row = joinRow r 0 parts := by
    intro row hmem
    rw [hq] at hmem
    obtain ⟨r, -, rfl⟩ := List.mem_map.1 hmem
    exact ⟨r, rfl⟩
  refine ⟨⟨fun row hmem => ?_, fun row hmem c hc => ?_⟩, fun r hr c hc d j => ?_⟩
  · obtain ⟨r, rfl⟩ := hrow row hmem
    exact (joinRow_increasing hparts r 0).1
  · obtain ⟨r, rfl⟩ := hrow row hmem
    have := (joinRow_increasing hparts r 0).2 c hc
    rw [hq]
    simpa using this
  · have hle : ∀ p ∈ parts, q.nrow ≤ p.nrow := fun p hp => (hnrow p hp).ge
    have hmem := @mem_zip_horzcatMap_iff parts (total (parts.map ncol)) q.nrow hle r c d j hr
    rw [← hq, mem_zip_joinMoves_iff hparts, liesIn_zero_iff] at hmem
    exact hmem

theorem entriesFrom_append
    (start : Nat) (rows rows' : List (List Nat)) :
    entriesFrom start (rows ++ rows') =
      entriesFrom start rows ++ entriesFrom (start + rows.length) rows' := by
  simp [entriesFrom, List.zipIdx_append]

theorem getElem?_entriesFrom_eq
    {p : Pattern} {start k r c : Nat} :
    (entriesFrom start p.rows.toList)[k]? = some (r, c) ↔
      start ≤ r ∧ p.entries[k]? = some (r - start, c) := by
  rw [entries_eq_entriesFrom, getElem?_entriesFrom_iff, getElem?_entriesFrom_iff]
  constructor
  · rintro ⟨i, j, cols, rfl, h⟩
    exact ⟨by omega, i, j, cols, by omega, h⟩
  · rintro ⟨hle, i, j, cols, hi, h⟩
    exact ⟨i, j, cols, by omega, h⟩

theorem mem_zip_vertcatMap_iff
    {parts : List Pattern} {i offset r c d j : Nat} :
    ((r, c), (d, j)) ∈ (entriesFrom offset (parts.flatMap fun p => p.rows.toList)).zip
        ((parts.zipIdx i).flatMap fun (p, i) => Graph.rowMoves i 0 p.nnz) ↔
      LiesIn nrow (fun p r => p.entries[j]? = some (r, c)) parts i offset r d := by
  induction parts generalizing i offset with
  | nil => simp [not_liesIn_nil]
  | cons p parts ih =>
      have hbound : ∀ r, p.entries[j]? = some (r, c) → r < p.nrow := fun r hr =>
        lt_nrow_of_mem_row (mem_entries_iff.1 (List.mem_of_getElem? hr))
      have hlength : (entriesFrom offset p.rows.toList).length = p.nnz := length_entriesFrom ..
      have hfirst : ((r, c), (d, j)) ∈ (entriesFrom offset p.rows.toList).zip
            (Graph.rowMoves i 0 p.nnz) ↔
          d = i ∧ offset ≤ r ∧ p.entries[j]? = some (r - offset, c) := by
        rw [← hlength, mem_zip_rowMoves_iff]
        simp only [Nat.zero_add, exists_eq_right', getElem?_entriesFrom_eq]
      rw [List.flatMap_cons, entriesFrom_append, List.zipIdx_cons, List.flatMap_cons,
        List.zip_append (by simp [Graph.rowMoves, hlength]), List.mem_append, hfirst, ih,
        liesIn_cons_iff hbound]
      rfl

theorem vertcat_eq_ok
    {parts : List Pattern} {q : Pattern} (h : vertcat parts = .ok q) :
    (∀ p ∈ parts, p.ncol = q.ncol) ∧ q.ncol = (parts.head?.map ncol).getD 0 ∧ q.Indexable ∧
      q.rows = (parts.flatMap fun p => p.rows.toList).toArray := by
  simp only [vertcat] at h
  generalize (parts.head?.map ncol).getD 0 = width at h ⊢
  cases hcols : parts.find? (·.ncol ≠ width) with
  | some p =>
      simp only [hcols] at h
      obtain ⟨_, h, -⟩ := bind_eq_ok_iff.1 h
      cases h
  | none =>
      simp only [hcols] at h
      obtain ⟨-, -, h⟩ := bind_eq_ok_iff.1 h
      refine ⟨?_, ?_, indexable_of_checked h, ?_⟩
      all_goals rw [eq_of_checked h]
      simpa using hcols

theorem shape_vertcat
    {parts : List Pattern} {q : Pattern} (h : vertcat parts = .ok q) :
    q.shape = (total (parts.map nrow), (parts.head?.map ncol).getD 0) := by
  obtain ⟨-, hncol, -, hrows⟩ := vertcat_eq_ok h
  have hnrow : q.nrow = total (parts.map nrow) := by
    rw [nrow, hrows, total_eq_sum, List.size_toArray, List.length_flatMap]
    rfl
  exact Prod.ext hnrow hncol

theorem length_vertcatMap
    {parts : List Pattern} {q : Pattern} (h : vertcat parts = .ok q) :
    (Graph.vertcatMap parts).length = q.nnz := by
  obtain ⟨-, -, -, hrows⟩ := vertcat_eq_ok h
  have hlength : (Graph.vertcatMap parts).length = ((parts.zipIdx.map Prod.fst).map nnz).sum := by
    simp [Graph.vertcatMap, Graph.rowMoves, List.length_flatMap, Function.comp_def,
      -List.zipIdx_map_fst]
  have hnnz : (parts.map nnz).sum =
      ((parts.flatMap fun p => p.rows.toList).map List.length).sum := by
    clear h hrows hlength
    induction parts with
    | nil => rfl
    | cons p parts ih => simp [ih, nnz, total_eq_sum]
  rw [hlength, List.zipIdx_map_fst, nnz, hrows, total_eq_sum, hnnz]

theorem arranges_vertcat
    {parts : List Pattern} (hparts : ∀ p ∈ parts, p.WellFormed) {q : Pattern}
    (h : vertcat parts = .ok q) :
    Arranges parts q (Graph.vertcatMap parts) (.stacked (parts.map nrow)) := by
  obtain ⟨hncol, -, -, hrows⟩ := vertcat_eq_ok h
  have hrow : ∀ row ∈ q.rows.toList, ∃ p ∈ parts, row ∈ p.rows.toList := by
    intro row hmem
    rw [hrows] at hmem
    simpa using hmem
  refine ⟨⟨fun row hmem => ?_, fun row hmem c hc => ?_⟩, fun r _ c _ d j => ?_⟩
  · obtain ⟨p, hp, hmem⟩ := hrow row hmem
    exact (hparts p hp).increasing row hmem
  · obtain ⟨p, hp, hmem⟩ := hrow row hmem
    rw [← hncol p hp]
    exact (hparts p hp).bounded row hmem c hc
  · rw [entries_eq_entriesFrom, hrows, Graph.vertcatMap, mem_zip_vertcatMap_iff,
      liesIn_zero_iff]
    rfl

theorem reshape_eq_ok
    {p q : Pattern} {nrow ncol : Nat} (h : p.reshape nrow ncol = .ok q) :
    (nrow ≤ maxIndex ∧ ncol ≤ maxIndex) ∧ nrow * ncol = p.numel ∧
      q = ofSortedEntries nrow ncol (p.entries.map fun (r, c) =>
        ((r * p.ncol + c) / ncol, (r * p.ncol + c) % ncol)) := by
  obtain ⟨hshape, h⟩ := check_bind_eq_ok_iff.1 h
  obtain ⟨hcount, h⟩ := ite_throw_eq_ok_iff.1 h
  cases h
  exact ⟨checkShape_eq_ok_iff.1 hshape, not_not.1 hcount, rfl⟩

theorem shape_reshape
    {p q : Pattern} {nrow ncol : Nat} (h : p.reshape nrow ncol = .ok q) :
    q.shape = (nrow, ncol) := by
  obtain ⟨-, -, rfl⟩ := reshape_eq_ok h
  exact shape_ofSortedEntries ..

/-- Entries of an accepted reshape are the entries, each at its position in the new shape. -/
theorem entries_reshape
    {p q : Pattern} (hp : p.WellFormed) {nrow ncol : Nat} (h : p.reshape nrow ncol = .ok q) :
    q.WellFormed ∧ q.ncol = ncol ∧ q.entries = p.entries.map fun (r, c) =>
      ((r * p.ncol + c) / ncol, (r * p.ncol + c) % ncol) := by
  obtain ⟨-, hcount, hq⟩ := reshape_eq_ok h
  have hcol : ∀ entry ∈ p.entries, entry.2 < p.ncol := fun (r, c) hmem =>
    hp.lt_ncol (mem_entries_iff.1 hmem)
  have hposition : ∀ entry ∈ p.entries, entry.1 * p.ncol + entry.2 < ncol * nrow := by
    rintro ⟨r, c⟩ hmem
    have hr := lt_nrow_of_mem_row (mem_entries_iff.1 hmem)
    have hend := position_lt (hcol _ hmem) (.inl hr) (d := 0)
    rw [Nat.mul_comm ncol, hcount]
    exact hend
  have hmajor : RowMajor (p.entries.map fun (r, c) =>
      ((r * p.ncol + c) / ncol, (r * p.ncol + c) % ncol)) := by
    rw [RowMajor, List.pairwise_map]
    exact hp.rowMajor.imp_of_mem fun ha _ hab => div_mod_lt (position_lt (hcol _ ha) hab) ncol
  have hinside : ∀ entry ∈ p.entries.map fun (r, c) =>
      ((r * p.ncol + c) / ncol, (r * p.ncol + c) % ncol), entry.1 < nrow ∧ entry.2 < ncol := by
    intro entry hmoved
    obtain ⟨⟨r, c⟩, hmem, rfl⟩ := List.mem_map.1 hmoved
    have hlt := hposition _ hmem
    have hpos : 0 < ncol := Nat.pos_of_ne_zero fun hzero => by simp [hzero] at hlt
    exact ⟨Nat.div_lt_of_lt_mul hlt, Nat.mod_lt _ hpos⟩
  obtain ⟨hwf, hentries⟩ := hmajor.entries_ofSortedEntries hinside
  rw [hq]
  exact ⟨hwf, rfl, hentries⟩

theorem arranges_reshape
    {p q : Pattern} (hp : p.WellFormed) {nrow ncol : Nat} (h : p.reshape nrow ncol = .ok q) :
    Arranges [p] q (Graph.fromOnly (List.range q.nnz)) (.reshaped p.ncol ncol) := by
  obtain ⟨hq, hncol, hentries⟩ := entries_reshape hp h
  refine arranges_fromOnly hq fun r _ c hc j => ?_
  rw [hncol] at hc
  have hnumber : ((r, c), j) ∈ q.entries.zip (List.range q.nnz) ↔ q.entries[j]? = some (r, c) := by
    rw [mem_zip_iff, ← length_entries]
    simp only [List.getElem?_eq_some_iff, List.length_range, List.getElem_range]
    grind
  rw [hnumber, hentries, List.getElem?_map, Option.map_eq_some_iff]
  constructor
  · rintro ⟨⟨r', c'⟩, hj, heq⟩
    obtain ⟨rfl, rfl⟩ := Prod.mk.inj heq
    have hc' : c' < p.ncol := hp.lt_ncol (mem_entries_iff.1 (List.mem_of_getElem? hj))
    rw [Nat.div_add_mod', position_div hc', position_mod hc', hj]
  · intro hj
    refine ⟨_, hj, ?_⟩
    simp only [Nat.div_add_mod', position_div hc, position_mod hc]

end Pattern

end SparseDiff
