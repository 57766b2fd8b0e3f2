import SparseDiff.Pattern.Algebra
import Mathlib

/-!
# The numbering of nonzeros

Nonzeros are numbered row by row. `getElem?_entries_iff` computes the entry behind a number,
`nzIndex?_eq_some_iff` says that in a well-formed pattern the look-up of an entry inverts it,
and `nonzeroMap_eq_map` that the map between two patterns of one shape is this look-up, done
for every entry of the first pattern in the second.
-/

namespace SparseDiff

theorem total_eq_sum
    (ns : List Nat) :
    total ns = ns.sum := by
  induction ns with
  | nil => rfl
  | cons n ns ih =>
      rw [List.sum_cons, ← ih]
      rfl

@[simp] theorem total_nil : total [] = 0 := rfl

@[simp] theorem total_cons
    (n : Nat) (ns : List Nat) :
    total (n :: ns) = n + total ns := rfl

@[simp] theorem length_runningTotals
    (start : Nat) (ns : List Nat) :
    (runningTotals start ns).length = ns.length + 1 := by
  induction ns generalizing start with
  | nil => rfl
  | cons n ns ih => simp [runningTotals, ih]

/-- The running total before item `i` is the sum of the items before it. -/
theorem getElem?_runningTotals
    (start : Nat) (ns : List Nat)
    {i : Nat} (hi : i ≤ ns.length) :
    (runningTotals start ns)[i]? = some (start + total (ns.take i)) := by
  induction ns generalizing start i with
  | nil =>
      have h0 : i = 0 := by simpa using hi
      subst h0
      rfl
  | cons n ns ih =>
      cases i with
      | zero => rfl
      | succ i =>
          have hi' : i ≤ ns.length := by simpa using hi
          simp [runningTotals, ih (start + n) hi', Nat.add_assoc]

namespace Pattern

/-- Entries of a list of rows, the first of which is row `r`. -/
def entriesFrom (r : Nat) (rows : List (List Nat)) : List (Nat × Nat) :=
  (rows.zipIdx r).flatMap fun (cols, r) => cols.map fun c => (r, c)

@[simp] theorem entriesFrom_nil
    (r : Nat) :
    entriesFrom r [] = [] := rfl

@[simp] theorem entriesFrom_cons
    (r : Nat) (cols : List Nat) (rows : List (List Nat)) :
    entriesFrom r (cols :: rows) = (cols.map fun c => (r, c)) ++ entriesFrom (r + 1) rows := by
  simp [entriesFrom, List.zipIdx_cons]

theorem entries_eq_entriesFrom
    (p : Pattern) :
    p.entries = entriesFrom 0 p.rows.toList := rfl

theorem length_entriesFrom
    (r : Nat) (rows : List (List Nat)) :
    (entriesFrom r rows).length = total (rows.map List.length) := by
  induction rows generalizing r with
  | nil => rfl
  | cons cols rows ih => simp [ih]

@[simp] theorem length_entries
    (p : Pattern) :
    p.entries.length = p.nnz :=
  length_entriesFrom 0 p.rows.toList

/-- Number `k` of a list of rows belongs to column `j` of row `i`. -/
theorem getElem?_entriesFrom_iff
    {rows : List (List Nat)} {start k r c : Nat} :
    (entriesFrom start rows)[k]? = some (r, c) ↔
      ∃ i j cols, r = start + i ∧ rows[i]? = some cols ∧ cols[j]? = some c ∧
        k = total ((rows.take i).map List.length) + j := by
  induction rows generalizing start k with
  | nil => simp
  | cons cols rows ih =>
      rw [entriesFrom_cons]
      by_cases hk : k < cols.length
      · rw [List.getElem?_append_left (by simpa using hk), List.getElem?_map]
        constructor
        · intro h
          obtain ⟨c', hc', heq⟩ := Option.map_eq_some_iff.1 h
          cases heq
          exact ⟨0, k, cols, rfl, rfl, hc', by simp⟩
        · rintro ⟨i, j, cols', rfl, hcols, hc, rfl⟩
          cases i with
          | zero =>
              have heq : cols = cols' := by simpa using hcols
              subst heq
              simp [hc]
          | succ i =>
              simp at hk
              omega
      · have hk' : ((cols.map fun c => (start, c)).length) ≤ k := by simpa using hk
        rw [List.getElem?_append_right hk', ih, List.length_map]
        constructor
        · rintro ⟨i, j, cols', rfl, hcols, hc, hj⟩
          refine ⟨i + 1, j, cols', by omega, by simpa using hcols, hc, ?_⟩
          simp only [List.take_succ_cons, List.map_cons, total_cons]
          omega
        · rintro ⟨i, j, cols', rfl, hcols, hc, rfl⟩
          cases i with
          | zero =>
              have heq : cols = cols' := by simpa using hcols
              subst heq
              have hj := (List.getElem?_eq_some_iff.1 hc).1
              simp at hk
              omega
          | succ i =>
              refine ⟨i, j, cols', by omega, by simpa using hcols, hc, ?_⟩
              simp only [List.take_succ_cons, List.map_cons, total_cons]
              omega

theorem row_eq_of_getElem?
    {p : Pattern} {r : Nat} {cols : List Nat}
    (h : p.rows.toList[r]? = some cols) :
    p.row r = cols := by
  have h' : p.rows[r]? = some cols := by simpa using h
  simp [row, Array.getD_eq_getD_getElem?, h']

/-- The nonzero with number `k` lies at column `j` of row `r`, counted from the row's start. -/
theorem getElem?_entries_iff
    {p : Pattern} {k r c : Nat} :
    p.entries[k]? = some (r, c) ↔
      ∃ j, (p.row r)[j]? = some c ∧ k = p.rowStart r + j := by
  rw [entries_eq_entriesFrom, getElem?_entriesFrom_iff]
  constructor
  · rintro ⟨i, j, cols, hr, hcols, hc, hk⟩
    have hri : r = i := by omega
    subst hri
    refine ⟨j, ?_, hk⟩
    rw [row_eq_of_getElem? hcols]
    exact hc
  · rintro ⟨j, hc, hk⟩
    have hr : r < p.rows.size := by
      rcases Nat.lt_or_ge r p.rows.size with hr | hr
      · exact hr
      · simp [row, Array.getD_eq_getD_getElem?, Array.getElem?_eq_none hr] at hc
    refine ⟨r, j, p.row r, by omega, ?_, hc, hk⟩
    simp [row, Array.getD_eq_getD_getElem?, hr]

theorem lt_nrow_of_mem_row
    {p : Pattern} {r c : Nat}
    (h : c ∈ p.row r) :
    r < p.nrow := by
  rcases Nat.lt_or_ge r p.nrow with hr | hr
  · exact hr
  · have hnone : p.rows[r]? = none := Array.getElem?_eq_none hr
    simp [row, Array.getD_eq_getD_getElem?, hnone] at h

theorem mem_entries_iff
    {p : Pattern} {r c : Nat} :
    (r, c) ∈ p.entries ↔ c ∈ p.row r := by
  rw [List.mem_iff_getElem?]
  simp only [getElem?_entries_iff]
  constructor
  · rintro ⟨k, j, hc, _⟩
    exact List.mem_of_getElem? hc
  · intro h
    obtain ⟨j, hj⟩ := List.mem_iff_getElem?.1 h
    exact ⟨_, j, hj, rfl⟩

/-- In an increasing list every item has one place. -/
theorem idxOf?_eq_some_iff_of_increasing
    {cols : List Nat} (h : cols.Pairwise (· < ·))
    {c j : Nat} :
    cols.idxOf? c = some j ↔ cols[j]? = some c := by
  rw [List.idxOf?_eq_some_iff, List.getElem?_eq_some_iff]
  constructor
  · rintro ⟨hj, hc, _⟩
    exact ⟨hj, hc⟩
  · rintro ⟨hj, hc⟩
    refine ⟨hj, hc, fun i hi heq => ?_⟩
    have hlt := List.pairwise_iff_getElem.1 h i j (by omega) hj hi
    omega

theorem WellFormed.row_increasing
    {p : Pattern} (h : p.WellFormed) (r : Nat) :
    (p.row r).Pairwise (· < ·) := by
  rcases Nat.lt_or_ge r p.rows.size with hr | hr
  · refine h.increasing _ ?_
    simp [row, Array.getD_eq_getD_getElem?, hr]
  · simp [row, Array.getD_eq_getD_getElem?, Array.getElem?_eq_none hr]

theorem WellFormed.lt_ncol
    {p : Pattern} (h : p.WellFormed) {r c : Nat}
    (hc : c ∈ p.row r) :
    c < p.ncol := by
  have hr := lt_nrow_of_mem_row hc
  refine h.bounded (p.row r) ?_ c hc
  have hr' : r < p.rows.size := hr
  simp [row, Array.getD_eq_getD_getElem?, hr']

/-- Rows that increase below the width make a well-formed pattern. -/
theorem wellFormed_of_rows
    {p : Pattern}
    (h : ∀ r < p.nrow, (p.row r).Pairwise (· < ·) ∧ ∀ c ∈ p.row r, c < p.ncol) :
    p.WellFormed := by
  have hrow : ∀ cols ∈ p.rows.toList, ∃ r < p.nrow, p.row r = cols := fun cols hcols => by
    obtain ⟨r, hr⟩ := List.mem_iff_getElem?.1 hcols
    have hlt := (List.getElem?_eq_some_iff.1 hr).1
    exact ⟨r, by simpa [nrow] using hlt, row_eq_of_getElem? hr⟩
  refine ⟨fun cols hcols => ?_, fun cols hcols => ?_⟩
  · obtain ⟨r, hr, rfl⟩ := hrow cols hcols
    exact (h r hr).1
  · obtain ⟨r, hr, rfl⟩ := hrow cols hcols
    exact (h r hr).2

/-- A well-formed pattern is known by its size and its entries. -/
theorem WellFormed.eq_of_mem_iff
    {p q : Pattern} (hp : p.WellFormed) (hq : q.WellFormed) (hnrow : p.nrow = q.nrow)
    (hncol : p.ncol = q.ncol) (h : ∀ r < p.nrow, ∀ c, c ∈ p.row r ↔ c ∈ q.row r) :
    p = q := by
  have hrows : p.rows = q.rows := by
    refine Array.ext hnrow fun r hr hr' => ?_
    have hrow := (hp.row_increasing r).eq_of_mem_iff (hq.row_increasing r) (h r hr)
    simpa [row, Array.getD_eq_getD_getElem?, hr, hr'] using hrow
  cases p
  cases q
  cases hncol
  cases hrows
  rfl

/-- Looking up an entry inverts the numbering. -/
theorem nzIndex?_eq_some_iff
    {p : Pattern} (h : p.WellFormed) {r c k : Nat} :
    p.nzIndex? r c = some k ↔ p.entries[k]? = some (r, c) := by
  rw [getElem?_entries_iff]
  constructor
  · intro hk
    unfold nzIndex? at hk
    split at hk
    · obtain ⟨j, hj, rfl⟩ := Option.map_eq_some_iff.1 hk
      exact ⟨j, (idxOf?_eq_some_iff_of_increasing (h.row_increasing r)).1 hj, rfl⟩
    · cases hk
  · rintro ⟨j, hj, rfl⟩
    have hmem : c ∈ p.row r := List.mem_of_getElem? hj
    have hin : r < p.nrow ∧ c < p.ncol := ⟨lt_nrow_of_mem_row hmem, h.lt_ncol hmem⟩
    unfold nzIndex?
    rw [if_pos hin, (idxOf?_eq_some_iff_of_increasing (h.row_increasing r)).2 hj]
    rfl

theorem nzIndex?_lt_nnz
    {p : Pattern} (h : p.WellFormed) {r c k : Nat}
    (hk : p.nzIndex? r c = some k) :
    k < p.nnz := by
  have hget := (nzIndex?_eq_some_iff h).1 hk
  have hlt := (List.getElem?_eq_some_iff.1 hget).1
  simpa using hlt

/-- Below `c` an increasing list holds what comes before the place of `c`. -/
theorem idxOf?_eq_of_dropWhile
    {others : List Nat} (h : others.Pairwise (· < ·)) (c : Nat) :
    others.idxOf? c =
      if (others.dropWhile (· < c)).head? = some c then
        some (others.takeWhile (· < c)).length
      else
        none := by
  induction others with
  | nil => rfl
  | cons x others ih =>
      have ih := ih (List.Pairwise.of_cons h)
      rw [List.idxOf?_cons]
      by_cases hlt : x < c
      · have hne : (x == c) = false := by simp; omega
        simp only [hne, List.dropWhile_cons, List.takeWhile_cons, hlt, decide_true, if_true,
          Bool.false_eq_true, if_false, List.length_cons, ih]
        split <;> simp
      · by_cases heq : x = c
        · subst heq
          simp
        · have hne : (x == c) = false := by simp [heq]
          have hmem : c ∉ others := by
            intro hc
            have := List.rel_of_pairwise_cons h hc
            omega
          have hnone : others.idxOf? c = none := List.idxOf?_eq_none_iff.2 hmem
          simp [hne, hlt, heq, hnone]

/-- Past the items below `c`, larger items keep their order and lose the place count. -/
theorem idxOf?_eq_map_dropWhile
    (others : List Nat) {b c : Nat} (hbc : b < c) :
    others.idxOf? c =
      ((others.dropWhile (· < b)).idxOf? c).map
        ((others.takeWhile (· < b)).length + ·) := by
  induction others with
  | nil => rfl
  | cons x others ih =>
      by_cases hlt : x < b
      · have hne : (x == c) = false := by simp; omega
        rw [List.idxOf?_cons, hne, ih]
        simp only [List.dropWhile_cons, List.takeWhile_cons, hlt, decide_true, if_true,
          Bool.false_eq_true, if_false, List.length_cons, Option.map_map]
        congr 1
        funext i
        simp only [Function.comp_apply]
        omega
      · simp [hlt]

/-- Aligning two increasing rows looks every column of the first up in the second. -/
theorem alignRow_eq_map
    {cols others : List Nat} (hcols : cols.Pairwise (· < ·))
    (hothers : others.Pairwise (· < ·)) (start : Nat) :
    alignRow start cols others =
      cols.map fun c => (others.idxOf? c).map (start + ·) := by
  induction cols generalizing others start with
  | nil => rfl
  | cons c cols ih =>
      have hrest : (others.dropWhile (· < c)).Pairwise (· < ·) :=
        hothers.sublist (List.dropWhile_sublist _)
      rw [alignRow, List.map_cons, ih (List.Pairwise.of_cons hcols) hrest]
      congr 1
      · rw [idxOf?_eq_of_dropWhile hothers c]
        split <;> simp
      · refine List.map_congr_left fun d hd => ?_
        have hcd : c < d := List.rel_of_pairwise_cons hcols hd
        rw [idxOf?_eq_map_dropWhile others hcd, Option.map_map]
        congr 1
        funext i
        simp only [Function.comp_apply]
        omega

theorem length_alignRow
    (start : Nat) (cols others : List Nat) :
    (alignRow start cols others).length = cols.length := by
  induction cols generalizing start others with
  | nil => rfl
  | cons c cols ih => simp [alignRow, ih]

/-- Aligned numbers stay inside the other row. -/
theorem lt_of_mem_alignRow
    {start : Nat} {cols others : List Nat} {k : Nat}
    (h : some k ∈ alignRow start cols others) :
    k < start + others.length := by
  induction cols generalizing start others with
  | nil => simp [alignRow] at h
  | cons c cols ih =>
      have hlen : (others.takeWhile (· < c)).length + (others.dropWhile (· < c)).length =
          others.length := by
        rw [← List.length_append, List.takeWhile_append_dropWhile]
      rw [alignRow, List.mem_cons] at h
      rcases h with h | h
      · split at h
        · next hhead =>
            have hne : (others.dropWhile (· < c)) ≠ [] := by
              intro hnil
              simp [hnil] at hhead
            have hpos := List.length_pos_iff.2 hne
            cases h
            omega
        · cases h
      · have := ih h
        omega

theorem rowStart_eq_rowPtr
    (p : Pattern) {r : Nat} (hr : r ≤ p.nrow) :
    p.rowPtr[r]? = some (p.rowStart r) := by
  have hlen : r ≤ (p.rows.toList.map List.length).length := by
    simpa [nrow] using hr
  rw [rowPtr, getElem?_runningTotals 0 _ hlen]
  simp [rowStart, List.map_take]

/-- The aligned rows of two patterns, row by row. -/
theorem nonzeroMap_eq_flatMap
    {p q : Pattern} (h : p.nrow = q.nrow) :
    p.nonzeroMap q =
      (p.rows.toList.zipIdx).flatMap fun (cols, r) => alignRow (q.rowStart r) cols (q.row r) := by
  have hzip : (p.rows.toList.zip q.rows.toList).zip q.rowPtr =
      p.rows.toList.zipIdx.map fun (cols, r) => ((cols, q.row r), q.rowStart r) := by
    apply List.ext_getElem?
    intro r
    rcases Nat.lt_or_ge r p.nrow with hr | hr
    · have hp : r < p.rows.size := hr
      have hq : r < q.rows.size := by
        have : p.rows.size = q.rows.size := h
        omega
      have hptr := rowStart_eq_rowPtr q (r := r) (by unfold nrow; omega)
      have hrow : q.row r = q.rows[r] := by
        simp [row, Array.getD_eq_getD_getElem?, hq]
      have hrows : (p.rows.toList.zip q.rows.toList)[r]? = some (p.rows[r], q.rows[r]) :=
        List.getElem?_zip_eq_some.2 ⟨by simp [hp], by simp [hq]⟩
      have hall : ((p.rows.toList.zip q.rows.toList).zip q.rowPtr)[r]? =
          some ((p.rows[r], q.rows[r]), q.rowStart r) :=
        List.getElem?_zip_eq_some.2 ⟨hrows, hptr⟩
      rw [hall]
      simp [hp, hrow]
    · have hp : p.rows.toList.length ≤ r := by simpa [nrow] using hr
      rw [List.getElem?_eq_none, List.getElem?_eq_none]
      · simpa using hp
      · simp only [List.length_zip]
        omega
  rw [nonzeroMap, hzip, List.flatMap_map]

/-- The map between two patterns looks every entry of the first up in the second. -/
theorem nonzeroMap_eq_map
    {p q : Pattern} (hp : p.WellFormed) (hq : q.WellFormed) (hshape : p.shape = q.shape) :
    p.nonzeroMap q = p.entries.map fun (r, c) => q.nzIndex? r c := by
  have hrow : p.nrow = q.nrow := congrArg Prod.fst hshape
  have hcol : p.ncol = q.ncol := congrArg Prod.snd hshape
  rw [nonzeroMap_eq_flatMap hrow, entries, List.map_flatMap]
  refine List.flatMap_congr fun (cols, r) hmem => ?_
  have hget := List.mem_zipIdx_iff_getElem?.1 hmem
  have hcols : p.row r = cols := row_eq_of_getElem? hget
  have hr : r < q.nrow := by
    have hlt := (List.getElem?_eq_some_iff.1 hget).1
    rw [← hrow]
    simpa [nrow] using hlt
  have hinc : cols.Pairwise (· < ·) := hcols ▸ hp.row_increasing r
  simp only [List.map_map]
  rw [alignRow_eq_map hinc (hq.row_increasing r)]
  refine List.map_congr_left fun c hc => ?_
  have hc' : c < q.ncol := by
    rw [← hcol]
    exact hp.lt_ncol (r := r) (hcols ▸ hc)
  simp [nzIndex?, hr, hc']

theorem length_nonzeroMap
    {p q : Pattern} (h : p.nrow = q.nrow) :
    (p.nonzeroMap q).length = p.nnz := by
  rw [nonzeroMap_eq_flatMap h, List.length_flatMap, nnz, total_eq_sum]
  congr 1
  have hlen : ∀ x : List Nat × Nat,
      (alignRow (q.rowStart x.2) x.1 (q.row x.2)).length = x.1.length :=
    fun x => length_alignRow _ _ _
  simp only [hlen]
  rw [← List.zipIdx_map_fst 0 p.rows.toList, List.map_map]
  simp [Function.comp_def]

theorem rowStart_add_length_le
    {p : Pattern} {r : Nat} (hr : r < p.nrow) :
    p.rowStart r + (p.row r).length ≤ p.nnz := by
  have hr' : r < p.rows.toList.length := by simpa [nrow] using hr
  have hrow : p.row r = p.rows.toList[r] := by
    exact row_eq_of_getElem? (List.getElem?_eq_getElem hr')
  have hsplit : p.rows.toList =
      p.rows.toList.take r ++ p.rows.toList[r] :: p.rows.toList.drop (r + 1) := by
    rw [List.getElem_cons_drop, List.take_append_drop]
  unfold nnz rowStart
  rw [total_eq_sum, total_eq_sum, hrow]
  conv_rhs => rw [hsplit]
  simp only [List.map_append, List.map_cons, List.sum_append, List.sum_cons]
  omega

/-- Mapped numbers are numbers of the other pattern. -/
theorem lt_of_mem_nonzeroMap
    {p q : Pattern} (h : p.nrow = q.nrow) {k : Nat}
    (hk : some k ∈ p.nonzeroMap q) :
    k < q.nnz := by
  rw [nonzeroMap_eq_flatMap h, List.mem_flatMap] at hk
  obtain ⟨⟨cols, r⟩, hmem, hk⟩ := hk
  have hget := List.mem_zipIdx_iff_getElem?.1 hmem
  have hr : r < q.nrow := by
    have hlt := (List.getElem?_eq_some_iff.1 hget).1
    rw [← h]
    simpa [nrow] using hlt
  have hlt := lt_of_mem_alignRow hk
  have hle := rowStart_add_length_le hr
  omega

end Pattern

end SparseDiff
