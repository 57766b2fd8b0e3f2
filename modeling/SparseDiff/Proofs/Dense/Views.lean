import SparseDiff.Proofs.Dense.Matrices
import SparseDiff.Proofs.Memory

/-!
# Views of a sparse matrix

An entry of a sparse matrix can be looked up, or read from one of its dense copies. The look-up
halves a window of a row (`Pattern.searchIndex?_eq`); the copies overwrite zeros with the triplets,
row by row or column by column. All of them hold what is stored at the entry: the value of its only
triplet, or zero (`SparseMatrix.Views`).
-/

namespace SparseDiff

namespace Pattern

/--
In `size` places from `base` on, the last one whose number is not past `c`, unless all numbers
are. Half of the places are left out at a time.
-/
def bisect (cols : List Nat) (c base size : Nat) : Nat :=
  if 1 < size then
    let mid := base + size / 2
    bisect cols c (if cols.getD mid 0 ≤ c then mid else base) (size - size / 2)
  else
    base
termination_by size

/-- Place of `c` in an increasing list. -/
def binarySearch? (cols : List Nat) (c : Nat) : Option Nat :=
  let k := bisect cols c 0 cols.length
  if cols[k]? = some c then some k else none

/-- `Pattern.nzIndex?` by a binary search in the row and the pointer to its start. -/
def searchIndex? (p : Pattern) (r c : Nat) : Option Nat :=
  if r < p.nrow ∧ c < p.ncol then do
    let k ← binarySearch? (p.row r) c
    let start ← p.rowPtr[r]?
    return start + k
  else
    none

section Search

variable {cols : List Nat} (h : cols.Pairwise (· < ·)) {c k : Nat}

include h

/-- The place of `c` stays in the window. -/
theorem bisect_eq
    (hk : cols[k]? = some c) {base size : Nat} (hbase : base ≤ k) (hlt : k < base + size)
    (hsize : base + size ≤ cols.length) :
    bisect cols c base size = k := by
  have hget := List.pairwise_iff_getElem.1 h
  obtain ⟨hklt, rfl⟩ := List.getElem?_eq_some_iff.1 hk
  fun_induction bisect cols cols[k] base size with
  | case1 base size hone mid ih =>
      have hmid : mid < cols.length := by omega
      have hside : cols.getD mid 0 ≤ cols[k] ↔ mid ≤ k := by
        rw [List.getD_eq_getElem?_getD, List.getElem?_eq_getElem hmid, Option.getD_some]
        constructor
        · intro hle
          by_contra hpast
          have := hget k mid hklt hmid (by omega)
          omega
        · intro hle
          rcases Nat.lt_or_eq_of_le hle with hbefore | rfl
          · exact (hget mid k hmid hklt hbefore).le
          · exact Nat.le_refl _
      refine ih ?_ ?_ ?_
      all_goals
        split
        all_goals omega
  | case2 base size hone => omega

theorem binarySearch?_eq_some_iff :
    binarySearch? cols c = some k ↔ cols[k]? = some c := by
  simp only [binarySearch?]
  constructor
  · intro hfound
    split at hfound
    · next hget =>
        cases hfound
        exact hget
    · cases hfound
  · intro hk
    have hlt := (List.getElem?_eq_some_iff.1 hk).1
    rw [bisect_eq h hk (Nat.zero_le k) (by omega) (by omega), if_pos hk]

end Search

/-- In a well-formed pattern the search finds what a look-up through the whole row finds. -/
theorem searchIndex?_eq
    {p : Pattern} (hp : p.WellFormed) (r c : Nat) :
    p.searchIndex? r c = p.nzIndex? r c := by
  have hrow := hp.row_increasing r
  have hsearch : binarySearch? (p.row r) c = (p.row r).idxOf? c := by
    refine Option.ext fun k => ?_
    rw [binarySearch?_eq_some_iff hrow, idxOf?_eq_some_iff_of_increasing hrow]
  unfold searchIndex? nzIndex?
  rw [hsearch]
  split
  · next hin =>
      have hstart : p.rowPtr[r]? = some (p.rowStart r) := rowStart_eq_rowPtr p hin.1.le
      rw [hstart]
      cases (p.row r).idxOf? c <;> rfl
  · rfl

end Pattern

namespace SparseMatrix

variable {F : Type} [Zero F]

/-- `v` is the value of the triplets at entry `(r, c)`, and zero if there are none. -/
def StoresAt (m : SparseMatrix F) (r c : Nat) (v : F) : Prop :=
  (∀ v', (r, c, v') ∈ m.triplets → v = v') ∧ ((∀ v', (r, c, v') ∉ m.triplets) → v = 0)

theorem StoresAt.unique
    {m : SparseMatrix F} {r c : Nat} {v v' : F} (h : m.StoresAt r c v) (h' : m.StoresAt r c v') :
    v = v' := by
  by_cases hnone : ∀ w, (r, c, w) ∉ m.triplets
  · rw [h.2 hnone, h'.2 hnone]
  · obtain ⟨w, hw⟩ := not_forall_not.1 hnone
    rw [h.1 w hw, h'.1 w hw]

/--
The views of a sparse matrix agree. Rows and columns of a dense copy are counted as in the
pattern; every entry has one value in all views.
-/
structure Views (m : SparseMatrix F) : Prop where
  /-- No entry has two triplets. -/
  nodup : (m.triplets.map fun (r, c, _) => (r, c)).Nodup
  inside : ∀ r c v, (r, c, v) ∈ m.triplets → r < m.pattern.nrow ∧ c < m.pattern.ncol
  toDense : Sized m.pattern.nrow m.pattern.ncol m.toDense
  ofSparse : (DenseMatrix.ofSparse m).Sized ∧ (DenseMatrix.ofSparse m).shape = m.pattern.shape
  ofRows : DenseMatrix.ofRows m = DenseMatrix.ofSparse m
  entry : ∀ r < m.pattern.nrow, ∀ c < m.pattern.ncol, ∃ v, m.StoresAt r c v ∧
    m.get? r c = some v ∧ (m.toDense[r]?.bind fun row => row[c]?) = some v ∧
    (DenseMatrix.ofSparse m).get? r c = some v ∧ (DenseMatrix.ofRows m).get? r c = some v

variable {p : Pattern} (hp : p.WellFormed) {values : Array F}

include hp

theorem storesAt_of_nzIndex?
    {r c k : Nat} {v : F} (hk : p.nzIndex? r c = some k) (hv : values[k]? = some v) :
    (SparseMatrix.mk p values).StoresAt r c v := by
  have hentry := (Pattern.nzIndex?_eq_some_iff hp).1 hk
  refine ⟨fun v' hv' => ?_, fun hnone => ?_⟩
  · obtain ⟨k', hk', hv'⟩ := DenseMatrix.mem_triplets_iff.1 hv'
    rw [(Pattern.nzIndex?_eq_some_iff hp).2 hk'] at hk
    cases hk
    exact Option.some.inj (hv.symm.trans hv')
  · exact absurd (DenseMatrix.mem_triplets_iff.2 ⟨k, hentry, hv⟩) (hnone v)

theorem storesAt_zero
    {r c : Nat} (h : p.nzIndex? r c = none) :
    (SparseMatrix.mk p values).StoresAt r c 0 := by
  refine ⟨fun v hv => ?_, fun _ => rfl⟩
  obtain ⟨k, hk, -⟩ := DenseMatrix.mem_triplets_iff.1 hv
  rw [(Pattern.nzIndex?_eq_some_iff hp).2 hk] at h
  cases h

theorem exists_get?
    (hsize : values.size = p.nnz) {r c : Nat} (hr : r < p.nrow) (hc : c < p.ncol) :
    ∃ v, (SparseMatrix.mk p values).get? r c = some v ∧
      (SparseMatrix.mk p values).StoresAt r c v := by
  unfold get?
  rw [if_pos ⟨hr, hc⟩]
  cases hindex : p.nzIndex? r c with
  | none => exact ⟨0, rfl, storesAt_zero hp hindex⟩
  | some k =>
      have hlt := Pattern.nzIndex?_lt_nnz hp hindex
      have hv : values[k]? = some values[k] := Array.getElem?_eq_getElem (by omega)
      exact ⟨_, hv, storesAt_of_nzIndex? hp hindex hv⟩

/-- Entry `(r, c)` of an array of rows. -/
def rowsEntry (rows : Array (Array F)) (r c : Nat) : F := (rows.getD r #[]).getD c 0

omit hp in
theorem rowsEntry_modify
    {nrow ncol : Nat} {rows : Array (Array F)} (hrows : Sized nrow ncol rows) {r₀ c₀ : Nat}
    (hr : r₀ < nrow) (hc : c₀ < ncol) (v : F) (r c : Nat) :
    rowsEntry (rows.modify r₀ (·.setIfInBounds c₀ v)) r c =
      if (r, c) = (r₀, c₀) then v else rowsEntry rows r c := by
  unfold rowsEntry
  by_cases hrow : r = r₀
  · subst hrow
    rw [getD_modify_array _ (by rw [hrows.1]; exact hr)]
    by_cases hcol : c = c₀
    · subst hcol
      rw [if_pos rfl, getD_setIfInBounds_self (by rw [hrows.size_getD hr]; exact hc)]
    · rw [getD_setIfInBounds_ne hcol, if_neg (by simp [hcol])]
  · rw [getD_modify_array_ne _ hrow, if_neg (by simp [hrow])]

/-- The dense rows have the shape of the pattern and hold what is stored. -/
theorem storesAt_toDense
    (values : Array F) :
    Sized p.nrow p.ncol (SparseMatrix.mk p values).toDense ∧
      ∀ r c, (SparseMatrix.mk p values).StoresAt r c
        (rowsEntry (SparseMatrix.mk p values).toDense r c) := by
  obtain ⟨hnodup, hin⟩ := DenseMatrix.triplets_spec hp values
  have hzeros := sized_replicate p.nrow (Array.replicate p.ncol (0 : F))
  rw [Array.size_replicate] at hzeros
  have hwrite : ∀ r₀ c₀ v, (r₀, c₀, v) ∈ (SparseMatrix.mk p values).triplets →
      ∀ rows : Array (Array F), Sized p.nrow p.ncol rows →
        Sized p.nrow p.ncol (rows.modify r₀ (·.setIfInBounds c₀ v)) ∧
        ∀ r c, rowsEntry (rows.modify r₀ (·.setIfInBounds c₀ v)) r c =
          if (r, c) = (r₀, c₀) then v else rowsEntry rows r c := by
    intro r₀ c₀ v ht rows hrows
    obtain ⟨hr, hc⟩ := hin r₀ c₀ v ht
    exact ⟨hrows.modify r₀ fun w => Array.size_setIfInBounds,
      rowsEntry_modify hrows hr hc v⟩
  obtain ⟨hsized, hentries⟩ := DenseMatrix.read_foldl_write (g := rowsEntry)
    (w := fun rows (r, c, v) => rows.modify r (·.setIfInBounds c v))
    (I := Sized p.nrow p.ncol) hnodup hwrite hzeros
  refine ⟨hsized, fun r c => ⟨(hentries r c).1, fun hnone => ((hentries r c).2 hnone).trans ?_⟩⟩
  simp only [rowsEntry, Array.getD_eq_getD_getElem?, Array.getElem?_replicate]
  grind

/-- Every view of a well-formed pattern with a value for every nonzero shows the same. -/
theorem views_of_wellFormed
    (hsize : values.size = p.nnz) :
    (SparseMatrix.mk p values).Views := by
  obtain ⟨hnodup, hin⟩ := DenseMatrix.triplets_spec hp values
  obtain ⟨hrows, hrowEntry⟩ := storesAt_toDense hp values
  obtain ⟨hsized, hshape, hentry⟩ := DenseMatrix.entry_ofSparse hp values
  have hstored : ∀ r c, rowsEntry (SparseMatrix.mk p values).toDense r c =
      (DenseMatrix.ofSparse ⟨p, values⟩).entry r c := fun r c =>
    (hrowEntry r c).unique (hentry r c)
  have hnrow : (DenseMatrix.ofSparse ⟨p, values⟩).nrow = p.nrow := congrArg Prod.fst hshape
  have hncol : (DenseMatrix.ofSparse ⟨p, values⟩).ncol = p.ncol := congrArg Prod.snd hshape
  have hsame : DenseMatrix.ofRows ⟨p, values⟩ = DenseMatrix.ofSparse ⟨p, values⟩ := by
    refine DenseMatrix.ext_entry (DenseMatrix.sized_tabulate ..) hsized hshape.symm
      fun r hr c hc => ?_
    exact (DenseMatrix.entry_tabulate _ hr hc).trans (hstored r c)
  refine ⟨hnodup, hin, hrows, ⟨hsized, hshape⟩, hsame, fun r hr c hc => ?_⟩
  obtain ⟨v, hv, hstores⟩ := exists_get? hp hsize hr hc
  have hdense : (DenseMatrix.ofSparse ⟨p, values⟩).get? r c = some v := by
    rw [hsized.get?_eq_entry (hnrow ▸ hr) (hncol ▸ hc), StoresAt.unique (hentry r c) hstores]
  refine ⟨v, hstores, hv, ?_, hdense, hsame ▸ hdense⟩
  obtain ⟨row, hrow⟩ : ∃ row, (SparseMatrix.mk p values).toDense[r]? = some row :=
    ⟨_, Array.getElem?_eq_getElem (by rw [hrows.1]; exact hr)⟩
  have hlt : c < row.size := by
    rw [hrows.2 r row hrow]
    exact hc
  have hread := (hrowEntry r c).unique hstores
  simp only [rowsEntry, Array.getD_eq_getD_getElem?, hrow, Option.getD_some,
    Array.getElem?_eq_getElem hlt] at hread
  rw [hrow, Option.bind_some, Array.getElem?_eq_getElem hlt, hread]

end SparseMatrix

end SparseDiff
