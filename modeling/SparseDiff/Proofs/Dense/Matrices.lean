import SparseDiff.Dense
import SparseDiff.Proofs.Pattern.Filling
import SparseDiff.Proofs.Pattern.Movement

/-!
# Dense matrices by their entries

A dense matrix with one stored number per entry is known by its shape and its entries
(`ext_entry`). Tabulated matrices and sparse matrices filled with zeros are such matrices. The
operations of expressions are defined here on whole matrices, with no regard to zeros.
-/

namespace SparseDiff

namespace DenseMatrix

variable {F : Type}

/-- One number for every entry. -/
def Sized (m : DenseMatrix F) : Prop := m.entries.size = m.nrow * m.ncol

def shape (m : DenseMatrix F) : Nat × Nat := (m.nrow, m.ncol)

/-- Entry `(r, c)`; zero outside the matrix. -/
def entry [Zero F] (m : DenseMatrix F) (r c : Nat) : F := (m.get? r c).getD 0

theorem get?_of_not_lt
    {m : DenseMatrix F} {r c : Nat} (h : ¬(r < m.nrow ∧ c < m.ncol)) :
    m.get? r c = none :=
  if_neg h

theorem Sized.get?_eq_entry
    [Zero F] {m : DenseMatrix F} (hm : m.Sized) {r c : Nat} (hr : r < m.nrow) (hc : c < m.ncol) :
    m.get? r c = some (m.entry r c) := by
  have hlt : c * m.nrow + r < m.entries.size := by
    rw [hm, Nat.mul_comm m.nrow]
    exact position_lt hr (.inl hc) (d := 0)
  simp [entry, get?, hr, hc, hlt]

/-- Matrices of one shape with the same entries are equal. -/
theorem ext_entry
    [Zero F] {m m' : DenseMatrix F} (hm : m.Sized) (hm' : m'.Sized) (hshape : m.shape = m'.shape)
    (h : ∀ r < m.nrow, ∀ c < m.ncol, m.entry r c = m'.entry r c) :
    m = m' := by
  have hnrow : m.nrow = m'.nrow := congrArg Prod.fst hshape
  have hncol : m.ncol = m'.ncol := congrArg Prod.snd hshape
  have hentries : m.entries = m'.entries := by
    refine Array.ext (by rw [hm, hm', hnrow, hncol]) fun i hi hi' => ?_
    have hlt : i < m.nrow * m.ncol := hm ▸ hi
    have hpos : 0 < m.nrow := Nat.pos_of_ne_zero fun hzero => by simp [hzero] at hlt
    have hr : i % m.nrow < m.nrow := Nat.mod_lt i hpos
    have hc : i / m.nrow < m.ncol := Nat.div_lt_of_lt_mul hlt
    have hget := hm.get?_eq_entry hr hc
    rw [h _ hr _ hc, ← hm'.get?_eq_entry (hnrow ▸ hr) (hncol ▸ hc)] at hget
    rw [get?, if_pos ⟨hr, hc⟩, get?, if_pos ⟨hnrow ▸ hr, hncol ▸ hc⟩, ← hnrow,
      Nat.div_add_mod'] at hget
    simpa [hi, hi'] using hget
  cases m
  cases m'
  cases hnrow
  cases hncol
  cases hentries
  rfl

/-- Lists of one length, joined: place `j` of list `i`. -/
theorem getElem?_flatMap_of_length
    {α β : Type} {g : α → List β} {n : Nat} (hlength : ∀ x, (g x).length = n) (xs : List α)
    {i j : Nat} (hj : j < n) :
    (xs.flatMap g)[i * n + j]? = xs[i]?.bind fun x => (g x)[j]? := by
  induction xs generalizing i with
  | nil => rfl
  | cons x xs ih =>
      rw [List.flatMap_cons]
      cases i with
      | zero =>
          rw [List.getElem?_append_left (by rw [hlength]; omega)]
          simp
      | succ i =>
          have hi : (i + 1) * n + j - (g x).length = i * n + j := by
            rw [hlength, Nat.succ_mul]
            omega
          rw [List.getElem?_append_right (by rw [hlength, Nat.succ_mul]; omega), hi, ih]
          simp

theorem sized_tabulate
    (nrow ncol : Nat) (f : Nat → Nat → F) :
    (tabulate nrow ncol f).Sized := by
  simp [Sized, tabulate, Nat.mul_comm]

theorem Sized.set
    {m : DenseMatrix F} (hm : m.Sized) (r c : Nat) (v : F) :
    (m.set r c v).Sized := by
  simpa [Sized, DenseMatrix.set] using hm

theorem mem_triplets_iff
    {p : Pattern} {values : Array F} {r c : Nat} {v : F} :
    (r, c, v) ∈ (SparseMatrix.mk p values).triplets ↔
      ∃ k : Nat, p.entries[k]? = some (r, c) ∧ values[k]? = some v := by
  simp only [SparseMatrix.triplets, List.mem_map, Prod.exists, Pattern.mem_zip_iff,
    Array.getElem?_toList, Prod.mk.injEq]
  grind

variable [Zero F]

theorem entry_tabulate
    {nrow ncol r c : Nat} (f : Nat → Nat → F) (hr : r < nrow) (hc : c < ncol) :
    (tabulate nrow ncol f).entry r c = f r c := by
  have hget := getElem?_flatMap_of_length (g := fun c => (List.range nrow).map fun r => f r c)
    (n := nrow) (by simp) (List.range ncol) (i := c) hr
  simp only [entry, get?, tabulate, hr, hc, and_self, if_true, List.getElem?_toArray, hget]
  simp [hr, hc]

theorem entry_of_not_lt
    {m : DenseMatrix F} {r c : Nat} (h : ¬(r < m.nrow ∧ c < m.ncol)) :
    m.entry r c = 0 := by
  rw [entry, get?_of_not_lt h, Option.getD_none]

/-- A tabulated matrix of the shape of a pattern, whose entries are zero outside the pattern. -/
theorem tabulate_spec
    {p : Pattern} (hp : p.WellFormed) {nrow ncol : Nat} (hshape : (nrow, ncol) = p.shape)
    {f : Nat → Nat → F} (hzero : ∀ r < p.nrow, ∀ c < p.ncol, c ∉ p.row r → f r c = 0) :
    (tabulate nrow ncol f).Sized ∧ (tabulate nrow ncol f).shape = p.shape ∧
      (∀ r c, c ∉ p.row r → (tabulate nrow ncol f).entry r c = 0) ∧
      ∀ r c, c ∈ p.row r → (tabulate nrow ncol f).entry r c = f r c := by
  cases hshape
  refine ⟨sized_tabulate _ _ f, rfl, fun r c hout => ?_, fun r c hmem => ?_⟩
  · by_cases hin : r < p.nrow ∧ c < p.ncol
    · rw [entry_tabulate f hin.1 hin.2, hzero r hin.1 c hin.2 hout]
    · exact entry_of_not_lt hin
  · exact entry_tabulate f (Pattern.lt_nrow_of_mem_row hmem) (hp.lt_ncol hmem)

/-- `φ` of every entry. -/
def mapEntries (φ : F → F) (m : DenseMatrix F) : DenseMatrix F :=
  tabulate m.nrow m.ncol fun r c => φ (m.entry r c)

/-- `φ` of the entries at one place; matrices of different shapes have no result. -/
def zipWith? (φ : F → F → F) (m m' : DenseMatrix F) : Option (DenseMatrix F) :=
  if m.shape = m'.shape then
    some (tabulate m.nrow m.ncol fun r c => φ (m.entry r c) (m'.entry r c))
  else
    none

/-- Every entry is the one of the parts that `origin` names. -/
def arranged (nrow ncol : Nat) (origin : Origin) (parts : List (DenseMatrix F)) : DenseMatrix F :=
  tabulate nrow ncol fun r c =>
    match origin r c with
    | (d, r', c') => (parts[d]?.map fun m => m.entry r' c').getD 0

def reshape (nrow ncol : Nat) (m : DenseMatrix F) : DenseMatrix F :=
  arranged nrow ncol (.reshaped m.ncol ncol) [m]

def transpose (m : DenseMatrix F) : DenseMatrix F := arranged m.ncol m.nrow .transposed [m]

/-- Rows and columns may repeat and come in any order. -/
def slice (rows cols : List Nat) (m : DenseMatrix F) : DenseMatrix F :=
  arranged rows.length cols.length (.selected rows cols) [m]

/-- Side by side; the height is that of the first part. -/
def horzcat (parts : List (DenseMatrix F)) : DenseMatrix F :=
  arranged ((parts.head?.map nrow).getD 0) (total (parts.map ncol)) (.beside (parts.map ncol)) parts

/-- On top of each other; the width is that of the first part. -/
def vertcat (parts : List (DenseMatrix F)) : DenseMatrix F :=
  arranged (total (parts.map nrow)) ((parts.head?.map ncol).getD 0) (.stacked (parts.map nrow))
    parts

/-- A write reaches its own entry and no other. -/
theorem entry_set
    {m : DenseMatrix F} (hm : m.Sized) {r c r' c' : Nat} (hr : r < m.nrow) (hc : c < m.ncol)
    (v : F) :
    (m.set r c v).entry r' c' = if (r', c') = (r, c) then v else m.entry r' c' := by
  by_cases hin : r' < m.nrow ∧ c' < m.ncol
  · have hlt : c * m.nrow + r < m.entries.size := by
      rw [hm, Nat.mul_comm m.nrow]
      exact position_lt hr (.inl hc) (d := 0)
    have hsame : c * m.nrow + r = c' * m.nrow + r' ↔ (r', c') = (r, c) := by
      constructor
      · intro heq
        have hdiv := congrArg (· / m.nrow) heq
        have hmod := congrArg (· % m.nrow) heq
        simp only [position_div hr, position_div hin.1, position_mod hr, position_mod hin.1]
          at hdiv hmod
        rw [hdiv, hmod]
      · intro heq
        cases heq
        rfl
    simp only [entry, get?, hin, and_self, if_true, DenseMatrix.set,
      Array.getElem?_setIfInBounds, hsame, hlt]
    split <;> rfl
  · have hne : (r', c') ≠ (r, c) := by
      rintro heq
      cases heq
      exact hin ⟨hr, hc⟩
    rw [if_neg hne, entry_of_not_lt hin, entry_of_not_lt (m := m.set r c v) hin]

omit [Zero F] in
/-- Writes to different entries leave each its own number, and the rest as it was. -/
theorem read_foldl_write
    {S : Type} {w : S → Nat × Nat × F → S} {g : S → Nat → Nat → F} {I : S → Prop}
    {triplets : List (Nat × Nat × F)} (hnodup : (triplets.map fun (r, c, _) => (r, c)).Nodup)
    (hwrite : ∀ r₀ c₀ v, (r₀, c₀, v) ∈ triplets → ∀ s, I s → I (w s (r₀, c₀, v)) ∧
      ∀ r c, g (w s (r₀, c₀, v)) r c = if (r, c) = (r₀, c₀) then v else g s r c)
    {s : S} (hs : I s) :
    I (triplets.foldl w s) ∧
      ∀ r c, (∀ v, (r, c, v) ∈ triplets → g (triplets.foldl w s) r c = v) ∧
        ((∀ v, (r, c, v) ∉ triplets) → g (triplets.foldl w s) r c = g s r c) := by
  induction triplets generalizing s with
  | nil => exact ⟨hs, fun r c => ⟨fun v hv => absurd hv List.not_mem_nil, fun _ => rfl⟩⟩
  | cons t triplets ih =>
      obtain ⟨r₀, c₀, v₀⟩ := t
      obtain ⟨hfresh, hnodup⟩ := List.nodup_cons.1 hnodup
      obtain ⟨hI, hread⟩ := hwrite r₀ c₀ v₀ (List.mem_cons_self ..) s hs
      obtain ⟨hI', hentries⟩ := ih hnodup
        (fun r c v ht => hwrite r c v (List.mem_cons_of_mem _ ht)) hI
      refine ⟨hI', fun r c => ⟨fun v hv => ?_, fun hout => ?_⟩⟩
      · rcases List.mem_cons.1 hv with heq | hv
        · cases heq
          rw [List.foldl_cons, (hentries r₀ c₀).2 fun v hv =>
            hfresh (List.mem_map_of_mem (f := fun (r, c, _) => (r, c)) hv), hread, if_pos rfl]
        · exact (hentries r c).1 v hv
      · have hne : (r, c) ≠ (r₀, c₀) := by
          rintro heq
          cases heq
          exact hout v₀ (List.mem_cons_self ..)
        rw [List.foldl_cons, (hentries r c).2 fun v hv => hout v (List.mem_cons_of_mem _ hv),
          hread, if_neg hne]

omit [Zero F] in
/-- The triplets of a well-formed pattern are at different entries, all of them inside. -/
theorem triplets_spec
    {p : Pattern} (hp : p.WellFormed) (values : Array F) :
    ((SparseMatrix.mk p values).triplets.map fun (r, c, _) => (r, c)).Nodup ∧
      ∀ r c v, (r, c, v) ∈ (SparseMatrix.mk p values).triplets → r < p.nrow ∧ c < p.ncol := by
  refine ⟨?_, fun r c v ht => ?_⟩
  · have hzip : (SparseMatrix.mk p values).triplets.map (fun (r, c, _) => (r, c)) =
        p.entries.take (min p.entries.length values.toList.length) := by
      rw [SparseMatrix.triplets, List.zip_eq_zip_take_min, List.map_map]
      exact List.map_fst_zip (by simp)
    rw [hzip]
    exact hp.nodup_entries.sublist (List.take_sublist ..)
  · obtain ⟨k, hk, -⟩ := mem_triplets_iff.1 ht
    have hmem := Pattern.mem_entries_iff.1 (List.mem_of_getElem? hk)
    exact ⟨Pattern.lt_nrow_of_mem_row hmem, hp.lt_ncol hmem⟩

/-- A sparse matrix filled with zeros: the numbers of its triplets, and zeros elsewhere. -/
theorem entry_ofSparse
    {p : Pattern} (hp : p.WellFormed) (values : Array F) :
    (ofSparse ⟨p, values⟩).Sized ∧ (ofSparse ⟨p, values⟩).shape = p.shape ∧
      ∀ r c, (∀ v, (r, c, v) ∈ (SparseMatrix.mk p values).triplets →
          (ofSparse ⟨p, values⟩).entry r c = v) ∧
        ((∀ v, (r, c, v) ∉ (SparseMatrix.mk p values).triplets) →
          (ofSparse ⟨p, values⟩).entry r c = 0) := by
  obtain ⟨hnodup, hin⟩ := triplets_spec hp values
  have hzeros : (DenseMatrix.mk p.nrow p.ncol (Array.replicate p.numel (0 : F))).Sized := by
    simp [Sized, Pattern.numel]
  have hwrite : ∀ r₀ c₀ v, (r₀, c₀, v) ∈ (SparseMatrix.mk p values).triplets →
      ∀ m : DenseMatrix F, m.Sized ∧ m.shape = p.shape →
        ((m.set r₀ c₀ v).Sized ∧ (m.set r₀ c₀ v).shape = p.shape) ∧
        ∀ r c, (m.set r₀ c₀ v).entry r c = if (r, c) = (r₀, c₀) then v else m.entry r c := by
    rintro r₀ c₀ v ht m ⟨hm, hshape⟩
    obtain ⟨hr, hc⟩ := hin r₀ c₀ v ht
    have hnrow : m.nrow = p.nrow := congrArg Prod.fst hshape
    have hncol : m.ncol = p.ncol := congrArg Prod.snd hshape
    exact ⟨⟨hm.set r₀ c₀ v, hshape⟩, fun r c => entry_set hm (hnrow ▸ hr) (hncol ▸ hc) v⟩
  obtain ⟨⟨hsized, hshape⟩, hentries⟩ := read_foldl_write (g := entry)
    (w := fun m (r, c, v) => m.set r c v) (I := fun m => m.Sized ∧ m.shape = p.shape)
    hnodup hwrite ⟨hzeros, rfl⟩
  refine ⟨hsized, hshape, fun r c => ⟨(hentries r c).1, fun hnone => ?_⟩⟩
  refine ((hentries r c).2 hnone).trans ?_
  simp only [entry, get?, Array.getElem?_replicate]
  grind

/-- The same by the numbers of the entries. -/
theorem ofSparse_spec
    {p : Pattern} (hp : p.WellFormed) (values : Array F) :
    (ofSparse ⟨p, values⟩).Sized ∧ (ofSparse ⟨p, values⟩).shape = p.shape ∧
      (∀ (k : Nat) r c v, p.entries[k]? = some (r, c) → values[k]? = some v →
        (ofSparse ⟨p, values⟩).entry r c = v) ∧
      ∀ r c, c ∉ p.row r → (ofSparse ⟨p, values⟩).entry r c = 0 := by
  obtain ⟨hsized, hshape, hentries⟩ := entry_ofSparse hp values
  refine ⟨hsized, hshape, fun k r c v hk hv => (hentries r c).1 v (mem_triplets_iff.2 ⟨k, hk, hv⟩),
    fun r c hout => (hentries r c).2 fun v hv => ?_⟩
  obtain ⟨k, hk, -⟩ := mem_triplets_iff.1 hv
  exact hout (Pattern.mem_entries_iff.1 (List.mem_of_getElem? hk))

end DenseMatrix

end SparseDiff
