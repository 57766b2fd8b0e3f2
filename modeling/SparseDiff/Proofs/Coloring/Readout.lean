import SparseDiff.Proofs.Coloring.Partition

/-!
# Reading a matrix back

A sweep multiplies a matrix with the seed of a color: one at the vertices of the color, zero
elsewhere. `Partition.recovered` reads every nonzero of a pattern from such a product. The
verification of a partition succeeds exactly if this gives every matrix on the pattern back, since
a matrix with a single one shows each collision (`Partition.verification_exact`).
-/

namespace SparseDiff

open Matrix

namespace Coloring

/-- Row `k` of the seed pattern: the vertices of color `k`. -/
theorem mem_row_seeds_iff
    {c : Coloring} {v k : Nat} :
    v ∈ c.seeds.row k ↔ c.colorOf v = some k := by
  have hcolored : (k, v) ∈ c.colored ↔ c.colorOf v = some k := by
    simp only [colored, List.mem_filterMap, List.mem_zipIdx_iff_getElem?, Prod.exists,
      Option.map_eq_some_iff, Prod.mk.injEq, colorOf, Option.join_eq_some_iff,
      Array.getElem?_toList]
    grind
  constructor
  · intro h
    have hk : k < c.ncolors := by
      have hlt := Pattern.lt_nrow_of_mem_row h
      rwa [Pattern.nrow, seeds, size_sortInto] at hlt
    rw [Pattern.row, seeds, Array.getD_eq_getD_getElem?, getElem?_sortInto _ _ hk,
      Option.getD_some] at h
    obtain ⟨⟨k', v'⟩, hmem, rfl⟩ := List.mem_map.1 h
    obtain ⟨hmem, heq⟩ := List.mem_filter.1 hmem
    have hkk : k' = k := by simpa using heq
    exact hcolored.1 (hkk ▸ hmem)
  · intro h
    rw [Pattern.row, seeds, Array.getD_eq_getD_getElem?, getElem?_sortInto _ _ (lt_ncolors h),
      Option.getD_some]
    exact List.mem_map.2 ⟨(k, v), List.mem_filter.2 ⟨hcolored.2 h, by simp⟩, rfl⟩

/-- The seed of color `k` as a vector. -/
def seedVector (c : Coloring) (n k : Nat) : Fin n → ℤ :=
  fun v => if v.1 ∈ c.seeds.row k then 1 else 0

theorem seedVector_of_color
    {c : Coloring} {n k : Nat} {v : Fin n} (h : c.colorOf v = some k) :
    c.seedVector n k v = 1 :=
  if_pos (mem_row_seeds_iff.2 h)

theorem seedVector_of_ne
    {c : Coloring} {n k : Nat} {v : Fin n} (h : c.colorOf v ≠ some k) :
    c.seedVector n k v = 0 :=
  if_neg fun hmem => h (mem_row_seeds_iff.1 hmem)

end Coloring

/-- The matrix is zero outside the nonzeros of the pattern. -/
def Pattern.Supports (p : Pattern) (a : Matrix (Fin p.nrow) (Fin p.ncol) ℤ) : Prop :=
  ∀ (r : Fin p.nrow) (c : Fin p.ncol), c.1 ∉ p.row r → a r c = 0

namespace Partition

variable {p : Pattern} {parts : Partition}

/--
Entry `(r, c)` as it is read: from the row that the adjoint sweep of the color of row `r` gives,
or, if that has no color, from the column that the forward sweep of the color of column `c` gives.
-/
def read (parts : Partition) {m n : Nat} (a : Matrix (Fin m) (Fin n) ℤ) (r : Fin m) (c : Fin n) :
    ℤ :=
  match parts.adjoint.colorOf r with
  | some k => (parts.adjoint.seedVector m k ᵥ* a) c
  | none =>
      match parts.forward.colorOf c with
      | some k => (a *ᵥ parts.forward.seedVector n k) r
      | none => 0

/-- The matrix on the pattern with every nonzero as it is read. -/
def recovered (parts : Partition) (p : Pattern) (a : Matrix (Fin p.nrow) (Fin p.ncol) ℤ) :
    Matrix (Fin p.nrow) (Fin p.ncol) ℤ :=
  fun r c => if c.1 ∈ p.row r then parts.read a r c else 0

theorem Recoverable.read_eq
    (h : parts.Recoverable p) {a : Matrix (Fin p.nrow) (Fin p.ncol) ℤ} (ha : p.Supports a)
    {r : Fin p.nrow} {c : Fin p.ncol} (hc : c.1 ∈ p.row r) :
    parts.read a r c = a r c := by
  unfold read
  cases hr : parts.adjoint.colorOf r with
  | some k =>
      -- other rows have a zero in this column or another color
      have hother : ∀ r' : Fin p.nrow, r' ≠ r →
          parts.adjoint.seedVector p.nrow k r' * a r' c = 0 := by
        intro r' hne
        by_cases hc' : c.1 ∈ p.row r'
        · rw [Coloring.seedVector_of_ne, zero_mul]
          exact fun hk => hne (Fin.ext (h.adjoint_ne r' r c k hc' hc hk hr))
        · rw [ha r' c hc', mul_zero]
      calc (parts.adjoint.seedVector p.nrow k ᵥ* a) c
          = ∑ r', parts.adjoint.seedVector p.nrow k r' * a r' c := rfl
        _ = parts.adjoint.seedVector p.nrow k r * a r c :=
            Finset.sum_eq_single r (fun r' _ => hother r') (by simp)
        _ = a r c := by rw [Coloring.seedVector_of_color hr, one_mul]
  | none =>
      obtain ⟨k, hk⟩ := Option.isSome_iff_exists.1 (h.forward.isSome r c hr hc)
      have hother : ∀ c' : Fin p.ncol, c' ≠ c →
          a r c' * parts.forward.seedVector p.ncol k c' = 0 := by
        intro c' hne
        by_cases hc' : c'.1 ∈ p.row r
        · rw [Coloring.seedVector_of_ne, mul_zero]
          exact fun hk' => h.forward.ne r c' c hr hc' hc (fun heq => hne (Fin.ext heq))
            (hk'.trans hk.symm)
        · rw [ha r c' hc', zero_mul]
      simp only [hk]
      calc (a *ᵥ parts.forward.seedVector p.ncol k) r
          = ∑ c', a r c' * parts.forward.seedVector p.ncol k c' := rfl
        _ = a r c * parts.forward.seedVector p.ncol k c :=
            Finset.sum_eq_single c (fun c' _ => hother c') (by simp)
        _ = a r c := by rw [Coloring.seedVector_of_color hk, mul_one]

theorem Recoverable.recovered_eq
    (h : parts.Recoverable p) {a : Matrix (Fin p.nrow) (Fin p.ncol) ℤ} (ha : p.Supports a) :
    parts.recovered p a = a := by
  ext r c
  unfold recovered
  split
  · next hc => exact h.read_eq ha hc
  · next hc => exact (ha r c hc).symm

theorem supports_single
    {r : Fin p.nrow} {c : Fin p.ncol} (hc : c.1 ∈ p.row r) :
    p.Supports (Matrix.single r c 1) := by
  intro r' c' hc'
  rw [Matrix.single_apply_of_ne]
  rintro ⟨rfl, rfl⟩
  exact hc' hc

/-- A single one is read at every nonzero of its row with the color of its column. -/
theorem read_single_of_forward
    {m n : Nat} {r : Fin m} {a b : Fin n} {k : Nat} (hr : parts.adjoint.colorOf r = none)
    (ha : parts.forward.colorOf a = some k) (hb : parts.forward.colorOf b = some k) :
    parts.read (Matrix.single r a 1) r b = 1 := by
  simp only [read, hr, hb, single_mulVec, Function.update_self,
    Coloring.seedVector_of_color ha, mul_one]

/-- A single one is read at every nonzero of its column with the color of its row. -/
theorem read_single_of_adjoint
    {m n : Nat} {r r' : Fin m} {c : Fin n} {k : Nat} (hr : parts.adjoint.colorOf r = some k)
    (hr' : parts.adjoint.colorOf r' = some k) :
    parts.read (Matrix.single r c 1) r' c = 1 := by
  simp only [read, hr']
  calc (parts.adjoint.seedVector m k ᵥ* Matrix.single r c 1) c
      = ∑ i, parts.adjoint.seedVector m k i * (Matrix.single r c 1 : Matrix _ _ ℤ) i c := rfl
    _ = parts.adjoint.seedVector m k r * (Matrix.single r c 1 : Matrix _ _ ℤ) r c :=
        Finset.sum_eq_single r
          (fun i _ hne => by rw [Matrix.single_apply_of_row_ne hne.symm, mul_zero]) (by simp)
    _ = 1 := by rw [Coloring.seedVector_of_color hr, Matrix.single_apply_same, mul_one]

theorem recoverable_of_recovered
    (hp : p.WellFormed) (hforward : parts.forward.colors.size = p.ncol)
    (hadjoint : parts.adjoint.colors.size = p.nrow)
    (h : ∀ a, p.Supports a → parts.recovered p a = a) :
    parts.Recoverable p := by
  -- with a single one at a nonzero, every nonzero is read as it should be
  have hread : ∀ (r r' : Fin p.nrow) (c c' : Fin p.ncol), c.1 ∈ p.row r → c'.1 ∈ p.row r' →
      parts.read (Matrix.single r c 1) r' c' = Matrix.single r c 1 r' c' := by
    intro r r' c c' hc hc'
    have hrecovered := congrFun (congrFun (h _ (supports_single hc)) r') c'
    rwa [recovered, if_pos hc'] at hrecovered
  have hrow : ∀ {r c : Nat}, c ∈ p.row r → r < p.nrow := Pattern.lt_nrow_of_mem_row
  have hcolored : ∀ r c, parts.adjoint.colorOf r = none → c ∈ p.row r →
      (parts.forward.colorOf c).isSome := by
    intro r c hr hc
    by_contra hnone
    have hnone := Option.not_isSome_iff_eq_none.1 hnone
    have hone := hread ⟨r, hrow hc⟩ ⟨r, hrow hc⟩ ⟨c, hp.lt_ncol hc⟩ ⟨c, hp.lt_ncol hc⟩ hc hc
    simp [read, hr, hnone] at hone
  refine ⟨⟨hforward, hcolored, fun r a b hr ha hb hne heq => ?_⟩, hadjoint,
    fun r r' c k hc hc' hk hk' => ?_⟩
  · obtain ⟨k, hk⟩ := Option.isSome_iff_exists.1 (hcolored r a hr ha)
    have hzero := hread ⟨r, hrow ha⟩ ⟨r, hrow ha⟩ ⟨a, hp.lt_ncol ha⟩ ⟨b, hp.lt_ncol hb⟩ ha hb
    rw [read_single_of_forward hr hk (heq.symm.trans hk),
      Matrix.single_apply_of_col_ne _ _ (by simpa using hne)] at hzero
    cases hzero
  · by_contra hne
    have hzero := hread ⟨r, hrow hc⟩ ⟨r', hrow hc'⟩ ⟨c, hp.lt_ncol hc⟩ ⟨c, hp.lt_ncol hc⟩ hc hc'
    rw [read_single_of_adjoint hk hk', Matrix.single_apply_of_row_ne (by simpa using hne)] at hzero
    cases hzero

/--
On a partition with a color or none for every column and every row, the verification succeeds
exactly if every integer matrix on the pattern is read back: entries of a row without adjoint color
from the product with the forward seed of their column, the others from the adjoint seed of their
row. The verifications of a coloring succeed exactly if the columns of every row have colors, no two
alike. What is reported is a nonzero that collides as reported.
-/
theorem verification_exact
    (hp : p.WellFormed) :
    (∀ parts : Partition, parts.forward.colors.size = p.ncol →
      parts.adjoint.colors.size = p.nrow →
        (verifyPartition p parts = .ok () ↔ ∀ a, p.Supports a → parts.recovered p a = a) ∧
        ∀ failure, verifyPartition p parts = .error failure → ∃ r c k,
          failure = .rejected (.collision "verify_partition" r c k) ∧ parts.Collides p r c k) ∧
    ∀ c : Coloring, c.colors.size = p.ncol →
      (verifyColumns p c = .ok () ↔ ∀ r < p.nrow, c.SeparatesRow p r) ∧
      (∀ failure, verifyColumns p c = .error failure → ∃ r col k,
        failure = .rejected (.collision "verify_columns" r col k) ∧ c.CollidesInRow p r col k) ∧
      (verifySymmetric p c = .ok () ↔ ∀ r < p.nrow, c.SeparatesRow p r) ∧
      ∀ failure, verifySymmetric p c = .error failure → ∃ r col k,
        failure = .rejected (.collision "verify_symmetric" r col k) ∧
          c.CollidesInRow p r col k := by
  constructor
  · intro parts hforward hadjoint
    have hrecovers : parts.Recoverable p ↔ ∀ a, p.Supports a → parts.recovered p a = a := by
      constructor
      · intro h a
        exact h.recovered_eq
      · exact recoverable_of_recovered hp hforward hadjoint
    refine ⟨(verifyPartition_eq_ok_iff hp hforward hadjoint).trans hrecovers, ?_⟩
    intro failure hfails
    exact (returns_verifyPartition hp hforward hadjoint).of_error hfails
  · intro c hsize
    have hcollides : ∀ op failure, Coloring.checkRows op p c (fun _ => .ok true) = .error failure →
        ∃ r col k, failure = .rejected (.collision op r col k) ∧ c.CollidesInRow p r col k :=
      fun op failure => (Coloring.returns_checkAllRows hp hsize op).of_error
    exact ⟨Coloring.checkRows_eq_ok_iff hp hsize _, hcollides _,
      Coloring.checkRows_eq_ok_iff hp hsize _, hcollides _⟩

/-- Colors with gaps, the first row of an arrow left to an adjoint sweep. -/
def gapped : Partition := ⟨⟨#[some 0, some 2, some 2, some 2]⟩, ⟨#[some 3, none, none, none]⟩⟩

/-- The same, but no row is left to adjoint sweeps. -/
def crowded : Partition := ⟨gapped.forward, ⟨Array.replicate 4 none⟩⟩

theorem verification_exact_arrow :
    (∀ a, arrow.Supports a → gapped.recovered arrow a = a) ∧
      (∃ a, arrow.Supports a ∧ crowded.recovered arrow a ≠ a) ∧
      crowded.Collides arrow 0 2 (some 2) ∧
      verifyColumns arrow crowded.forward ≠ .ok () := by
  obtain ⟨hpartition, hcoloring⟩ := verification_exact wellFormed_arrow
  have hrefused : verifyPartition arrow crowded =
      .error (.rejected (.collision "verify_partition" 0 2 (some 2))) := by cbv
  obtain ⟨hgapped, -⟩ := hpartition gapped rfl rfl
  obtain ⟨hcrowded, hreported⟩ := hpartition crowded rfl rfl
  obtain ⟨_, _, _, heq, hcollides⟩ := hreported _ hrefused
  cases heq
  refine ⟨hgapped.1 (by cbv), ?_, hcollides, fun h => ?_⟩
  · by_contra hall
    push Not at hall
    rw [hcrowded.2 hall] at hrefused
    cases hrefused
  · have hrow := ((hcoloring crowded.forward rfl).1.1 h 0 (by decide)).2
    revert hrow
    decide

end Partition

end SparseDiff
