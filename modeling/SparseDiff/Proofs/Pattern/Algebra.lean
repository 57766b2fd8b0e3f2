import SparseDiff.Proofs.Pattern.Compressed
import SparseDiff.Proofs.Pattern.Filling
import SparseDiff.Proofs.Pattern.Movement

/-!
# The algebra of patterns is exact

`Describes` says that a pattern is well-formed and has the nonzeros of a relation. Union and
intersection describe the union and the intersection of their operands, the product describes the
composition, and the transpose the converse; the map of the transpose numbers the nonzeros anew
(`algebra_exact`). The marks of a product are never cleared: those of an earlier row cannot be taken
for marks of the row in hand (`Marked.Holds`).
-/

namespace SparseDiff

namespace Pattern

/-- A pattern in compressed form with the nonzeros that `S` says. -/
structure Describes (p : Pattern) (shape : Nat × Nat) (S : Nat → Nat → Prop) : Prop where
  wellFormed : p.WellFormed
  compressed : CompressedForm p.nrow p.ncol p.rowPtr p.columns
  shape_eq : p.shape = shape
  mem_entries_iff : ∀ r c, (r, c) ∈ p.entries ↔ S r c

theorem WellFormed.describes
    {p : Pattern} (hp : p.WellFormed) {shape : Nat × Nat} (hshape : p.shape = shape)
    {S : Nat → Nat → Prop} (h : ∀ r c, c ∈ p.row r ↔ S r c) :
    p.Describes shape S :=
  ⟨hp, hp.compressedForm, hshape, fun r c => Pattern.mem_entries_iff.trans (h r c)⟩

section Shapes

variable {p q : Pattern}

theorem exists_union_eq_ok
    (hp : p.WellFormed) (hq : q.WellFormed) (hshape : p.shape = q.shape) :
    ∃ u, p.union q = .ok u ∧
      u.Describes p.shape fun r c => (r, c) ∈ p.entries ∨ (r, c) ∈ q.entries := by
  have hcheck : checkSameShape "Sparsity::union" p q = .ok () := by
    simp [checkSameShape, hshape]
  have h : p.union q = .ok ⟨p.ncol, p.rows.zipWith mergeRows q.rows⟩ := by
    rw [union, hcheck]
    rfl
  obtain ⟨hu, hmem⟩ := union_eq_ok hp hq hshape h
  have hnrow : p.rows.size = q.rows.size := congrArg Prod.fst hshape
  refine ⟨_, h, hu.describes (by simp [shape, nrow, hnrow]) fun r c => ?_⟩
  rw [hmem, Pattern.mem_entries_iff, Pattern.mem_entries_iff]

theorem exists_inter_eq_ok
    (hp : p.WellFormed) (hshape : p.shape = q.shape) :
    ∃ i, p.inter q = .ok i ∧
      i.Describes p.shape fun r c => (r, c) ∈ p.entries ∧ (r, c) ∈ q.entries := by
  have hcheck : checkSameShape "Sparsity::intersection" p q = .ok () := by
    simp [checkSameShape, hshape]
  have hnrow : p.rows.size = q.rows.size := congrArg Prod.fst hshape
  have hrow : ∀ r,
      (Pattern.mk p.ncol (p.rows.zipWith (fun a b => a.filter b.contains) q.rows)).row r =
        (p.row r).filter (q.row r).contains := by
    intro r
    rcases Nat.lt_or_ge r p.rows.size with hr | hr
    · simp [row, Array.getD_eq_getD_getElem?, hr, hnrow ▸ hr]
    · simp [row, Array.getD_eq_getD_getElem?, hr, hnrow ▸ hr]
  refine ⟨⟨p.ncol, p.rows.zipWith (fun a b => a.filter b.contains) q.rows⟩, ?_,
    (wellFormed_of_rows fun r _ => ⟨?_, fun c hc => ?_⟩).describes ?_ fun r c => ?_⟩
  · rw [inter, hcheck]
    rfl
  · rw [hrow]
    exact (hp.row_increasing r).filter _
  · rw [hrow] at hc
    exact hp.lt_ncol (List.mem_filter.1 hc).1
  · simp [shape, nrow, hnrow]
  · rw [hrow, List.mem_filter, List.contains_iff_mem, Pattern.mem_entries_iff,
      Pattern.mem_entries_iff]

end Shapes

/-- State of the marks after row `r` has met the columns `met`. -/
structure Marked.Holds (width r : Nat) (met : List Nat) (found : Marked) : Prop where
  size : found.marks.size = width
  /-- No mark is of a later row. -/
  stale : ∀ c s : Nat, found.marks[c]? = some (some s) → s ≤ r
  marked_iff : ∀ c : Nat, found.marks[c]? = some (some r) ↔ c ∈ found.columns.toList
  nodup : found.columns.toList.Nodup
  mem_iff : ∀ c, c ∈ found.columns.toList ↔ c ∈ met

/-- A column with the mark of this row is in the row already. -/
theorem Marked.Holds.repeated
    {width r : Nat} {met : List Nat} {found : Marked} (h : found.Holds width r met) {c : Nat}
    (hmark : found.marks[c]? = some (some r)) :
    found.Holds width r (met ++ [c]) := by
  have hmem : c ∈ met := (h.mem_iff c).1 ((h.marked_iff c).1 hmark)
  refine ⟨h.size, h.stale, h.marked_iff, h.nodup, fun c' => ?_⟩
  rw [h.mem_iff, List.mem_append, List.mem_singleton]
  exact ⟨.inl, fun hc' => hc'.elim id fun heq => heq ▸ hmem⟩

/-- A column without it is new, and is marked and listed. -/
theorem Marked.Holds.fresh
    {width r : Nat} {met : List Nat} {marks : Array (Option Nat)} {columns : Array Nat}
    (h : Marked.Holds width r met ⟨marks, columns⟩) {c : Nat} (hc : c < width)
    (hmark : marks[c]? ≠ some (some r)) :
    Marked.Holds width r (met ++ [c]) ⟨marks.setIfInBounds c (some r), columns.push c⟩ := by
  have hsize : c < marks.size := h.size.symm ▸ hc
  have hnew : c ∉ columns.toList := fun hmem => hmark ((h.marked_iff c).2 hmem)
  refine ⟨by simpa using h.size, fun c' s hs => ?_, fun c' => ?_, ?_, fun c' => ?_⟩
  · rw [Array.getElem?_setIfInBounds] at hs
    split at hs
    · cases hs
      exact Nat.le_refl _
    · exact h.stale c' s hs
  · rw [Array.getElem?_setIfInBounds, Array.toList_push, List.mem_append, List.mem_singleton,
      ← h.marked_iff]
    split
    · next heq => simp [heq]
    · next hne => simp [Ne.symm hne]
  · rw [Array.toList_push, List.nodup_append]
    refine ⟨h.nodup, List.nodup_singleton c, fun a ha b hb heq => hnew ?_⟩
    rwa [← List.mem_singleton.1 hb, ← heq]
  · rw [Array.toList_push, List.mem_append, List.mem_append, h.mem_iff]

theorem Marked.Holds.add
    {width r : Nat} {met : List Nat} {found : Marked} (h : found.Holds width r met) {c : Nat}
    (hc : c < width) :
    (Marked.add r found c).Holds width r (met ++ [c]) := by
  obtain ⟨marks, columns⟩ := found
  have hget : marks[c]? = some (marks.getD c none) := by
    have hsize : c < marks.size := h.size.symm ▸ hc
    simp [hsize]
  rw [Marked.add]
  split
  · next hmark => exact h.repeated (hget.trans (congrArg some hmark))
  · next hmark => exact h.fresh hc fun heq => hmark (Option.some.inj (hget.symm.trans heq))

theorem Marked.Holds.foldl
    {width r : Nat} {cs : List Nat} (hcs : ∀ c ∈ cs, c < width) {met : List Nat} {found : Marked}
    (h : found.Holds width r met) :
    (cs.foldl (Marked.add r) found).Holds width r (met ++ cs) := by
  induction cs generalizing met found with
  | nil => simpa using h
  | cons c cs ih =>
      have hnext := ih (fun c' hc' => hcs c' (List.mem_cons_of_mem _ hc'))
        (h.add (hcs c (List.mem_cons_self ..)))
      rwa [List.append_assoc, List.singleton_append] at hnext

/-- Marks of earlier rows are none for row `r`. -/
theorem collectRow_holds
    {q : Pattern} (hq : q.WellFormed) {marks : Array (Option Nat)} {r : Nat}
    (hsize : marks.size = q.ncol) (hmarks : ∀ c s : Nat, marks[c]? = some (some s) → s < r)
    (ks : List Nat) :
    (collectRow q marks r ks).Holds q.ncol r (ks.flatMap q.row) := by
  have hstart : Marked.Holds q.ncol r [] ⟨marks, #[]⟩ := by
    refine ⟨hsize, fun c s hs => Nat.le_of_lt (hmarks c s hs), fun c => ?_, List.nodup_nil, by simp⟩
    refine ⟨fun hc => absurd (hmarks c r hc) (Nat.lt_irrefl r), fun hc => by simp at hc⟩
  have hcs : ∀ c ∈ ks.flatMap q.row, c < q.ncol := fun c hc => by
    obtain ⟨k, -, hk⟩ := List.mem_flatMap.1 hc
    exact hq.lt_ncol hk
  rw [collectRow, ← List.foldl_flatMap]
  exact hstart.foldl hcs

theorem pairwise_lt_mergeSort
    {xs : List Nat} (h : xs.Nodup) :
    xs.mergeSort.Pairwise (· < ·) := by
  have hsorted := List.pairwise_mergeSort' (· ≤ ·) xs
  have hnodup : xs.mergeSort.Nodup := (List.mergeSort_perm xs _).nodup_iff.2 h
  exact (hsorted.and hnodup).imp fun hab => Nat.lt_of_le_of_ne hab.1 hab.2

/-- Every row of a product is the union of the rows that its columns name. -/
theorem productRows_forall₂
    {q : Pattern} (hq : q.WellFormed) (rows : List (List Nat))
    {marks : Array (Option Nat)} {r : Nat} (hsize : marks.size = q.ncol)
    (hmarks : ∀ c s : Nat, marks[c]? = some (some s) → s < r) :
    List.Forall₂ (fun ks row => row.Pairwise (· < ·) ∧ ∀ c, c ∈ row ↔ ∃ k ∈ ks, c ∈ q.row k)
      rows (productRows q marks r rows) := by
  induction rows generalizing marks r with
  | nil => exact .nil
  | cons ks rows ih =>
      have hfound := collectRow_holds hq hsize hmarks ks
      refine .cons ⟨pairwise_lt_mergeSort hfound.nodup, fun c => ?_⟩
        (ih hfound.size fun c s hs => Nat.lt_succ_of_le (hfound.stale c s hs))
      rw [List.mem_mergeSort, hfound.mem_iff, List.mem_flatMap]

/-- Within a shape that indices reach, only the number of nonzeros is refused. -/
theorem checked_eq
    (op : String) {p : Pattern} (hnrow : p.nrow ≤ maxIndex) (hncol : p.ncol ≤ maxIndex) :
    checked op p = if p.nnz ≤ maxIndex then .ok p else
      .error (.dimension op (.tooLarge "nonzero count" p.nnz maxIndex)) := by
  rw [checked, checkShape_eq_ok_iff.2 ⟨hnrow, hncol⟩, ok_bind]
  split
  · next hcount => rw [checkCount_eq_ok_iff.2 hcount]; rfl
  · next hcount => rw [checkCount, if_pos (Nat.not_le.1 hcount)]; rfl

/-- The product is the composition, unless that has more nonzeros than indices reach. -/
theorem exists_product_eq
    {p q : Pattern} (hq : q.WellFormed) (hnrow : p.nrow ≤ maxIndex) (hncol : q.ncol ≤ maxIndex)
    (hinner : p.ncol = q.nrow) :
    ∃ m : Pattern,
      m.Describes (p.nrow, q.ncol) (fun r c => ∃ k, (r, k) ∈ p.entries ∧ (k, c) ∈ q.entries) ∧
        p.product q = if m.nnz ≤ maxIndex then .ok m else
          .error (.dimension "Sparsity::product" (.tooLarge "nonzero count" m.nnz maxIndex)) := by
  have hrows := @productRows_forall₂ q hq p.rows.toList (Array.replicate q.ncol none) 0 (by simp)
    (by simp [Array.getElem?_replicate])
  let m : Pattern := ⟨q.ncol, (productRows q (Array.replicate q.ncol none) 0 p.rows.toList).toArray⟩
  have hshape : m.shape = (p.nrow, q.ncol) := by
    have hlength := hrows.length_eq
    exact Prod.ext (by simpa [m, shape, nrow] using hlength.symm) rfl
  have hnrow' : m.nrow = p.nrow := congrArg Prod.fst hshape
  have hrow : ∀ r < m.nrow, (m.row r).Pairwise (· < ·) ∧
      ∀ c, c ∈ m.row r ↔ ∃ k ∈ p.row r, c ∈ q.row k := by
    intro r hr
    have hrow : m.rows.toList[r]? = some (m.row r) := by
      have hr' : r < m.rows.size := hr
      simp [row, Array.getD_eq_getD_getElem?, hr']
    obtain ⟨ks, hks, hunion⟩ := getElem?_of_forall₂ hrows hrow
    rwa [← row_eq_of_getElem? hks] at hunion
  refine ⟨m, (wellFormed_of_rows fun r hr => ⟨(hrow r hr).1, fun c hc => ?_⟩).describes hshape
    fun r c => ?_, ?_⟩
  · obtain ⟨k, -, hc⟩ := ((hrow r hr).2 c).1 hc
    exact hq.lt_ncol hc
  · simp only [Pattern.mem_entries_iff]
    constructor
    · exact fun hc => ((hrow r (lt_nrow_of_mem_row hc)).2 c).1 hc
    · rintro ⟨k, hk, hc⟩
      have hr : r < m.nrow := hnrow' ▸ lt_nrow_of_mem_row hk
      exact ((hrow r hr).2 c).2 ⟨k, hk, hc⟩
  · have hchecked := checked_eq "Sparsity::product" (p := m) (hnrow' ▸ hnrow) hncol
    rw [← hchecked, product, if_neg (not_not.2 hinner), checkShape_eq_ok_iff.2 ⟨hnrow, hncol⟩]
    rfl

/-- Transposing twice exchanges rows and columns back. -/
theorem transpose_transpose
    {p : Pattern} (hp : p.WellFormed) :
    p.transpose.transpose = p := by
  refine hp.transpose.transpose.eq_of_mem_iff hp (by simp) (by simp) fun r _ c => ?_
  rw [mem_row_transpose_iff hp.transpose, mem_row_transpose_iff hp]

/-- The map names, for every nonzero `(c, r)` of the transpose, the nonzero `(r, c)`. -/
theorem getElem?_transposeMap
    {p : Pattern} (hp : p.WellFormed) {k r c : Nat} (h : p.transpose.entries[k]? = some (c, r)) :
    ∃ j, p.transposeMap[k]? = some j ∧ p.nzIndex? r c = some j := by
  have hk : k < p.transposeMap.length := by
    rw [length_transposeMap, ← length_entries]
    exact (List.getElem?_eq_some_iff.1 h).1
  have hc : c < p.ncol := by
    have hrow := mem_entries_iff.1 (List.mem_of_getElem? h)
    exact hp.lt_ncol ((mem_row_transpose_iff hp).1 hrow)
  refine ⟨p.transposeMap[k], List.getElem?_eq_getElem hk, (nzIndex?_eq_some_iff hp).2 ?_⟩
  exact (mem_zip_transposeMap_iff hp hc).1 (mem_zip_iff.2 ⟨k, h, List.getElem?_eq_getElem hk⟩)

/--
Union, intersection and transpose give the union, the intersection and the converse of the nonzeros
of their operands; a product gives the composition, and is refused only if that has too many
nonzeros. The map of the transpose is a permutation of the nonzero numbers that sends every nonzero
of the result to the one it is.
-/
theorem algebra_exact
    {p q : Pattern} (hp : p.WellFormed) (hq : q.WellFormed) (hp' : p.Indexable)
    (hq' : q.Indexable) :
    (p.shape = q.shape → ∃ u i, p.union q = .ok u ∧ p.inter q = .ok i ∧
      u.Describes p.shape (fun r c => (r, c) ∈ p.entries ∨ (r, c) ∈ q.entries) ∧
      i.Describes p.shape fun r c => (r, c) ∈ p.entries ∧ (r, c) ∈ q.entries) ∧
    (p.ncol = q.nrow → ∃ m : Pattern,
      m.Describes (p.nrow, q.ncol) (fun r c => ∃ k, (r, k) ∈ p.entries ∧ (k, c) ∈ q.entries) ∧
        p.product q = if m.nnz ≤ maxIndex then .ok m else
          .error (.dimension "Sparsity::product" (.tooLarge "nonzero count" m.nnz maxIndex))) ∧
    p.transpose.Describes (p.ncol, p.nrow) (fun c r => (r, c) ∈ p.entries) ∧
    p.transposeMap.Perm (List.range p.nnz) ∧
    (∀ k r c : Nat, p.transpose.entries[k]? = some (c, r) →
      ∃ j, p.transposeMap[k]? = some j ∧ p.nzIndex? r c = some j) ∧
    p.transpose.transpose = p := by
  have hconverse : p.transpose.Describes (p.ncol, p.nrow) fun c r => (r, c) ∈ p.entries := by
    refine hp.transpose.describes (shape_transpose p) fun c r => ?_
    rw [Pattern.mem_entries_iff, mem_row_transpose_iff hp]
  have hmap : ∀ k r c : Nat, p.transpose.entries[k]? = some (c, r) →
      ∃ j, p.transposeMap[k]? = some j ∧ p.nzIndex? r c = some j := by
    intro k r c hk
    exact getElem?_transposeMap hp hk
  refine ⟨?_, ?_, hconverse, transposeMap_perm hp, hmap, transpose_transpose hp⟩
  · intro hshape
    obtain ⟨u, hunion, hu⟩ := exists_union_eq_ok hp hq hshape
    obtain ⟨i, hinter, hi⟩ := exists_inter_eq_ok (q := q) hp hshape
    exact ⟨u, i, hunion, hinter, hu, hi⟩
  · intro hinner
    exact exists_product_eq hq hp'.nrow_le hq'.ncol_le hinner

/-- The algebra of a lower triangle and an exchange of two rows. -/
theorem algebra_exact_triangle_exchange :
    (∃ u i, (Pattern.mk 2 #[[0], [0, 1]]).union ⟨2, #[[1], [0]]⟩ = .ok u ∧
      (Pattern.mk 2 #[[0], [0, 1]]).inter ⟨2, #[[1], [0]]⟩ = .ok i ∧
      ((0, 1) ∈ u.entries ∧ (1, 1) ∈ u.entries) ∧ (1, 0) ∈ i.entries ∧ (1, 1) ∉ i.entries) ∧
    (∃ m : Pattern, (1, 1) ∈ m.entries ∧ (Pattern.mk 2 #[[0], [0, 1]]).product ⟨2, #[[1], [0]]⟩ =
      if m.nnz ≤ maxIndex then .ok m else
        .error (.dimension "Sparsity::product" (.tooLarge "nonzero count" m.nnz maxIndex))) ∧
    (∃ j, (Pattern.mk 2 #[[0], [0, 1]]).transposeMap[1]? = some j ∧
      (Pattern.mk 2 #[[0], [0, 1]]).nzIndex? 1 0 = some j) := by
  obtain ⟨hsame, hinner, -, -, hmap, -⟩ := algebra_exact (p := ⟨2, #[[0], [0, 1]]⟩)
    (q := ⟨2, #[[1], [0]]⟩) ⟨by decide, by decide⟩ ⟨by decide, by decide⟩
    ⟨by decide, by decide, by decide⟩ ⟨by decide, by decide, by decide⟩
  obtain ⟨u, i, hunion, hinter, hu, hi⟩ := hsame rfl
  obtain ⟨m, hm, hproduct⟩ := hinner rfl
  refine ⟨⟨u, i, hunion, hinter, ⟨(hu.mem_entries_iff 0 1).2 (by decide),
    (hu.mem_entries_iff 1 1).2 (by decide)⟩, (hi.mem_entries_iff 1 0).2 (by decide),
    fun h => absurd ((hi.mem_entries_iff 1 1).1 h) (by decide)⟩,
    ⟨m, (hm.mem_entries_iff 1 1).2 ⟨0, by decide⟩, hproduct⟩, hmap 1 1 0 (by decide +kernel)⟩

end Pattern

end SparseDiff
