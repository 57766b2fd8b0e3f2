import SparseDiff.Proofs.Pattern.Transpose

/-!
# Entries in row-major order

The entries of a well-formed pattern are in row-major order, and a list in this order is the
entries of the pattern built from it (`Pattern.RowMajor.entries_ofSortedEntries`). Sorting
brings any list into this order once repeated entries are dropped
(`Pattern.rowMajor_distinctEntries`).
-/

namespace SparseDiff

namespace Pattern

/-- Entries come row by row, and in a row from left to right. -/
abbrev RowMajor (entries : List (Nat × Nat)) : Prop :=
  entries.Pairwise fun a b => a.1 < b.1 ∨ a.1 = b.1 ∧ a.2 < b.2

theorem WellFormed.rowMajor
    {p : Pattern} (hp : p.WellFormed) :
    RowMajor p.entries :=
  pairwise_entriesFrom hp.increasing 0

theorem RowMajor.nodup
    {entries : List (Nat × Nat)} (h : RowMajor entries) :
    entries.Nodup := by
  refine h.imp fun {a b} hab heq => ?_
  subst heq
  omega

/-- Lists in row-major order are known by their entries. -/
theorem RowMajor.eq_of_mem_iff
    {xs ys : List (Nat × Nat)} (hx : RowMajor xs) (hy : RowMajor ys)
    (h : ∀ entry, entry ∈ xs ↔ entry ∈ ys) :
    xs = ys := by
  let before : Nat × Nat → Nat × Nat → Prop := fun a b => a.1 < b.1 ∨ a.1 = b.1 ∧ a.2 < b.2
  have : Std.Irrefl before := ⟨fun a ha => by unfold before at ha; omega⟩
  have : Std.Antisymm before := ⟨fun a b hab hba => by unfold before at hab hba; omega⟩
  exact List.Pairwise.eq_of_mem_iff (r := before) hx hy h

@[simp] theorem inOrder_iff
    {a b : Nat × Nat} :
    inOrder a b = true ↔ a.1 < b.1 ∨ a.1 = b.1 ∧ a.2 ≤ b.2 := by
  simp [inOrder]

theorem pairwise_mergeSort_inOrder
    (entries : List (Nat × Nat)) :
    (entries.mergeSort inOrder).Pairwise fun a b => inOrder a b = true := by
  refine List.pairwise_mergeSort (fun a b c => ?_) (fun a b => ?_) entries
  · rw [inOrder_iff, inOrder_iff, inOrder_iff]
    omega
  · rw [Bool.or_eq_true, inOrder_iff, inOrder_iff]
    omega

theorem before_of_inOrder
    {a b : Nat × Nat} (h : inOrder a b = true) (hne : a ≠ b) :
    a.1 < b.1 ∨ a.1 = b.1 ∧ a.2 < b.2 := by
  have hparts : ¬(a.1 = b.1 ∧ a.2 = b.2) := fun heq => hne (Prod.ext heq.1 heq.2)
  have hle := inOrder_iff.1 h
  omega

theorem rowMajor_of_nodup
    {entries : List (Nat × Nat)} (h : entries.Pairwise fun a b => inOrder a b = true)
    (hnodup : entries.Nodup) :
    RowMajor entries :=
  (h.and hnodup).imp fun hab => before_of_inOrder hab.1 hab.2

/--
`last` is the entry that was kept last and `kept` are those before it, backwards; the entries
still to come are in order behind `last`.
-/
theorem eraseReps_loop
    {last : Nat × Nat} {rest : List (Nat × Nat)} (kept : List (Nat × Nat))
    (hrest : (last :: rest).Pairwise fun a b => inOrder a b = true)
    (hkept : RowMajor (kept.reverse ++ [last])) :
    RowMajor (List.eraseRepsBy.loop (· == ·) last rest kept) ∧
      ∀ entry, entry ∈ List.eraseRepsBy.loop (· == ·) last rest kept ↔
        entry ∈ kept ∨ entry ∈ last :: rest := by
  induction rest generalizing last kept with
  | nil =>
      refine ⟨by simpa [List.eraseRepsBy.loop] using hkept, fun entry => ?_⟩
      simp [List.eraseRepsBy.loop, or_comm]
  | cons next rest ih =>
      unfold List.eraseRepsBy.loop
      by_cases heq : last = next
      · subst heq
        obtain ⟨hmajor, hmem⟩ := ih kept hrest.of_cons hkept
        simp only [beq_self_eq_true]
        refine ⟨hmajor, fun entry => ?_⟩
        rw [hmem, List.mem_cons (a := entry) (b := last) (l := last :: rest)]
        simp
      · have hbefore := before_of_inOrder
          (List.rel_of_pairwise_cons hrest (List.mem_cons_self ..)) heq
        have hnext : RowMajor ((last :: kept).reverse ++ [next]) := by
          rw [List.reverse_cons]
          refine List.pairwise_append.2 ⟨hkept, List.pairwise_singleton .., fun a ha b hb => ?_⟩
          obtain rfl := List.mem_singleton.1 hb
          rcases List.mem_append.1 ha with ha | ha
          · have hle := (List.pairwise_append.1 hkept).2.2 a ha last (List.mem_singleton_self _)
            omega
          · obtain rfl := List.mem_singleton.1 ha
            exact hbefore
        obtain ⟨hmajor, hmem⟩ := ih (last :: kept) hrest.of_cons hnext
        simp only [beq_eq_false_iff_ne.2 heq]
        refine ⟨hmajor, fun entry => ?_⟩
        rw [hmem, List.mem_cons, List.mem_cons (l := next :: rest), or_assoc, or_left_comm]

/-- In a sorted list repeated entries stand together, so that dropping repetitions leaves none. -/
theorem rowMajor_eraseReps
    {entries : List (Nat × Nat)} (h : entries.Pairwise fun a b => inOrder a b = true) :
    RowMajor entries.eraseReps ∧ ∀ entry, entry ∈ entries.eraseReps ↔ entry ∈ entries := by
  cases entries with
  | nil => exact ⟨List.Pairwise.nil, fun _ => Iff.rfl⟩
  | cons first rest =>
      obtain ⟨hmajor, hmem⟩ := eraseReps_loop [] h (List.pairwise_singleton ..)
      exact ⟨hmajor, fun entry => (hmem entry).trans (by simp)⟩

theorem rowMajor_distinctEntries
    (entries : List (Nat × Nat)) :
    RowMajor (distinctEntries entries) :=
  (rowMajor_eraseReps (pairwise_mergeSort_inOrder entries)).1

theorem mem_distinctEntries_iff
    {entries : List (Nat × Nat)} {entry : Nat × Nat} :
    entry ∈ distinctEntries entries ↔ entry ∈ entries := by
  rw [distinctEntries, (rowMajor_eraseReps (pairwise_mergeSort_inOrder entries)).2,
    List.mem_mergeSort]

theorem length_distinctEntries
    (entries : List (Nat × Nat)) :
    (distinctEntries entries).length = entries.toFinset.card := by
  rw [← List.toFinset_card_of_nodup (rowMajor_distinctEntries entries).nodup]
  congr 1
  ext entry
  rw [List.mem_toFinset, List.mem_toFinset, mem_distinctEntries_iff]

/-- Neither the order of coordinates nor how often they are listed matters. -/
theorem distinctEntries_congr
    {entries entries' : List (Nat × Nat)} (h : ∀ entry, entry ∈ entries' ↔ entry ∈ entries) :
    distinctEntries entries' = distinctEntries entries := by
  refine (rowMajor_distinctEntries entries').eq_of_mem_iff (rowMajor_distinctEntries entries)
    fun entry => ?_
  rw [mem_distinctEntries_iff, h, mem_distinctEntries_iff]

section Entries

variable {nrow ncol : Nat} {entries : List (Nat × Nat)}

theorem shape_ofSortedEntries
    (nrow ncol : Nat) (entries : List (Nat × Nat)) :
    (ofSortedEntries nrow ncol entries).shape = (nrow, ncol) := by
  simp [ofSortedEntries, shape, Pattern.nrow]

theorem row_ofSortedEntries
    {r : Nat} (hr : r < nrow) :
    (ofSortedEntries nrow ncol entries).row r = (entries.filter (·.1 == r)).map Prod.snd := by
  simp [ofSortedEntries, row, Array.getD_eq_getD_getElem?, getElem?_sortInto nrow entries hr]

theorem mem_row_ofSortedEntries_iff
    {r c : Nat} (hr : r < nrow) :
    c ∈ (ofSortedEntries nrow ncol entries).row r ↔ (r, c) ∈ entries := by
  simp [row_ofSortedEntries hr]

/-- Building a pattern from a list in row-major order keeps it, row by row. -/
theorem RowMajor.entries_ofSortedEntries
    (h : RowMajor entries) (hin : ∀ entry ∈ entries, entry.1 < nrow ∧ entry.2 < ncol) :
    (ofSortedEntries nrow ncol entries).WellFormed ∧
      (ofSortedEntries nrow ncol entries).entries = entries := by
  have hnrow : (ofSortedEntries nrow ncol entries).nrow = nrow :=
    congrArg Prod.fst (shape_ofSortedEntries nrow ncol entries)
  have hmem : ∀ r c, c ∈ (ofSortedEntries nrow ncol entries).row r ↔ (r, c) ∈ entries := by
    intro r c
    constructor
    · intro hc
      have hr := lt_nrow_of_mem_row hc
      rw [hnrow] at hr
      exact (mem_row_ofSortedEntries_iff hr).1 hc
    · exact fun hc => (mem_row_ofSortedEntries_iff (hin _ hc).1).2 hc
  have hwf : (ofSortedEntries nrow ncol entries).WellFormed := by
    refine wellFormed_of_rows fun r hr => ⟨?_, fun c hc => (hin _ ((hmem r c).1 hc)).2⟩
    rw [hnrow] at hr
    rw [row_ofSortedEntries hr, List.pairwise_map]
    refine (h.filter _).imp_of_mem fun {a b} ha hb hab => ?_
    have ha : a.1 = r := by simpa using (List.mem_filter.1 ha).2
    have hb : b.1 = r := by simpa using (List.mem_filter.1 hb).2
    omega
  refine ⟨hwf, hwf.rowMajor.eq_of_mem_iff h fun (r, c) => ?_⟩
  rw [mem_entries_iff, hmem]

end Entries

end Pattern

end SparseDiff
