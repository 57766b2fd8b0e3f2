import SparseDiff.Graph.Node
import SparseDiff.Proofs.Pattern.Sorted
import SparseDiff.Proofs.Run

/-!
# Unions and full patterns

A union has the nonzeros of both patterns, since the merge of two increasing rows is an
increasing row with the items of both. A filled pattern has every entry; so has one with as
many nonzeros as entries.
-/

namespace SparseDiff

namespace Pattern

theorem mem_mergeRows_iff
    {as bs : List Nat} {c : Nat} :
    c ∈ mergeRows as bs ↔ c ∈ as ∨ c ∈ bs := by
  induction as, bs using mergeRows.induct with
  | case1 bs => simp [mergeRows]
  | case2 a as => simp [mergeRows]
  | case3 a as b bs hlt ih =>
      rw [mergeRows, if_pos hlt, List.mem_cons, ih, ← or_assoc, ← List.mem_cons]
  | case4 a as b bs hge hlt ih =>
      rw [mergeRows, if_neg hge, if_pos hlt, List.mem_cons, ih]
      grind
  | case5 a as b bs hge hle ih =>
      have heq : a = b := by omega
      subst heq
      rw [mergeRows, if_neg hge, if_neg hle, List.mem_cons, ih]
      grind

theorem mergeRows_increasing
    {as bs : List Nat} (ha : as.Pairwise (· < ·)) (hb : bs.Pairwise (· < ·)) :
    (mergeRows as bs).Pairwise (· < ·) := by
  induction as, bs using mergeRows.induct with
  | case1 bs => simpa [mergeRows] using hb
  | case2 a as => simpa [mergeRows] using ha
  | case3 a as b bs hlt ih =>
      rw [mergeRows, if_pos hlt]
      refine List.pairwise_cons.2 ⟨fun c hc => ?_, ih ha.of_cons hb⟩
      rcases mem_mergeRows_iff.1 hc with hc | hc
      · exact List.rel_of_pairwise_cons ha hc
      · rcases List.mem_cons.1 hc with rfl | hc
        · exact hlt
        · exact hlt.trans (List.rel_of_pairwise_cons hb hc)
  | case4 a as b bs hge hlt ih =>
      rw [mergeRows, if_neg hge, if_pos hlt]
      refine List.pairwise_cons.2 ⟨fun c hc => ?_, ih ha hb.of_cons⟩
      rcases mem_mergeRows_iff.1 hc with hc | hc
      · rcases List.mem_cons.1 hc with rfl | hc
        · exact hlt
        · exact hlt.trans (List.rel_of_pairwise_cons ha hc)
      · exact List.rel_of_pairwise_cons hb hc
  | case5 a as b bs hge hle ih =>
      have heq : a = b := by omega
      subst heq
      rw [mergeRows, if_neg hge, if_neg hle]
      refine List.pairwise_cons.2 ⟨fun c hc => ?_, ih ha.of_cons hb.of_cons⟩
      rcases mem_mergeRows_iff.1 hc with hc | hc
      · exact List.rel_of_pairwise_cons ha hc
      · exact List.rel_of_pairwise_cons hb hc

/-- The union of patterns of one shape has the nonzeros of both. -/
theorem union_eq_ok
    {p q u : Pattern} (hp : p.WellFormed) (hq : q.WellFormed) (hshape : p.shape = q.shape)
    (h : p.union q = .ok u) :
    u.WellFormed ∧ ∀ r c, c ∈ u.row r ↔ c ∈ p.row r ∨ c ∈ q.row r := by
  obtain ⟨_, -, h⟩ := bind_eq_ok_iff.1 h
  cases h
  have hnrow : p.rows.size = q.rows.size := congrArg Prod.fst hshape
  have hncol : p.ncol = q.ncol := congrArg Prod.snd hshape
  have hrow : ∀ r, (Pattern.mk p.ncol (p.rows.zipWith mergeRows q.rows)).row r =
      mergeRows (p.row r) (q.row r) := by
    intro r
    rcases Nat.lt_or_ge r p.rows.size with hr | hr
    · simp [row, Array.getD_eq_getD_getElem?, hr, hnrow ▸ hr]
    · simp [row, Array.getD_eq_getD_getElem?, hr, hnrow ▸ hr, mergeRows]
  refine ⟨wellFormed_of_rows fun r _ => ⟨?_, fun c hc => ?_⟩, fun r c => ?_⟩
  · rw [hrow]
    exact mergeRows_increasing (hp.row_increasing r) (hq.row_increasing r)
  · rw [hrow, mem_mergeRows_iff] at hc
    rcases hc with hc | hc
    · exact hp.lt_ncol hc
    · exact hncol ▸ hq.lt_ncol hc
  · rw [hrow, mem_mergeRows_iff]

/-- Every entry is a nonzero. -/
def Full (p : Pattern) : Prop := ∀ r < p.nrow, ∀ c < p.ncol, c ∈ p.row r

theorem WellFormed.nodup_entries
    {p : Pattern} (hp : p.WellFormed) :
    p.entries.Nodup :=
  hp.rowMajor.nodup

/-- As many nonzeros as entries leave no entry out. -/
theorem full_of_isDense
    {p : Pattern} (hp : p.WellFormed) (h : p.isDense = true) :
    p.Full := by
  have hcard : p.entries.toFinset.card = p.nrow * p.ncol := by
    rw [List.toFinset_card_of_nodup hp.nodup_entries, length_entries]
    simpa [isDense, numel] using h
  have hsub : p.entries.toFinset ⊆ Finset.range p.nrow ×ˢ Finset.range p.ncol := by
    rintro ⟨r, c⟩ hmem
    have hmem := mem_entries_iff.1 (List.mem_toFinset.1 hmem)
    simp [lt_nrow_of_mem_row hmem, hp.lt_ncol hmem]
  have hall := Finset.eq_of_subset_of_card_le hsub (by simp [hcard])
  intro r hr c hc
  have hmem : (r, c) ∈ p.entries.toFinset := by
    rw [hall]
    simp [hr, hc]
  exact mem_entries_iff.1 (List.mem_toFinset.1 hmem)

theorem wellFormed_scalar :
    scalar.WellFormed := by
  constructor <;> simp [scalar]

theorem dense_eq_ok
    {nrow ncol : Nat} {p : Pattern} (h : dense nrow ncol = .ok p) :
    p.WellFormed ∧ p.Full := by
  obtain ⟨-, -, h⟩ := bind_eq_ok_iff.1 h
  obtain ⟨-, -, h⟩ := bind_eq_ok_iff.1 h
  cases h
  refine ⟨⟨fun cols hcols => ?_, fun cols hcols c hc => ?_⟩, fun r hr c hc => ?_⟩
  · obtain ⟨-, rfl⟩ := List.mem_replicate.1 (Array.toList_replicate ▸ hcols)
    exact List.pairwise_lt_range
  · obtain ⟨-, rfl⟩ := List.mem_replicate.1 (Array.toList_replicate ▸ hcols)
    exact List.mem_range.1 hc
  · have hr' : r < nrow := by simpa [Pattern.nrow] using hr
    simpa [row, Array.getD_eq_getD_getElem?, hr'] using hc

theorem fill_eq_ok
    {p q : Pattern} (hp : p.WellFormed) (h : fill p = .ok q) :
    q.WellFormed ∧ q.Full := by
  unfold fill at h
  split at h
  · next hdense =>
      cases h
      exact ⟨hp, full_of_isDense hp hdense⟩
  · exact dense_eq_ok h

end Pattern

end SparseDiff
