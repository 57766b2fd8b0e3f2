import SparseDiff.Coloring.Split
import SparseDiff.Proofs.Coloring.Verification

/-!
# Every entry of a pattern can be recovered

A partition leaves a row either to forward sweeps or to adjoint sweeps. In a forward row all
columns have colors of their own, and two adjoint rows of one color share no column
(`Partition.Recoverable`). Every mode chooses a split by a row length, every such split is
recoverable, and so the verification of the chosen one succeeds (`Partition.ofPattern_spec`).
-/

namespace SparseDiff

namespace Partition

/-- Columns with a nonzero in a light row have forward colors, and no light row has one twice. -/
theorem forward_split_spec
    {p : Pattern} (hp : p.WellFormed) (threshold : Nat) :
    (split p threshold).forward.colors.size = p.ncol ∧
      (∀ c, ((split p threshold).forward.colorOf c).isSome ↔
        ∃ r, (p.row r).length ≤ threshold ∧ c ∈ p.row r) ∧
      ∀ r a b, (p.row r).length ≤ threshold → a ∈ p.row r → b ∈ p.row r → a ≠ b →
        (split p threshold).forward.colorOf a ≠ (split p threshold).forward.colorOf b := by
  obtain ⟨hsize, hcolored, hne⟩ := Coloring.greedyColumns_spec hp
    (fun r c => Pattern.mem_row_transpose_iff hp)
    (fun r => !decide (threshold < (p.row r).length)) (fun _ => true)
  refine ⟨hsize, fun c => (hcolored c).trans (by simp), fun r a b hlight ha hb hab => ?_⟩
  exact hne r a b (by simpa using hlight) ha hb hab rfl rfl

/-- Heavy rows have adjoint colors, and no column has one twice. -/
theorem adjoint_split_spec
    {p : Pattern} (hp : p.WellFormed) (threshold : Nat) :
    (split p threshold).adjoint.colors.size = p.nrow ∧
      (∀ r, ((split p threshold).adjoint.colorOf r).isSome ↔ threshold < (p.row r).length) ∧
      ∀ r r' c k, c ∈ p.row r → c ∈ p.row r' →
        (split p threshold).adjoint.colorOf r = some k →
        (split p threshold).adjoint.colorOf r' = some k → r = r' := by
  obtain ⟨hsize, hcolored, hne⟩ := Coloring.greedyColumns_spec hp.transpose
    (fun c r => (Pattern.mem_row_transpose_iff hp).symm)
    (fun _ => true) (fun r => decide (threshold < (p.row r).length))
  have hheavy : ∀ r, ((split p threshold).adjoint.colorOf r).isSome ↔
      threshold < (p.row r).length := by
    intro r
    refine (hcolored r).trans ?_
    rw [decide_eq_true_eq, and_iff_left_iff_imp]
    intro hlt
    obtain ⟨c, hc⟩ := List.exists_mem_of_length_pos (Nat.lt_of_le_of_lt (Nat.zero_le _) hlt)
    exact ⟨c, rfl, (Pattern.mem_row_transpose_iff hp).2 hc⟩
  refine ⟨hsize.trans (Pattern.ncol_transpose p), hheavy, fun r r' c k hc hc' hk hk' => ?_⟩
  by_contra hdiff
  have hvertex : ∀ {r}, (split p threshold).adjoint.colorOf r = some k →
      decide (threshold < (p.row r).length) = true := fun hk =>
    decide_eq_true ((hheavy _).1 (Option.isSome_iff_exists.2 ⟨k, hk⟩))
  exact hne c r r' rfl ((Pattern.mem_row_transpose_iff hp).2 hc)
    ((Pattern.mem_row_transpose_iff hp).2 hc') hdiff (hvertex hk) (hvertex hk') (hk.trans hk'.symm)

/-- Splitting by a row length makes every entry recoverable. -/
theorem recoverable_split
    {p : Pattern} (hp : p.WellFormed) (threshold : Nat) :
    (split p threshold).Recoverable p := by
  obtain ⟨hsize, hcolored, hne⟩ := forward_split_spec hp threshold
  obtain ⟨hsize', hheavy, hne'⟩ := adjoint_split_spec hp threshold
  have hlight : ∀ {r}, (split p threshold).adjoint.colorOf r = none →
      (p.row r).length ≤ threshold := by
    intro r hnone
    refine Nat.not_lt.1 fun hlt => ?_
    have hsome := (hheavy r).2 hlt
    rw [hnone] at hsome
    exact Bool.false_ne_true hsome
  refine ⟨⟨hsize, fun r c hnone hc => ?_, fun r a b hnone ha hb hab => ?_⟩, hsize', hne'⟩
  · exact (hcolored c).2 ⟨r, hlight hnone, hc⟩
  · exact hne r a b (hlight hnone) ha hb hab

theorem cheapest_mem
    (first : Partition) (others : List Partition) :
    cheapest first others ∈ first :: others := by
  unfold cheapest
  induction others generalizing first with
  | nil => simp
  | cons q others ih =>
      rw [List.foldl_cons]
      split
      · exact List.mem_cons_of_mem _ (ih q)
      · rcases List.mem_cons.1 (ih first) with heq | hmem
        · rw [heq]
          exact List.mem_cons_self ..
        · exact List.mem_cons_of_mem _ (List.mem_cons_of_mem _ hmem)

/-- Whatever the mode, the choice is a split by some row length. -/
theorem exists_choose_eq_split
    (p : Pattern) (mode : SweepMode) :
    ∃ threshold, choose p mode = split p threshold := by
  have hmixed : ∃ threshold, mixed p = split p threshold := by
    unfold mixed
    split
    · exact ⟨0, rfl⟩
    · next first others heq =>
        have hmem := cheapest_mem first others
        rw [← heq] at hmem
        obtain ⟨threshold, -, hthreshold⟩ := List.mem_map.1 hmem
        exact ⟨threshold, hthreshold.symm⟩
  cases mode with
  | forward => exact ⟨_, rfl⟩
  | adjoint => exact ⟨_, rfl⟩
  | bidirectional => exact hmixed
  | auto =>
      have hmem := cheapest_mem (forwardOnly p) [adjointOnly p, mixed p]
      simp only [List.mem_cons, List.not_mem_nil, or_false] at hmem
      rcases hmem with heq | heq | heq
      · exact ⟨_, heq⟩
      · exact ⟨_, heq⟩
      · obtain ⟨threshold, hthreshold⟩ := hmixed
        exact ⟨threshold, heq.trans hthreshold⟩

theorem ofPattern_eq
    {p : Pattern} (hp : p.WellFormed) (mode : SweepMode) :
    ofPattern p mode = .ok (choose p mode) := by
  obtain ⟨threshold, heq⟩ := exists_choose_eq_split p mode
  have hrecoverable := recoverable_split hp threshold
  have hverified := (verifyPartition_eq_ok_iff hp hrecoverable.forward.size
    hrecoverable.adjoint_size).2 hrecoverable
  rw [← heq] at hverified
  simp only [ofPattern, hverified, bind, Except.bind]
  rfl

/-- Every mode gives a partition from which all entries are recovered. -/
theorem ofPattern_spec
    {p : Pattern} (hp : p.WellFormed) (mode : SweepMode) :
    ∃ parts, ofPattern p mode = .ok parts ∧ parts.Recoverable p := by
  obtain ⟨threshold, heq⟩ := exists_choose_eq_split p mode
  exact ⟨_, ofPattern_eq hp mode, heq ▸ recoverable_split hp threshold⟩

end Partition

end SparseDiff
