import SparseDiff.Proofs.Coloring.Partition

/-!
# Which thresholds are compared

A split depends on its threshold only through the rows that are heavier (`Partition.split_congr`),
so the lengths of the rows stand for all thresholds that are not below every row
(`Partition.exists_rowLength`). The split over these is the cheapest of them. Below the shortest row
all thresholds give the adjoint split, which is compared only if some row is empty or the mode is
the automatic one (`Partition.bidirectional_least`).
-/

namespace SparseDiff

namespace Partition

variable {p : Pattern} {s t : Nat}

theorem mem_insertSorted_iff
    {x y : Nat} {ys : List Nat} :
    y ∈ insertSorted x ys ↔ y = x ∨ y ∈ ys := by
  induction ys with
  | nil => simp [insertSorted]
  | cons z ys ih =>
      unfold insertSorted
      split
      · simp
      · split
        · next heq => simp [heq]
        · simp [ih, or_left_comm]

/-- The lengths that are tried are those of the rows. -/
theorem mem_rowLengths_iff :
    t ∈ rowLengths p ↔ ∃ r < p.nrow, (p.row r).length = t := by
  have hfold : ∀ lengths : List Nat, t ∈ lengths.foldr insertSorted [] ↔ t ∈ lengths := by
    intro lengths
    induction lengths with
    | nil => rfl
    | cons n lengths ih => rw [List.foldr_cons, mem_insertSorted_iff, ih, List.mem_cons]
  rw [rowLengths, hfold, List.mem_map]
  constructor
  · rintro ⟨cols, hcols, rfl⟩
    obtain ⟨r, hr⟩ := List.mem_iff_getElem?.1 hcols
    have hlt := (List.getElem?_eq_some_iff.1 hr).1
    rw [Array.length_toList] at hlt
    exact ⟨r, hlt, by rw [Pattern.row_eq_of_getElem? hr]⟩
  · rintro ⟨r, hr, rfl⟩
    have hlt : r < p.rows.size := hr
    refine ⟨p.row r, ?_, rfl⟩
    rw [Pattern.row, Array.getD_eq_getD_getElem?, Array.getElem?_eq_getElem hlt]
    exact Array.getElem_mem_toList ..

/-- Thresholds that no row tells apart split a pattern alike. -/
theorem split_congr
    (h : ∀ r < p.nrow, s < (p.row r).length ↔ t < (p.row r).length) :
    split p s = split p t := by
  have hheavy : ∀ r, decide (s < (p.row r).length) = decide (t < (p.row r).length) := by
    intro r
    rcases Nat.lt_or_ge r p.nrow with hr | hr
    · exact decide_eq_decide.2 (h r hr)
    · have hnone : p.rows[r]? = none := Array.getElem?_eq_none hr
      simp [Pattern.row, Array.getD_eq_getD_getElem?, hnone]
  simp only [split, hheavy]

/-- A threshold that is not below every row splits like the longest row that it does not exceed. -/
theorem exists_rowLength
    (h : ∃ r < p.nrow, (p.row r).length ≤ t) :
    ∃ s ∈ rowLengths p, split p t = split p s := by
  obtain ⟨r, hr, hle⟩ := h
  have hmem : (p.row r).length ∈ rowLengths p := mem_rowLengths_iff.2 ⟨r, hr, rfl⟩
  refine ⟨Nat.findGreatest (· ∈ rowLengths p) t,
    Nat.findGreatest_spec (P := (· ∈ rowLengths p)) hle hmem, split_congr fun r' hr' => ?_⟩
  have hbelow := Nat.findGreatest_le (P := (· ∈ rowLengths p)) t
  refine ⟨fun hlt => by omega, fun hlt => Nat.not_le.1 fun hle' => ?_⟩
  have hleast := Nat.le_findGreatest (P := (· ∈ rowLengths p)) hle'
    (mem_rowLengths_iff.2 ⟨r', hr', rfl⟩)
  omega

/-- Below every row there is one split, that of the adjoint mode. -/
theorem split_eq_adjointOnly
    (h : ∀ r < p.nrow, t < (p.row r).length) :
    split p t = adjointOnly p :=
  split_congr fun r hr => iff_of_true (h r hr) (Nat.zero_lt_of_lt (h r hr))

theorem cheapest_le
    {first q : Partition} {others : List Partition} (h : q ∈ first :: others) :
    (cheapest first others).nsweeps ≤ q.nsweeps := by
  unfold cheapest
  induction others generalizing first q with
  | nil => rw [List.mem_singleton.1 h]; rfl
  | cons q' others ih =>
      rw [List.foldl_cons]
      have hstep : (if q'.nsweeps < first.nsweeps then q' else first).nsweeps ≤ first.nsweeps ∧
          (if q'.nsweeps < first.nsweeps then q' else first).nsweeps ≤ q'.nsweeps := by
        split <;> omega
      have hfirst := ih (List.mem_cons_self (a := if q'.nsweeps < first.nsweeps then q' else first))
      rcases List.mem_cons.1 h with rfl | h
      · exact hfirst.trans hstep.1
      · rcases List.mem_cons.1 h with rfl | h
        · exact hfirst.trans hstep.2
        · exact ih (List.mem_cons_of_mem _ h)

/-- No row length as a threshold gives fewer sweeps than the mixed split. -/
theorem mixed_le
    (h : t ∈ rowLengths p) :
    (mixed p).nsweeps ≤ (split p t).nsweeps := by
  have hmem : split p t ∈ (rowLengths p).map (split p) := List.mem_map_of_mem h
  unfold mixed
  split
  · next hnil => simp [hnil] at hmem
  · next first others heq =>
      rw [heq] at hmem
      exact cheapest_le hmem

/-- Without rows all splits are the same. -/
theorem mixed_of_nrow_eq_zero
    (h : p.nrow = 0) (t : Nat) :
    mixed p = split p t := by
  have hnil : rowLengths p = [] := List.eq_nil_iff_forall_not_mem.2 fun s hs => by
    obtain ⟨r, hr, -⟩ := mem_rowLengths_iff.1 hs
    omega
  rw [mixed, hnil]
  exact split_congr fun r hr => by omega

theorem mixed_le_split
    (h : p.nrow = 0 ∨ ∃ r < p.nrow, (p.row r).length ≤ t) :
    (mixed p).nsweeps ≤ (split p t).nsweeps := by
  rcases h with hnone | hsome
  · rw [mixed_of_nrow_eq_zero hnone t]
  · obtain ⟨s, hs, heq⟩ := exists_rowLength hsome
    rw [heq]
    exact mixed_le hs

theorem mixed_le_forwardOnly
    (p : Pattern) :
    (mixed p).nsweeps ≤ (forwardOnly p).nsweeps := by
  rcases Nat.eq_zero_or_pos p.nrow with hnone | hpos
  · exact mixed_le_split (.inl hnone)
  · exact mixed_le_split (.inr ⟨0, hpos, length_row_le p 0⟩)

/--
The bidirectional mode partitions every well-formed pattern by some threshold. It takes at most as
many sweeps as the split at any threshold that some row does not exceed, and at most as many as the
forward mode. Thresholds that all rows exceed give the split of the adjoint mode, and with that one
too the automatic mode compares: it takes at most as many sweeps as the split at any threshold.
-/
theorem bidirectional_least
    (hp : p.WellFormed) :
    ∃ forward adjoint mixed auto, ofPattern p .forward = .ok forward ∧
      ofPattern p .adjoint = .ok adjoint ∧ ofPattern p .bidirectional = .ok mixed ∧
      ofPattern p .auto = .ok auto ∧ (∃ t, mixed = split p t) ∧
      (∀ t, (p.nrow = 0 ∨ ∃ r < p.nrow, (p.row r).length ≤ t) →
        mixed.nsweeps ≤ (split p t).nsweeps) ∧
      mixed.nsweeps ≤ forward.nsweeps ∧
      (∀ t, (∀ r < p.nrow, t < (p.row r).length) → split p t = adjoint) ∧
      ∀ t, auto.nsweeps ≤ (split p t).nsweeps := by
  have hmixed : ∀ t, (p.nrow = 0 ∨ ∃ r < p.nrow, (p.row r).length ≤ t) →
      (Partition.mixed p).nsweeps ≤ (split p t).nsweeps := by
    intro t ht
    exact mixed_le_split ht
  have hadjoint : ∀ t, (∀ r < p.nrow, t < (p.row r).length) → split p t = adjointOnly p := by
    intro t hheavy
    exact split_eq_adjointOnly hheavy
  have hchosen : ∀ q ∈ [adjointOnly p, Partition.mixed p],
      (choose p .auto).nsweeps ≤ q.nsweeps := fun q hq => cheapest_le (List.mem_cons_of_mem _ hq)
  have hauto : ∀ t, (choose p .auto).nsweeps ≤ (split p t).nsweeps := by
    intro t
    by_cases hlight : ∃ r < p.nrow, (p.row r).length ≤ t
    · exact (hchosen _ (by simp)).trans (hmixed t (.inr hlight))
    · have hheavy : ∀ r < p.nrow, t < (p.row r).length := fun r hr =>
        Nat.not_le.1 fun hle => hlight ⟨r, hr, hle⟩
      rw [hadjoint t hheavy]
      exact hchosen _ (by simp)
  exact ⟨_, _, _, _, ofPattern_eq hp _, ofPattern_eq hp _, ofPattern_eq hp _, ofPattern_eq hp _,
    exists_choose_eq_split p .bidirectional, hmixed, mixed_le_forwardOnly p, hadjoint, hauto⟩

theorem bidirectional_least_arrow :
    ∃ adjoint mixed auto, ofPattern arrow .adjoint = .ok adjoint ∧
      ofPattern arrow .bidirectional = .ok mixed ∧ ofPattern arrow .auto = .ok auto ∧
      mixed.nsweeps ≤ (split arrow 3).nsweeps ∧ split arrow 1 = adjoint ∧
      auto.nsweeps ≤ (split arrow 1).nsweeps := by
  obtain ⟨-, adjoint, mixed, auto, -, hadjoint, hmixed, hauto, -, hleast, -, hheavy, hall⟩ :=
    bidirectional_least wellFormed_arrow
  exact ⟨adjoint, mixed, auto, hadjoint, hmixed, hauto,
    hleast 3 (.inr ⟨1, by decide, by decide⟩), hheavy 1 (by decide), hall 1⟩

/-- One row without zeros. -/
def fullRow : Pattern := ⟨2, #[[0, 1]]⟩

/-- The threshold below the only row is not tried: one adjoint sweep would do for two. -/
theorem bidirectional_misses_adjoint :
    fullRow.WellFormed ∧ ∃ adjoint mixed, ofPattern fullRow .adjoint = .ok adjoint ∧
      ofPattern fullRow .bidirectional = .ok mixed ∧ split fullRow 0 = adjoint ∧
      adjoint.nsweeps = 1 ∧ mixed.nsweeps = 2 := by
  have hfull : fullRow.WellFormed := ⟨by decide, by decide⟩
  exact ⟨hfull, _, _, ofPattern_eq hfull _, ofPattern_eq hfull _, rfl, by cbv, by cbv⟩

end Partition

end SparseDiff
