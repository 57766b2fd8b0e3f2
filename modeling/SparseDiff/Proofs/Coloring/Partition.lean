import SparseDiff.Proofs.Coloring.Recovery

/-!
# Partitions are sound, and the cheapest is chosen

Every mode partitions every well-formed pattern, and every nonzero is read from one sum in
which nothing else stands at its place (`Partition.Covers`). A row without nonzeros is in no
adjoint sweep, forward splits have no adjoint colors and adjoint splits no forward colors. The
automatic mode takes the split with the fewest sweeps, forward before adjoint before mixed
(`Partition.cheapest_three`).
-/

namespace SparseDiff

namespace Partition

variable {p : Pattern}

/--
Entry `(r, c)` is read from one sum: row `r` has an adjoint color, alone among the rows with a
nonzero in column `c`; or it has none, and column `c` has a forward color, alone among the
columns with a nonzero in row `r`.
-/
def Covers (parts : Partition) (p : Pattern) (r c : Nat) : Prop :=
  (∃ k, parts.adjoint.colorOf r = some k ∧
    ∀ r', c ∈ p.row r' → parts.adjoint.colorOf r' = some k → r' = r) ∨
  parts.adjoint.colorOf r = none ∧ ∃ k, parts.forward.colorOf c = some k ∧
    ∀ c' ∈ p.row r, parts.forward.colorOf c' = some k → c' = c

theorem Recoverable.covers
    {parts : Partition} (h : parts.Recoverable p) {r c : Nat} (hc : c ∈ p.row r) :
    parts.Covers p r c := by
  cases hr : parts.adjoint.colorOf r with
  | some k => exact .inl ⟨k, hr, fun r' hc' hk => h.adjoint_ne r' r c k hc' hc hk hr⟩
  | none =>
      obtain ⟨k, hk⟩ := Option.isSome_iff_exists.1 (h.forward.isSome r c hr hc)
      refine .inr ⟨hr, k, hk, fun c' hc' hk' => ?_⟩
      by_contra hne
      exact h.forward.ne r c' c hr hc' hc hne (hk'.trans hk.symm)

/-- A row without nonzeros gets no adjoint color, whatever the mode. -/
theorem adjoint_choose_of_empty
    (hp : p.WellFormed) (mode : SweepMode) {r : Nat} (hr : p.row r = []) :
    (choose p mode).adjoint.colorOf r = none := by
  obtain ⟨threshold, heq⟩ := exists_choose_eq_split p mode
  rw [heq, ← Option.not_isSome_iff_eq_none, (adjoint_split_spec hp threshold).2.1, hr]
  exact Nat.not_lt_zero threshold

/-- No row is longer than the threshold of the forward split. -/
theorem length_row_le
    (p : Pattern) (r : Nat) :
    (p.row r).length ≤ (p.rows.toList.map List.length).foldl max 0 := by
  rcases Nat.lt_or_ge r p.rows.size with hr | hr
  · have hmem : (p.row r).length ∈ p.rows.toList.map List.length := by
      refine List.mem_map.2 ⟨p.row r, ?_, rfl⟩
      rw [Pattern.row, Array.getD_eq_getD_getElem?, Array.getElem?_eq_getElem hr]
      exact Array.getElem_mem_toList ..
    rw [List.foldl_eq_foldr]
    exact List.le_max_of_le hmem (Nat.le_refl _)
  · rw [Pattern.row, Array.getD_eq_getD_getElem?, Array.getElem?_eq_none hr]
    exact Nat.zero_le _

theorem adjoint_forwardOnly
    (hp : p.WellFormed) (r : Nat) :
    (forwardOnly p).adjoint.colorOf r = none := by
  rw [forwardOnly, ← Option.not_isSome_iff_eq_none, (adjoint_split_spec hp _).2.1, Nat.not_lt]
  exact length_row_le p r

theorem forward_adjointOnly
    (hp : p.WellFormed) (c : Nat) :
    (adjointOnly p).forward.colorOf c = none := by
  rw [adjointOnly, ← Option.not_isSome_iff_eq_none, (forward_split_spec hp 0).2.1]
  rintro ⟨r, hlight, hc⟩
  have hpos := List.length_pos_of_mem hc
  omega

/-- The cheapest of three has the fewest sweeps, and on a tie it is the first that has. -/
theorem cheapest_three
    (a b c : Partition) :
    (cheapest a [b, c]).nsweeps = min a.nsweeps (min b.nsweeps c.nsweeps) ∧
      cheapest a [b, c] =
        if a.nsweeps = (cheapest a [b, c]).nsweeps then a
        else if b.nsweeps = (cheapest a [b, c]).nsweeps then b
        else c := by
  have htwo : cheapest a [b, c] =
      if c.nsweeps < (if b.nsweeps < a.nsweeps then b else a).nsweeps then c
      else if b.nsweeps < a.nsweeps then b else a := rfl
  rw [htwo]
  by_cases hba : b.nsweeps < a.nsweeps
  · rw [if_pos hba]
    by_cases hcb : c.nsweeps < b.nsweeps
    · rw [if_pos hcb, if_neg (by omega), if_neg (by omega)]
      exact ⟨by omega, rfl⟩
    · rw [if_neg hcb, if_neg (by omega), if_pos rfl]
      exact ⟨by omega, rfl⟩
  · rw [if_neg hba]
    by_cases hca : c.nsweeps < a.nsweeps
    · rw [if_pos hca, if_neg (by omega), if_neg (by omega)]
      exact ⟨by omega, rfl⟩
    · rw [if_neg hca, if_pos rfl]
      exact ⟨by omega, rfl⟩

/--
Every mode partitions a well-formed pattern, and the partition covers every nonzero. Rows
without nonzeros have no adjoint color, in forward mode no row has one, in adjoint mode no
column has a forward color. The automatic mode returns what forward mode returns if that has
the fewest sweeps of the three other modes, else what adjoint mode returns if that has, else
what bidirectional mode returns.
-/
theorem ofPattern_sound
    (hp : p.WellFormed) :
    (∀ mode, ∃ parts, ofPattern p mode = .ok parts ∧
      parts.forward.colors.size = p.ncol ∧ parts.adjoint.colors.size = p.nrow ∧
      (∀ r, ∀ c ∈ p.row r, parts.Covers p r c) ∧
      (∀ r, p.row r = [] → parts.adjoint.colorOf r = none) ∧
      (mode = .forward → ∀ r, parts.adjoint.colorOf r = none) ∧
      (mode = .adjoint → ∀ c, parts.forward.colorOf c = none)) ∧
    ∃ forward adjoint mixed auto, ofPattern p .forward = .ok forward ∧
      ofPattern p .adjoint = .ok adjoint ∧ ofPattern p .bidirectional = .ok mixed ∧
      ofPattern p .auto = .ok auto ∧
      auto.nsweeps = min forward.nsweeps (min adjoint.nsweeps mixed.nsweeps) ∧
      auto = if forward.nsweeps = auto.nsweeps then forward
        else if adjoint.nsweeps = auto.nsweeps then adjoint else mixed := by
  constructor
  · intro mode
    obtain ⟨threshold, heq⟩ := exists_choose_eq_split p mode
    have hrecoverable : (choose p mode).Recoverable p := heq ▸ recoverable_split hp threshold
    have hcovers : ∀ r, ∀ c ∈ p.row r, (choose p mode).Covers p r c := by
      intro r c hc
      exact hrecoverable.covers hc
    have hempty : ∀ r, p.row r = [] → (choose p mode).adjoint.colorOf r = none := by
      intro r hnil
      exact adjoint_choose_of_empty hp mode hnil
    have hforward : mode = .forward → ∀ r, (choose p mode).adjoint.colorOf r = none := by
      rintro rfl r
      exact adjoint_forwardOnly hp r
    have hadjoint : mode = .adjoint → ∀ c, (choose p mode).forward.colorOf c = none := by
      rintro rfl c
      exact forward_adjointOnly hp c
    exact ⟨_, ofPattern_eq hp mode, hrecoverable.forward.size, hrecoverable.adjoint_size, hcovers,
      hempty, hforward, hadjoint⟩
  · refine ⟨_, _, _, _, ofPattern_eq hp _, ofPattern_eq hp _, ofPattern_eq hp _,
      ofPattern_eq hp _, ?_⟩
    exact cheapest_three (forwardOnly p) (adjointOnly p) (Partition.mixed p)

/-- Dense first row and column, and the diagonal. -/
def arrow : Pattern := ⟨4, #[[0, 1, 2, 3], [0, 1], [0, 2], [0, 3]]⟩

theorem wellFormed_arrow : arrow.WellFormed := ⟨by decide, by decide⟩

theorem ofPattern_sound_arrow :
    ∃ parts forward adjoint mixed, ofPattern arrow .auto = .ok parts ∧
      parts.Covers arrow 0 2 ∧ parts.Covers arrow 3 0 ∧
      ofPattern arrow .forward = .ok forward ∧ ofPattern arrow .adjoint = .ok adjoint ∧
      ofPattern arrow .bidirectional = .ok mixed ∧
      parts.nsweeps = min forward.nsweeps (min adjoint.nsweeps mixed.nsweeps) := by
  obtain ⟨hevery, forward, adjoint, mixed, parts, hforward, hadjoint, hmixed, hparts, hleast, -⟩ :=
    ofPattern_sound wellFormed_arrow
  obtain ⟨parts', hparts', -, -, hcovers, -⟩ := hevery .auto
  rw [hparts] at hparts'
  cases hparts'
  exact ⟨parts, forward, adjoint, mixed, hparts, hcovers 0 2 (by decide), hcovers 3 0 (by decide),
    hforward, hadjoint, hmixed, hleast⟩

/-- Its first row is left to an adjoint sweep; two forward sweeps do for the other rows. -/
example : ofPattern arrow .auto =
    .ok ⟨⟨#[some 0, some 1, some 1, some 1]⟩, ⟨#[some 0, none, none, none]⟩⟩ := by
  cbv

end Partition

end SparseDiff
