import SparseDiff.Assembly.Hessian
import SparseDiff.Proofs.Coloring.Recovery

/-!
# Reading entries from sums

The batches together hold every direction, and none of them is larger than allowed
(`exists_mem_batches`, `length_select_le`). An entry of a pattern that some batch recovers,
and that none recovers differently, ends up in the values (`getElem?_foldl_overlay`). In a
sum over the vertices of a color one summand is left if the others vanish
(`sum_indicator_mul`).
-/

namespace SparseDiff

theorem length_select_le
    {α : Type} (b : Batch) (items : List α) :
    (b.select items).length ≤ b.stop - b.start := by
  simp only [Batch.select, List.length_take]
  exact Nat.min_le_left ..

theorem mem_of_mem_select
    {α : Type} {b : Batch} {items : List α} {x : α} (h : x ∈ b.select items) :
    x ∈ items :=
  List.mem_of_mem_drop (List.mem_of_mem_take h)

theorem mem_batches_iff
    {n size : Nat} {b : Batch} :
    b ∈ batches n size ↔ ∃ k, k * max size 1 < n ∧
      b = ⟨k * max size 1, min (k * max size 1 + size) n⟩ := by
  unfold batches
  rw [List.mem_map]
  have hpos : 0 < max size 1 := by omega
  constructor
  · rintro ⟨k, hk, rfl⟩
    rw [List.mem_range, Nat.lt_div_iff_mul_lt hpos] at hk
    exact ⟨k, by omega, rfl⟩
  · rintro ⟨k, hk, rfl⟩
    refine ⟨k, ?_, rfl⟩
    rw [List.mem_range, Nat.lt_div_iff_mul_lt hpos]
    omega

@[simp] theorem batches_zero
    (size : Nat) :
    batches 0 size = [] := by
  refine List.eq_nil_iff_forall_not_mem.2 fun b hb => ?_
  obtain ⟨k, hk, -⟩ := mem_batches_iff.1 hb
  omega

/-- No batch is larger than asked for, and none reaches past the end. -/
theorem stop_of_mem_batches
    {n size : Nat} {b : Batch} (h : b ∈ batches n size) :
    b.stop - b.start ≤ size ∧ b.stop ≤ n := by
  obtain ⟨k, -, rfl⟩ := mem_batches_iff.1 h
  simp only
  omega

/-- Every number below `n` is in some batch. -/
theorem exists_mem_batches
    {n size k : Nat} (hsize : 1 ≤ size) (hk : k < n) :
    ∃ b ∈ batches n size, b.start ≤ k ∧ k < b.stop := by
  have hmax : max size 1 = size := by omega
  have hsum := Nat.div_add_mod' k size
  have hmod := Nat.mod_lt k (show 0 < size by omega)
  refine ⟨⟨k / size * size, min (k / size * size + size) n⟩, mem_batches_iff.2
    ⟨k / size, by rw [hmax]; omega, by rw [hmax]⟩, ?_, ?_⟩
  · simp only
    omega
  · simp only
    omega

/-- Every item is in some batch of the items. -/
theorem exists_mem_select
    {α : Type} {items : List α} {size : Nat} (hsize : 1 ≤ size) {x : α} (hx : x ∈ items) :
    ∃ b ∈ batches items.length size, x ∈ b.select items := by
  obtain ⟨k, hk⟩ := List.mem_iff_getElem?.1 hx
  obtain ⟨b, hb, hstart, hstop⟩ := exists_mem_batches hsize (List.getElem?_eq_some_iff.1 hk).1
  refine ⟨b, hb, List.mem_iff_getElem?.2 ⟨k - b.start, ?_⟩⟩
  rw [Batch.select, List.getElem?_take, if_pos (by omega), List.getElem?_drop,
    Nat.add_sub_cancel' hstart, hk]

section Overlay

variable {F : Type} {p : Pattern} {pick : Nat → Nat → Option F}

/-- Write the picked value of an entry at its number. -/
def writePicked (pick : Nat → Nat → Option F) (values : Array F) (item : (Nat × Nat) × Nat) :
    Array F :=
  match pick item.1.1 item.1.2 with
  | some v => values.setIfInBounds item.2 v
  | none => values

/-- The values that a list of entries writes, one after the other. -/
theorem getElem?_foldl_writePicked
    (pick : Nat → Nat → Option F) (entries : List (Nat × Nat)) (values : Array F) :
    (entries.zipIdx.foldl (writePicked pick) values).size = values.size ∧
      ∀ k, k < values.size → (entries.zipIdx.foldl (writePicked pick) values)[k]? =
        (entries[k]?.bind fun e => pick e.1 e.2).or values[k]? := by
  induction entries using List.reverseRecOn with
  | nil => exact ⟨rfl, fun k _ => rfl⟩
  | append_singleton entries e ih =>
      obtain ⟨hsize, hget⟩ := ih
      rw [List.zipIdx_append, List.foldl_append, Nat.zero_add, List.zipIdx_singleton,
        List.foldl_cons, List.foldl_nil]
      unfold writePicked at hsize hget ⊢
      cases hpick : pick e.1 e.2 with
      | none =>
          dsimp only
          refine ⟨hsize, fun k hk => ?_⟩
          rw [hget k hk]
          rcases Nat.lt_trichotomy k entries.length with hlt | rfl | hgt
          · rw [List.getElem?_append_left hlt]
          · simp [hpick]
          · rw [List.getElem?_eq_none (by omega), List.getElem?_eq_none (by simp; omega)]
      | some v =>
          dsimp only
          refine ⟨by rw [Array.size_setIfInBounds, hsize], fun k hk => ?_⟩
          rcases Nat.lt_trichotomy k entries.length with hlt | rfl | hgt
          · rw [Array.getElem?_setIfInBounds_ne (by omega), hget k hk,
              List.getElem?_append_left hlt]
          · rw [Array.getElem?_setIfInBounds_self_of_lt (by omega)]
            simp [hpick]
          · rw [Array.getElem?_setIfInBounds_ne (by omega), hget k hk,
              List.getElem?_eq_none (by omega), List.getElem?_eq_none (by simp; omega)]

@[simp] theorem size_overlay
    (p : Pattern) (pick : Nat → Nat → Option F) (values : Array F) :
    (overlay p pick values).size = values.size :=
  (getElem?_foldl_writePicked pick p.entries values).1

/-- The value at an entry: the picked one, or the old one. -/
theorem getElem?_overlay
    {k r c : Nat} (hk : p.entries[k]? = some (r, c)) {values : Array F}
    (hsize : values.size = p.nnz) :
    (overlay p pick values)[k]? = (pick r c).or values[k]? := by
  have hlt := (List.getElem?_eq_some_iff.1 hk).1
  rw [Pattern.length_entries] at hlt
  have hget := (getElem?_foldl_writePicked pick p.entries values).2 k (by omega)
  rw [hk] at hget
  exact hget

/-- An entry that some step recovers, and none recovers differently, is there at the end. -/
theorem getElem?_foldl_overlay
    {α : Type} {picks : α → Nat → Nat → Option F} {steps : List α} {k r c : Nat} {v : F}
    (hk : p.entries[k]? = some (r, c)) (hagree : ∀ b ∈ steps, ∀ x, picks b r c = some x → x = v) :
    ∀ {values : Array F}, values.size = p.nnz →
      (values[k]? = some v ∨ ∃ b ∈ steps, picks b r c = some v) →
      (steps.foldl (fun values b => overlay p (picks b) values) values)[k]? = some v := by
  induction steps with
  | nil =>
      rintro values - (hv | ⟨b, hb, -⟩)
      · exact hv
      · exact absurd hb List.not_mem_nil
  | cons b steps ih =>
      intro values hsize hv
      rw [List.foldl_cons]
      refine ih (fun b' hb' => hagree b' (List.mem_cons_of_mem _ hb'))
        (by rw [size_overlay, hsize]) ?_
      rw [getElem?_overlay hk hsize]
      cases hpick : picks b r c with
      | some x =>
          left
          rw [hagree b (List.mem_cons_self ..) x hpick]
          rfl
      | none =>
          rcases hv with hv | ⟨b', hb', hv⟩
          · exact .inl hv
          · rcases List.mem_cons.1 hb' with rfl | hb'
            · rw [hpick] at hv
              cases hv
            · exact .inr ⟨b', hb', hv⟩

theorem size_foldl_overlay
    {α : Type} (picks : α → Nat → Nat → Option F) (steps : List α) (values : Array F) :
    (steps.foldl (fun values b => overlay p (picks b) values) values).size = values.size := by
  induction steps generalizing values with
  | nil => rfl
  | cons b steps ih => rw [List.foldl_cons, ih, size_overlay]

/-- Steps that pick parts of `pick`, and together all of it, write what `pick` writes. -/
theorem foldl_overlay_eq
    {α : Type} {picks : α → Nat → Nat → Option F} {steps : List α}
    (hpart : ∀ b ∈ steps, ∀ r c x, picks b r c = some x → pick r c = some x)
    (hall : ∀ r c x, pick r c = some x → ∃ b ∈ steps, picks b r c = some x)
    {values : Array F} (hsize : values.size = p.nnz) :
    steps.foldl (fun values b => overlay p (picks b) values) values = overlay p pick values := by
  refine Array.ext_getElem? fun k => ?_
  rcases Nat.lt_or_ge k p.nnz with hlt | hge
  · obtain ⟨⟨r, c⟩, hk⟩ : ∃ entry, p.entries[k]? = some entry :=
      ⟨_, List.getElem?_eq_getElem (by rw [Pattern.length_entries]; exact hlt)⟩
    rw [getElem?_overlay hk hsize]
    cases hpick : pick r c with
    | some v =>
        refine getElem?_foldl_overlay hk (fun b hb x hx => ?_) hsize (.inr (hall r c v hpick))
        exact Option.some.inj ((hpart b hb r c x hx).symm.trans hpick)
    | none =>
        have hget : values[k]? = some values[k] := Array.getElem?_eq_getElem (by omega)
        rw [Option.none_or, hget]
        refine getElem?_foldl_overlay hk (fun b hb x hx => ?_) hsize (.inl hget)
        rw [hpart b hb r c x hx] at hpick
        cases hpick
  · rw [Array.getElem?_eq_none (by rw [size_foldl_overlay]; omega),
      Array.getElem?_eq_none (by rw [size_overlay]; omega)]

/-- The entries of a matrix, from the values on its pattern. -/
theorem get?_eq
    [Zero F] (hp : p.WellFormed) {values : Array F} {g : Nat → Nat → F}
    (hvalues : ∀ k r c : Nat, p.entries[k]? = some (r, c) → values[k]? = some (g r c)) {r c : Nat}
    (hr : r < p.nrow) (hc : c < p.ncol) (hzero : c ∉ p.row r → g r c = 0) :
    (SparseMatrix.mk p values).get? r c = some (g r c) := by
  unfold SparseMatrix.get?
  rw [if_pos ⟨hr, hc⟩]
  cases hindex : p.nzIndex? r c with
  | some k => exact hvalues k r c ((Pattern.nzIndex?_eq_some_iff hp).1 hindex)
  | none =>
      have hnot : c ∉ p.row r := by
        intro hmem
        obtain ⟨k, hk⟩ := List.mem_iff_getElem?.1 (Pattern.mem_entries_iff.2 hmem)
        rw [(Pattern.nzIndex?_eq_some_iff hp).2 hk] at hindex
        cases hindex
      simp only [hzero hnot]

end Overlay

/-- Against the indicator of a color, one summand is left if the others vanish. -/
theorem sum_indicator_mul
    {F : Type} [CommRing F] {coloring : Coloring} {color v n : Nat} (hv : v < n)
    (hcolor : coloring.colorOf v = some color) {g : Nat → F}
    (hg : ∀ k < n, k ≠ v → coloring.colorOf k = some color → g k = 0) :
    ∑ k ∈ Finset.range n, indicator coloring color k * g k = g v := by
  rw [Finset.sum_eq_single v]
  · rw [indicator, if_pos hcolor, one_mul]
  · intro k hk hne
    unfold indicator
    split
    · next hsame => rw [hg k (Finset.mem_range.1 hk) hne hsame, mul_zero]
    · exact zero_mul _
  · intro hnot
    exact absurd (Finset.mem_range.2 hv) hnot

namespace Compressed

variable {F : Type}

/-- A sweep over directions of some plans holds the result of a color exactly if it ran it. -/
theorem sum?_eq_some_iff
    {plans : List JacobianPlan} {dirs : List Direction}
    (hdirs : ∀ dir ∈ dirs, plans[dir.block]? = some dir.plan) {block : Nat} {plan : JacobianPlan}
    (hplan : plans[block]? = some plan) (result : Direction → Array F) {k : Nat} {x : Array F} :
    sum? (dirs.map fun dir => (dir, result dir)) block k = some x ↔
      ⟨block, plan, k⟩ ∈ dirs ∧ x = result ⟨block, plan, k⟩ := by
  have hitem : ∀ dir ∈ dirs, dir.block = block → dir.color = k → dir = ⟨block, plan, k⟩ := by
    rintro ⟨b, p, color⟩ hdir rfl rfl
    have hsame := (hdirs _ hdir).symm.trans hplan
    cases hsame
    rfl
  unfold sum?
  rw [Option.map_eq_some_iff]
  constructor
  · rintro ⟨item, hfound, rfl⟩
    obtain ⟨dir, hdir, rfl⟩ := List.mem_map.1 (List.mem_of_find?_eq_some hfound)
    have htest := List.find?_some hfound
    simp only [Bool.and_eq_true, beq_iff_eq] at htest
    rw [← hitem dir hdir htest.1 htest.2]
    exact ⟨hdir, rfl⟩
  · rintro ⟨hmem, rfl⟩
    cases hfound : List.find? (fun item => item.1.block == block && item.1.color == k)
        (dirs.map fun dir => (dir, result dir)) with
    | none =>
        have hnone := List.find?_eq_none.1 hfound (⟨block, plan, k⟩, result ⟨block, plan, k⟩)
          (List.mem_map.2 ⟨_, hmem, rfl⟩)
        simp at hnone
    | some item =>
        obtain ⟨dir, hdir, rfl⟩ := List.mem_map.1 (List.mem_of_find?_eq_some hfound)
        have htest := List.find?_some hfound
        simp only [Bool.and_eq_true, beq_iff_eq] at htest
        exact ⟨_, rfl, by rw [hitem dir hdir htest.1 htest.2]⟩

end Compressed

@[simp] theorem Batch.length_members
    (b : Batch) :
    b.members.length = b.stop - b.start :=
  List.length_range'

/-- A batch of products holds the product of a color exactly if it ran it. -/
theorem Tape.fromProducts_eq
    {F : Type} (product : Nat → List F) {b : Batch} {coloring : Coloring} {r c k : Nat}
    (hcolor : coloring.colorOf c = some k) :
    fromProducts ((b.members.map product).map List.toArray).toArray b coloring r c =
      if b.start ≤ k ∧ k < b.stop then (product k)[r]? else none := by
  unfold fromProducts
  simp only [hcolor, bind, Option.bind_some]
  split
  · next hin =>
      have hget : b.members[k - b.start]? = some k := by
        rw [Batch.members, List.getElem?_range' (by omega)]
        congr 1
        omega
      simp [Array.getD_eq_getD_getElem?, hget]
  · rfl

/-- The directions are the colors of the plans, each with the position of its plan. -/
theorem mem_directions_iff
    {count : JacobianPlan → Nat} {plans : List JacobianPlan} {dir : Direction} :
    dir ∈ directions count plans ↔
      plans[dir.block]? = some dir.plan ∧ dir.color < count dir.plan := by
  simp only [directions, List.mem_flatMap, List.mem_map, List.mem_range]
  constructor
  · rintro ⟨⟨plan, block⟩, hmem, k, hk, rfl⟩
    exact ⟨List.mem_zipIdx_iff_getElem?.1 hmem, hk⟩
  · rintro ⟨hplan, hk⟩
    exact ⟨(dir.plan, dir.block), List.mem_zipIdx_iff_getElem?.2 hplan, dir.color, hk, rfl⟩

/-- Scattering writes to every block what is recovered for it. -/
theorem scatter_map
    {F : Type} (recover : Recovery F) (found : Compressed F) (plans : List JacobianPlan)
    (g : JacobianPlan × Nat → Array F) :
    scatter recover found plans (plans.zipIdx.map g) = plans.zipIdx.map fun item =>
      overlay item.1.pattern (recover found item.2 item.1.partition) (g item) := by
  refine List.ext_getElem? fun k => ?_
  simp only [scatter, List.getElem?_map, List.getElem?_zipIdx, List.zip,
    List.getElem?_zipWith]
  cases plans[k]? <;> rfl

/-- The values of every block are written batch by batch. -/
theorem foldl_scatter
    {F : Type} (recover : Recovery F) (plans : List JacobianPlan) {α : Type}
    (found : α → Compressed F) (steps : List α) (g : JacobianPlan × Nat → Array F) :
    steps.foldl (fun values b => scatter recover (found b) plans values) (plans.zipIdx.map g) =
      plans.zipIdx.map fun item => steps.foldl (fun out b =>
        overlay item.1.pattern (recover (found b) item.2 item.1.partition) out) (g item) := by
  induction steps generalizing g with
  | nil => rfl
  | cons b steps ih =>
      rw [List.foldl_cons, scatter_map]
      exact ih _

end SparseDiff
