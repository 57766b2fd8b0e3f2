import SparseDiff.Proofs.Assembly.Parts

/-!
# Batches hold every color

Batches of one color or more cut the colors of a plan into consecutive pieces (`Cuts`), so every
assembly sweeps every color, in the sweeps that its memory and its configuration allow
(`Tape.sweepsColors`). The starts of the batches advance by at least one also where no color may
share a sweep, but the ends do not: batches of no color are all empty, and a tape that allows no
direction in a sweep leaves zeros where its derivatives belong (`Tape.leavesZeros`).
-/

namespace SparseDiff

section Ranges

variable {n size : Nat}

/-- The first `k` batches of `size` select the first `k * size` items. -/
theorem flatMap_select_take
    {α : Type} (items : List α) (size k : Nat) :
    ((List.range k).flatMap fun b =>
        Batch.select ⟨b * size, min (b * size + size) items.length⟩ items) =
      items.take (k * size) := by
  induction k with
  | zero => simp
  | succ k ih =>
      have hlast : Batch.select ⟨k * size, min (k * size + size) items.length⟩ items =
          (items.drop (k * size)).take size := by
        simp only [Batch.select]
        rw [List.take_eq_take_iff, List.length_drop]
        omega
      rw [List.range_succ, List.flatMap_append, ih, List.flatMap_singleton, hlast, Nat.succ_mul,
        List.take_add]

/-- The batches select all items, in their order. -/
theorem flatMap_select_batches
    {α : Type} {items : List α} (hsize : items ≠ [] → 1 ≤ size) :
    ((batches items.length size).flatMap fun b => b.select items) = items := by
  by_cases hnil : items = []
  · simp [hnil]
  · have hone := hsize hnil
    have hmax : max size 1 = size := by omega
    have hreach : items.length ≤ (items.length + size - 1) / size * size := by
      have := Nat.div_add_mod' (items.length + size - 1) size
      have := Nat.mod_lt (items.length + size - 1) (show 0 < size by omega)
      omega
    rw [batches, hmax, List.flatMap_map]
    exact (flatMap_select_take items size _).trans (List.take_of_length_le hreach)

/-- The members of a batch are what it selects of all numbers. -/
theorem select_range
    {b : Batch} (h : b.stop ≤ n) :
    b.select (List.range n) = b.members := by
  rw [Batch.select, Batch.members, ← List.drop_take, List.take_range, Nat.min_eq_left h,
    List.range_eq_range', List.drop_range', Nat.zero_add, Nat.mul_one]

theorem flatMap_members_batches
    (hsize : 0 < n → 1 ≤ size) :
    (batches n size).flatMap Batch.members = List.range n := by
  have hall : ((batches (List.range n).length size).flatMap fun b => b.select (List.range n)) =
      List.range n :=
    flatMap_select_batches fun hne => hsize (by simpa [Nat.pos_iff_ne_zero] using hne)
  rw [List.length_range] at hall
  refine Eq.trans (List.flatMap_congr fun b hb => ?_) hall
  exact (select_range (stop_of_mem_batches hb).2).symm

/-- Batches of no color are empty, one for every color. -/
theorem batches_of_size_zero
    (n : Nat) :
    batches n 0 = (List.range n).map fun k => ⟨k, k⟩ := by
  have hone : max 0 1 = 1 := rfl
  rw [batches, hone, Nat.add_sub_cancel, Nat.div_one]
  refine List.map_congr_left fun k hk => ?_
  have hlt := List.mem_range.1 hk
  rw [Nat.mul_one, Nat.add_zero, Nat.min_eq_left hlt.le]

/-- Each batch ends where the next one starts. -/
theorem isChain_batches
    (hsize : 1 ≤ size) :
    (batches n size).IsChain fun a b => a.stop = b.start := by
  have hmax : max size 1 = size := by omega
  rw [batches, List.isChain_map, List.isChain_range, hmax]
  intro k hk
  -- a batch that another one follows is full
  have hnext : (k + 1) * size < n := by
    have hlt : k + 1 < (n + size - 1) / size := by omega
    have := (Nat.lt_div_iff_mul_lt (by omega : 0 < size)).1 hlt
    omega
  rw [Nat.succ_mul] at hnext
  rw [Nat.succ_mul]
  exact Nat.min_eq_left hnext.le

/--
Batches that cut `0, …, n - 1` into consecutive pieces, none of them empty and none larger than
`size`. The end of a piece is found by an addition, which does not leave a word for as many items
as a list can have.
-/
structure Cuts (n size : Nat) (bs : List Batch) : Prop where
  nonempty : ∀ b ∈ bs, b.start < b.stop
  consecutive : bs.IsChain fun a b => a.stop = b.start
  disjoint : bs.Pairwise fun a b => a.members.Disjoint b.members
  union : bs.flatMap Batch.members = List.range n
  atMost : ∀ b ∈ bs, b.members.length ≤ size
  word : n ≤ 2 ^ 63 → size < 2 ^ 64 → ∀ b ∈ bs, b.start + size < 2 ^ 64

theorem cuts_batches
    (hsize : 1 ≤ size) :
    Cuts n size (batches n size) := by
  have hunion := flatMap_members_batches (n := n) fun _ => hsize
  have hdisjoint := (List.nodup_flatMap.1 (hunion ▸ List.nodup_range)).2
  refine ⟨fun b hb => ?_, isChain_batches hsize, hdisjoint, hunion, fun b hb => ?_,
    fun hn hword b hb => ?_⟩
  · obtain ⟨k, hk, rfl⟩ := mem_batches_iff.1 hb
    simp only
    omega
  · rw [Batch.length_members]
    exact (stop_of_mem_batches hb).1
  · obtain ⟨k, hk, rfl⟩ := mem_batches_iff.1 hb
    have hmax : max size 1 = size := by omega
    rw [hmax] at hk
    simp only [hmax]
    -- a batch behind the first one starts past a whole batch
    rcases Nat.eq_zero_or_pos k with rfl | hpos
    · omega
    · have := Nat.le_mul_of_pos_left size hpos
      omega

end Ranges

section Zeros

variable {F : Type}

theorem overlay_of_none
    {p : Pattern} {pick : Nat → Nat → Option F} (hpick : ∀ r c, pick r c = none)
    (values : Array F) :
    overlay p pick values = values := by
  unfold overlay
  simp only [hpick]
  exact List.foldl_fixed _

/-- A sweep without directions leaves the values of all blocks. -/
theorem scatter_nil
    {recover : Recovery F} (hrecover : ∀ block parts r c, recover [] block parts r c = none)
    (plans : List JacobianPlan) (g : JacobianPlan × Nat → Array F) :
    scatter recover [] plans (plans.zipIdx.map g) = plans.zipIdx.map g := by
  rw [scatter_map]
  exact List.map_congr_left fun item _ => overlay_of_none (hrecover _ _) _

namespace Compressed

theorem fromColumns_nil
    (block : Nat) (parts : Partition) (r c : Nat) :
    fromColumns ([] : Compressed F) block parts r c = none := by
  unfold fromColumns
  split
  · rfl
  · cases parts.forward.colorOf c <;> rfl

theorem fromRows_nil
    (block : Nat) (parts : Partition) (r c : Nat) :
    fromRows ([] : Compressed F) block parts r c = none := by
  unfold fromRows
  cases parts.adjoint.colorOf r <;> rfl

end Compressed

/-- An empty batch has the product of no color. -/
theorem Tape.fromProducts_of_empty
    {b : Batch} (hb : b.stop ≤ b.start) (products : Array (Array F)) (c : Coloring)
    (row col : Nat) :
    fromProducts products b c row col = none := by
  unfold fromProducts
  cases c.colorOf col with
  | none => rfl
  | some color => exact if_neg (by omega)

/-- Parts without a value add up to none. -/
theorem sumParts_zeros
    [Zero F] [Add F] (hzero : (0 : F) + 0 = 0) {n : Nat} {parts : List (Array F)}
    (h : ∀ part ∈ parts, part = Array.replicate n 0) :
    sumParts n parts = Array.replicate n 0 := by
  unfold sumParts
  induction parts with
  | nil => rfl
  | cons part parts ih =>
      rw [List.foldl_cons, h part (List.mem_cons_self ..), Array.zipWith_replicate, Nat.min_self,
        hzero]
      exact ih fun part' h' => h part' (List.mem_cons_of_mem _ h')

/-- A batch of no color is empty. -/
theorem stop_le_start_of_mem
    {n : Nat} {b : Batch} (hb : b ∈ batches n 0) :
    b.stop ≤ b.start := by
  have := (stop_of_mem_batches hb).1
  omega

theorem Batch.select_of_empty
    {α : Type} {b : Batch} (hb : b.stop ≤ b.start) (items : List α) :
    b.select items = [] := by
  have hnone : b.stop - b.start = 0 := by omega
  rw [select, hnone, List.take_zero]

/-- A loop over batches of no color sweeps without directions, and leaves the values. -/
theorem eq_of_gives_sweeps
    {recover : Recovery F} (hrecover : ∀ block parts r c, recover [] block parts r c = none)
    {sweep : List Direction → Run F (Compressed F)}
    (hsweep : ∀ m found m', Run.Gives (sweep []) m found m' → found = [])
    {plans : List JacobianPlan} {dirs : List Direction} {n : Nat}
    {g : JacobianPlan × Nat → Array F} {values : List (Array F)} {m m' : Memory F}
    (h : Run.Gives ((batches n 0).foldlM
      (fun values b => do
        let found ← sweep (b.select dirs)
        return scatter recover found plans values)
      (plans.zipIdx.map g)) m values m') :
    values = plans.zipIdx.map g := by
  refine Run.eq_of_gives_foldlM (fun b hb m values m' hstep => ?_) h
  rw [Batch.select_of_empty (stop_le_start_of_mem hb)] at hstep
  obtain ⟨found, m₁, hfound, hstep⟩ := Run.gives_bind.1 hstep
  obtain ⟨rfl, -⟩ := Run.gives_pure.1 hstep
  rw [hsweep m found m₁ hfound, scatter_nil hrecover]

end Zeros

namespace Tape

section Zeros

variable {F : Type} [Zero F] [One F] [Add F] [Mul F] [Calculus F] {f : Tape F}
  {xs : List (List F)} {m m' : Memory F}

theorem eq_nil_of_gives_forwardDirections
    {tape : List (Segment F)} {found : Compressed F}
    (h : Run.Gives (f.forwardDirections tape xs []) m found m') :
    found = [] := by
  obtain ⟨_, _, -, h⟩ := Run.gives_bind.1 h
  obtain ⟨_, _, -, h⟩ := Run.gives_bind.1 h
  obtain ⟨_, _, -, h⟩ := Run.gives_bind.1 h
  obtain ⟨_, _, -, h⟩ := Run.gives_bind.1 h
  exact (Run.gives_pure.1 h).1.symm

theorem eq_nil_of_gives_adjointDirections
    {tape : List (Segment F)} {found : Compressed F}
    (h : Run.Gives (f.adjointDirections tape []) m found m') :
    found = [] := by
  obtain ⟨_, _, -, h⟩ := Run.gives_bind.1 h
  obtain ⟨_, _, -, h⟩ := Run.gives_bind.1 h
  exact (Run.gives_pure.1 h).1.symm

theorem forwardBatches_of_size_zero
    {plans : List JacobianPlan} {dirs : List Direction} {g : JacobianPlan × Nat → Array F}
    {values : List (Array F)}
    (h : Run.Gives (f.forwardBatches xs plans dirs 0 (plans.zipIdx.map g)) m values m') :
    values = plans.zipIdx.map g := by
  obtain ⟨tape, _, -, h⟩ := Run.gives_bind.1 h
  exact eq_of_gives_sweeps Compressed.fromColumns_nil
    (fun _ _ _ => eq_nil_of_gives_forwardDirections) h

theorem adjointBatches_of_size_zero
    {op : String} {plans : List JacobianPlan} {dirs : List Direction}
    {g : JacobianPlan × Nat → Array F} {values : List (Array F)}
    (h : Run.Gives (f.adjointBatches op xs plans dirs 0 (plans.zipIdx.map g)) m values m') :
    values = plans.zipIdx.map g := by
  obtain ⟨tape, _, -, h⟩ := Run.gives_bind.1 h
  obtain ⟨_, _, -, h⟩ := Run.gives_bind.1 h
  exact eq_of_gives_sweeps Compressed.fromRows_nil
    (fun _ _ _ => eq_nil_of_gives_adjointDirections) h

/-- Without a direction in a sweep, the values of all blocks are the zeros they start from. -/
theorem jacobianValues_of_no_directions
    (hmax : f.config.maxDirections = 0) {op : String} {plans : List JacobianPlan}
    {values : List (Array F)} (h : Run.Gives (f.jacobianValues op xs plans) m values m') :
    values = plans.map fun plan => zeroValues plan.pattern := by
  have hzeros : (plans.map fun plan => zeroValues (F := F) plan.pattern) =
      plans.zipIdx.map fun item => zeroValues item.1.pattern :=
    (map_zipIdx_fst plans fun plan => zeroValues (F := F) plan.pattern).symm
  obtain ⟨_, _, -, h⟩ := Run.gives_bind.1 (Run.gives_get_bind.1 h)
  obtain ⟨forwardValues, _, hforward, h⟩ := Run.gives_bind.1 h
  rw [hmax, Nat.zero_min, hzeros] at hforward
  have hforwardValues := forwardBatches_of_size_zero hforward
  rw [hzeros]
  split at h
  · rw [← (Run.gives_pure.1 h).1, hforwardValues]
  · rw [hmax, Nat.zero_min, hforwardValues] at h
    exact adjointBatches_of_size_zero h

theorem hessianBatch_of_empty
    {tape : List (Segment F)} {plan : HessianPlan} {b : Batch} (hb : b.stop ≤ b.start)
    {values result : Array F} (h : Run.Gives (f.hessianBatch tape xs plan b values) m result m') :
    result = values := by
  obtain ⟨products, _, -, h⟩ := Run.gives_bind.1 h
  rw [← (Run.gives_pure.1 h).1]
  exact overlay_of_none (fromProducts_of_empty hb _ _) values

theorem forwardPart_of_empty
    {tape : List (Segment F)} {plan : JacobianPlan} {b : Batch} (hb : b.stop ≤ b.start)
    {part : Array F} (h : f.forwardPart tape xs plan b = .ok part) :
    part = zeroValues plan.pattern := by
  unfold forwardPart at h
  rw [Batch.select_of_empty hb] at h
  obtain ⟨found, hfound, h⟩ := bind_eq_ok_iff.1 h
  obtain ⟨_, hfound⟩ := Run.alone_eq_ok_iff.1 hfound
  cases h
  rw [eq_nil_of_gives_forwardDirections hfound]
  exact overlay_of_none (Compressed.fromColumns_nil _ _) _

theorem adjointPart_of_empty
    {op : String} {tape : List (Segment F)} {plan : JacobianPlan} {b : Batch}
    (hb : b.stop ≤ b.start) {part : Array F} (h : f.adjointPart op tape xs plan b = .ok part) :
    part = zeroValues plan.pattern := by
  unfold adjointPart at h
  rw [Batch.select_of_empty hb] at h
  obtain ⟨found, hfound, h⟩ := bind_eq_ok_iff.1 h
  obtain ⟨_, hfound⟩ := Run.alone_eq_ok_iff.1 hfound
  obtain ⟨_, _, -, hfound⟩ := Run.gives_bind.1 hfound
  cases h
  rw [eq_nil_of_gives_adjointDirections hfound]
  exact overlay_of_none (Compressed.fromRows_nil _ _) _

/-- Whatever the assemblies of a tape return is zero on the pattern of its plan. -/
structure LeavesZeros (f : Tape F) (xs : List (List F)) : Prop where
  jacobian : ∀ plan m jac, (f.jacobianWithPlan xs plan).alone m = .ok jac →
    jac = ⟨plan.pattern, zeroValues plan.pattern⟩
  blocks : ∀ plans m jacs, (f.jacobianBlocksWithPlans xs plans).alone m = .ok jacs →
    jacs = plans.map fun plan => ⟨plan.pattern, zeroValues plan.pattern⟩
  hessian : ∀ plan m hess, (f.hessianWithPlan xs plan).alone m = .ok hess →
    hess = ⟨plan.pattern, zeroValues plan.pattern⟩
  jacobianByParts : ∀ plan jac, f.jacobianByParts xs plan = .ok jac →
    jac = ⟨plan.pattern, zeroValues plan.pattern⟩
  hessianByParts : ∀ plan hess, f.hessianByParts xs plan = .ok hess →
    hess = ⟨plan.pattern, zeroValues plan.pattern⟩

theorem leavesZeros
    (hzero : (0 : F) + 0 = 0) (hmax : f.config.maxDirections = 0) :
    f.LeavesZeros xs where
  jacobian plan m jac h := by
    obtain ⟨values, hvalues, rfl⟩ := Run.alone_map_eq_ok_iff.1 h
    obtain ⟨_, hvalues⟩ := Run.alone_eq_ok_iff.1 hvalues
    rw [jacobianValues_of_no_directions hmax hvalues]
    rfl
  blocks plans m jacs h := by
    obtain ⟨values, hvalues, rfl⟩ := Run.alone_map_eq_ok_iff.1 h
    obtain ⟨_, hvalues⟩ := Run.alone_eq_ok_iff.1 hvalues
    rw [jacobianValues_of_no_directions hmax hvalues, List.zipWith_map_right, List.zipWith_self]
  hessian plan m hess h := by
    obtain ⟨_, h⟩ := Run.alone_eq_ok_iff.1 h
    obtain ⟨_, _, -, h⟩ := Run.gives_bind.1 (Run.gives_get_bind.1 h)
    obtain ⟨tape, _, -, h⟩ := Run.gives_bind.1 h
    obtain ⟨values, _, hvalues, h⟩ := Run.gives_bind.1 h
    obtain ⟨rfl, -⟩ := Run.gives_pure.1 h
    rw [hmax, Nat.zero_min] at hvalues
    have hsame := Run.eq_of_gives_foldlM (fun b hb _ _ _ hstep =>
      hessianBatch_of_empty (stop_le_start_of_mem hb) hstep) hvalues
    rw [hsame]
  jacobianByParts plan jac h := by
    unfold Tape.jacobianByParts at h
    rw [hmax] at h
    obtain ⟨_, -, h⟩ := bind_eq_ok_iff.1 h
    obtain ⟨_, -, h⟩ := bind_eq_ok_iff.1 h
    obtain ⟨shared, -, h⟩ := bind_eq_ok_iff.1 h
    obtain ⟨full, -, h⟩ := bind_eq_ok_iff.1 h
    obtain ⟨fwd, hfwd, h⟩ := bind_eq_ok_iff.1 h
    obtain ⟨adj, hadj, h⟩ := bind_eq_ok_iff.1 h
    cases h
    rw [sumParts_zeros hzero (List.forall_mem_append.2
      ⟨forall_mem_of_mapM hfwd fun b hb _ => forwardPart_of_empty (stop_le_start_of_mem hb),
        forall_mem_of_mapM hadj fun b hb _ => adjointPart_of_empty (stop_le_start_of_mem hb)⟩)]
    rfl
  hessianByParts plan hess h := by
    unfold Tape.hessianByParts at h
    rw [hmax] at h
    obtain ⟨_, -, h⟩ := bind_eq_ok_iff.1 h
    obtain ⟨_, -, h⟩ := bind_eq_ok_iff.1 h
    obtain ⟨tape, -, h⟩ := bind_eq_ok_iff.1 h
    obtain ⟨parts, hparts, h⟩ := bind_eq_ok_iff.1 h
    cases h
    rw [sumParts_zeros hzero (forall_mem_of_mapM hparts fun b hb part hpart => ?_)]
    · rfl
    · obtain ⟨_, hbatch⟩ := Run.alone_eq_ok_iff.1 hpart
      exact hessianBatch_of_empty (stop_le_start_of_mem hb) hbatch

end Zeros

end Tape

namespace Tape

section Sweeps

variable {F : Type} [Zero F] [One F] [Add F] [Mul F] [Calculus F] {f : Tape F}
  {xs : List (List F)}

/-- When the Hessian by parts is returned, and which it is, from the colors one by one. -/
theorem hessianByParts_eq_ok_iff_values
    [Calculus.NeutralZero F] [Calculus.AbsorbingZero F] (hleft : ∀ x : F, 0 + x = x)
    (hf : f.WellFormed) (hmax : 1 ≤ f.config.maxDirections) {plan : HessianPlan}
    (hplan : plan.coloring.Separates plan.pattern fun _ => True) {hess : SparseMatrix F} :
    f.hessianByParts xs plan = .ok hess ↔ (plan.Matches f ∧ FitLists f.inputPatterns xs) ∧
      hess = ⟨plan.pattern, plan.values f xs⟩ ∧
        (f.config.checkFinite = true → plan.Finite f xs) := by
  have hm : (f.memory f.config.maxDirections 1 : Memory F).WellSized := Memory.wellSized_new _
  have hsizes := check_leastHessianMemory (F := F) hmax hessianOp plan
  rw [hessianByParts_eq_ok_iff_withPlan hleft hf hmax hplan hm hsizes (.inr inferInstance)]
  have haccepted : f.checkHessian hessianOp (f.memory f.config.maxDirections 1 : Memory F).sizes
      xs plan = .ok () ↔ plan.Matches f ∧ FitLists f.inputPatterns xs := by
    rw [checkHessian_eq_ok_iff]
    exact ⟨fun h => ⟨h.1, h.2.1⟩, fun h => ⟨h.1, h.2, hsizes⟩⟩
  rw [← haccepted]
  cases hcheck : f.checkHessian hessianOp (f.memory f.config.maxDirections 1 : Memory F).sizes
      xs plan with
  | error e =>
      rw [hessianWithPlan_of_check_error hcheck]
      simp
  | ok _ =>
      rw [(guarded_hessianWithPlan hf hmax hm hcheck).alone_eq_ok_iff]
      simp

/--
The assemblies of a tape sweep every color. In any arithmetic, the batches of an accepted assembly
select all directions of all plans, or all colors, in their order. Every matrix has the values that
the colors of its plan find one by one, and is refused only for a number that a color alone meets:
a Hessian where a factor zero makes products zero, and a sum of parts where zero is neutral on both
sides.
-/
structure SweepsColors (f : Tape F) (xs : List (List F)) : Prop where
  forward : ∀ op sizes plans, f.checkJacobians op sizes xs plans = .ok () →
    let dirs := directions JacobianPlan.nfwd plans
    (batches dirs.length (min f.config.maxDirections sizes.nfwd)).flatMap (·.select dirs) = dirs
  adjoint : ∀ op sizes plans, f.checkJacobians op sizes xs plans = .ok () →
    let dirs := directions JacobianPlan.nadj plans
    (batches dirs.length (min f.config.maxDirections sizes.nadj)).flatMap (·.select dirs) = dirs
  colors : ∀ op sizes plan, f.checkHessian op sizes xs plan = .ok () →
    (batches plan.coloring.ncolors (min f.config.maxDirections sizes.nfwd)).flatMap
      Batch.members = List.range plan.coloring.ncolors
  jacobian : ∀ plan m, m.WellSized → f.checkJacobians jacobianOp m.sizes xs [plan] = .ok () →
    Run.Guarded f.config.checkFinite (plan.Finite f xs) (f.jacobianWithPlan xs plan) m
      fun jac _ => jac = ⟨plan.pattern, plan.values f xs⟩
  blocks : ∀ plans m, m.WellSized → f.checkJacobians "jacobian_blocks" m.sizes xs plans = .ok () →
    Run.Guarded f.config.checkFinite (∀ plan ∈ plans, plan.Finite f xs)
      (f.jacobianBlocksWithPlans xs plans) m
      fun jacs _ => jacs = plans.map fun plan => ⟨plan.pattern, plan.values f xs⟩
  hessian : Calculus.AbsorbingZero F → ∀ plan m, m.WellSized →
    f.checkHessian hessianOp m.sizes xs plan = .ok () →
      Run.Guarded f.config.checkFinite (plan.Finite f xs) (f.hessianWithPlan xs plan) m
        fun hess _ => hess = ⟨plan.pattern, plan.values f xs⟩
  jacobianByParts : (∀ x : F, 0 + x = x) → ∀ plan : JacobianPlan,
    plan.partition.Recoverable plan.pattern → ∀ jac, f.jacobianByParts xs plan = .ok jac ↔
      (plan.Fits f ∧ FitLists f.inputPatterns xs) ∧ jac = ⟨plan.pattern, plan.values f xs⟩ ∧
        (f.config.checkFinite = true → plan.Finite f xs)
  hessianByParts : (∀ x : F, 0 + x = x) → Calculus.AbsorbingZero F → ∀ plan : HessianPlan,
    (plan.coloring.Separates plan.pattern fun _ => True) →
      ∀ hess, f.hessianByParts xs plan = .ok hess ↔
        (plan.Matches f ∧ FitLists f.inputPatterns xs) ∧ hess = ⟨plan.pattern, plan.values f xs⟩ ∧
          (f.config.checkFinite = true → plan.Finite f xs)

theorem sweepsColors
    [Calculus.NeutralZero F] (hf : f.WellFormed) (hmax : 1 ≤ f.config.maxDirections) :
    f.SweepsColors xs where
  forward op sizes plans hcheck := by
    refine flatMap_select_batches fun hne => ?_
    have := (acceptsBlocks_of_checkJacobians hf hcheck).nfwd hne
    omega
  adjoint op sizes plans hcheck := by
    refine flatMap_select_batches fun hne => ?_
    have := (acceptsBlocks_of_checkJacobians hf hcheck).nadj hne
    omega
  colors op sizes plan hcheck := by
    refine flatMap_members_batches fun hpos => ?_
    have := (acceptsHessian_of_checkHessian hcheck).nfwd hpos
    omega
  jacobian plan m hm hcheck := guarded_jacobianWithPlan hf hmax hm hcheck
  blocks plans m hm hcheck := by
    refine (guarded_jacobianValues hf hmax hm hcheck).bind_gives fun values m₁ h => ?_
    subst h
    refine ⟨_, m₁, Run.gives_pure.2 ⟨rfl, rfl⟩, ?_⟩
    rw [List.zipWith_map_right, List.zipWith_self]
  hessian _ plan m hm hcheck := guarded_hessianWithPlan hf hmax hm hcheck
  jacobianByParts hleft plan hplan jac := jacobianByParts_eq_ok_iff hleft hf hmax hplan
  hessianByParts hleft _ plan hplan hess := hessianByParts_eq_ok_iff_values hleft hf hmax hplan

end Sweeps

section Compiled

variable {F : Type} [Zero F] [One F] [Add F] [Sub F] [Neg F] [Mul F] [Div F] [Elementary F]
  [ElementText F] [Calculus.NeutralZero F]

/--
Batches of one color or more cut the colors into consecutive pieces, so a tape that is compiled for
one direction in a sweep or more sweeps every color in each of its assemblies. Batches of no color
are empty, and the assemblies of a tape that is compiled for no direction leave zeros.
-/
theorem batches_cover_colors
    {g : Graph F} {inputs outputs : List NodeId} {config : Config} {f : Tape F}
    (hbare : g.BareLeaves) (hcompile : compile g inputs outputs config = .ok f)
    (xs : List (List F)) :
    (∀ n size, (1 ≤ size → Cuts n size (batches n size)) ∧
      (size = 0 → batches n size = (List.range n).map fun k => ⟨k, k⟩)) ∧
    (1 ≤ config.maxDirections → f.SweepsColors xs) ∧
    (config.maxDirections = 0 → f.LeavesZeros xs) := by
  obtain ⟨order, h⟩ := compiled_of_compile hbare hcompile
  have hpieces : ∀ n size, (1 ≤ size → Cuts n size (batches n size)) ∧
      (size = 0 → batches n size = (List.range n).map fun k => ⟨k, k⟩) := by
    intro n size
    refine ⟨cuts_batches, ?_⟩
    rintro rfl
    exact batches_of_size_zero n
  have hsweeps : 1 ≤ config.maxDirections → f.SweepsColors xs := by
    intro hmax
    exact sweepsColors h.wellFormed (h.one_le_maxDirections hmax)
  have hleaves : config.maxDirections = 0 → f.LeavesZeros xs := by
    intro hmax
    rw [← h.config] at hmax
    exact leavesZeros (Calculus.NeutralZero.add_zero 0) hmax
  exact ⟨hpieces, hsweeps, hleaves⟩

end Compiled

/-- The quotient in sweeps of one direction, and of none. -/
theorem batches_cover_colors_quotient :
    Cuts 2 1 (batches 2 1) ∧ batches 2 0 = [⟨0, 0⟩, ⟨1, 1⟩] ∧
    (∃ jac hess,
      (quotientByColumns.jacobianWithPlan quotientInputs quotientColumns).alone
        (quotientByColumns.memory 2 1) = .ok jac ∧
      quotientByColumns.jacobianByParts quotientInputs quotientColumns = .ok jac ∧
      jac.values = quotientColumns.values quotientByColumns quotientInputs ∧
      (quotientByColumns.hessianWithPlan quotientInputs quotientHessian).alone
        (quotientByColumns.memory 2 1) = .ok hess ∧
      quotientByColumns.hessianByParts quotientInputs quotientHessian = .ok hess ∧
      hess.values = quotientHessian.values quotientByColumns quotientInputs) ∧
    ∃ jac hess,
      ((quotient 0).jacobianWithPlan quotientInputs quotientColumns).alone
        ((quotient 0).memory 2 1) = .ok jac ∧
      jac.values = #[0, 0] ∧
      (quotient 0).hessianByParts quotientInputs quotientHessian = .ok hess ∧
      hess.values = #[0, 0, 0] := by
  have hm := Memory.wellSized_new (F := Extended) (quotientByColumns.requiredMemory 2 1)
  obtain ⟨order, h⟩ := compiled_of_compile Graph.bareLeaves_quotient compile_quotientByColumns
  obtain ⟨-, -, hrecoverable⟩ := jacobianPlan_parts h.wellFormed
    (show quotientByColumns.jacobianPlan 0 0 = .ok quotientColumns by cbv)
  obtain ⟨-, -, -, -, hseparates⟩ := hessianPlan_parts h.wellFormed
    (show quotientByColumns.hessianPlan 0 0 = .ok quotientHessian by cbv)
  obtain ⟨hcut, hsweeps, -⟩ := batches_cover_colors Graph.bareLeaves_quotient
    compile_quotientByColumns quotientInputs
  have hswept := hsweeps (by decide)
  obtain ⟨-, -, hzeros⟩ := batches_cover_colors Graph.bareLeaves_quotient (compile_quotient 0)
    quotientInputs
  have hleaves := hzeros rfl
  obtain ⟨jac, hjac⟩ := exists_eq_ok_of_isOk
    (x := quotientByColumns.jacobianByParts quotientInputs quotientColumns) (by cbv)
  obtain ⟨hess, hhess⟩ := exists_eq_ok_of_isOk
    (x := quotientByColumns.hessianByParts quotientInputs quotientHessian) (by cbv)
  obtain ⟨jac₀, hjac₀⟩ := exists_eq_ok_of_isOk (x := ((quotient 0).jacobianWithPlan quotientInputs
    quotientColumns).alone ((quotient 0).memory 2 1)) (by cbv)
  obtain ⟨hess₀, hhess₀⟩ := exists_eq_ok_of_isOk
    (x := (quotient 0).hessianByParts quotientInputs quotientHessian) (by cbv)
  have hcolumns := (hswept.jacobianByParts Extended.zero_add _ hrecoverable jac).1 hjac
  have hproducts :=
    (hswept.hessianByParts Extended.zero_add inferInstance _ hseparates hess).1 hhess
  refine ⟨(hcut 2 1).1 (by decide), (hcut 2 0).2 rfl,
    ⟨jac, hess, ?_, hjac, congrArg SparseMatrix.values hcolumns.2.1, ?_, hhess,
      congrArg SparseMatrix.values hproducts.2.1⟩,
    ⟨jac₀, hess₀, hjac₀, ?_, hhess₀, ?_⟩⟩
  · exact (hswept.jacobian _ _ hm (by cbv)).alone_eq_ok_iff.2 hcolumns.2
  · exact (hswept.hessian inferInstance _ _ hm (by cbv)).alone_eq_ok_iff.2 hproducts.2
  · rw [hleaves.jacobian _ _ jac₀ hjac₀]
    rfl
  · rw [hleaves.hessianByParts _ hess₀ hhess₀]
    rfl

/--
Batches of no color have neither of two colors, so each assembly of the quotient returns zeros with
no direction in a sweep, and the derivatives with one.
-/
theorem batches_skip_colors :
    (batches 2 0).flatMap Batch.members = [] ∧ ¬ Cuts 2 (max 0 1) (batches 2 0) ∧
    (let f := quotient 0
      let jac : SparseMatrix Extended := ⟨quotientColumns.pattern, #[0, 0]⟩
      let hess : SparseMatrix Extended := ⟨quotientHessian.pattern, #[0, 0, 0]⟩
      (f.jacobianWithPlan quotientInputs quotientColumns).alone (f.memory 2 1) = .ok jac ∧
      (f.jacobianBlocksWithPlans quotientInputs [quotientColumns]).alone (f.memory 2 1) =
        .ok [jac] ∧
      (f.hessianWithPlan quotientInputs quotientHessian).alone (f.memory 2 1) = .ok hess ∧
      f.jacobianByParts quotientInputs quotientColumns = .ok jac ∧
      f.hessianByParts quotientInputs quotientHessian = .ok hess) ∧
    (let f := quotient 1
      let jac : SparseMatrix Extended := ⟨quotientColumns.pattern, #[.finite 1, .finite (-6)]⟩
      let hess : SparseMatrix Extended :=
        ⟨quotientHessian.pattern, #[.finite (-1), .finite (-1), .finite 12]⟩
      (f.jacobianWithPlan quotientInputs quotientColumns).alone (f.memory 2 1) = .ok jac ∧
      (f.jacobianBlocksWithPlans quotientInputs [quotientColumns]).alone (f.memory 2 1) =
        .ok [jac] ∧
      (f.hessianWithPlan quotientInputs quotientHessian).alone (f.memory 2 1) = .ok hess ∧
      f.jacobianByParts quotientInputs quotientColumns = .ok jac ∧
      f.hessianByParts quotientInputs quotientHessian = .ok hess) := by
  have hempty : ⟨0, 0⟩ ∈ batches 2 0 := by decide
  refine ⟨by decide, fun h => absurd (h.nonempty _ hempty) (by decide), ?_, ?_⟩
  · exact ⟨by cbv, by cbv, by cbv, by cbv, by cbv⟩
  · exact ⟨by cbv, by cbv, by cbv, by cbv, by cbv⟩

end Tape

end SparseDiff
