import SparseDiff.Assembly.Parallel
import SparseDiff.Proofs.Bounds.Plans
import SparseDiff.Proofs.Isolation.Results

/-!
# Sums of parts

An assembly by independent batches adds what the batches write into zeros. Every entry of a
pattern is written by exactly one batch (`WrittenOnce`), so where zero is neutral for the addition
the sum holds what the batches together write one after the other (`sumParts_eq`). With it, the
Jacobians and the Hessians by parts are those from a plan on a memory (`Tape.parts_agree`).
-/

namespace SparseDiff

variable {F T : Type}

/-- Whether a batch has this color. -/
def Batch.holds (b : Batch) (color : Option Nat) : Bool :=
  color.any fun k => decide (b.start ≤ k ∧ k < b.stop)

/-- Every entry of the pattern is written by exactly one of the tasks. -/
def WrittenOnce (p : Pattern) (tasks : List T) (writes : T → Nat → Nat → Bool) : Prop :=
  ∀ r c, c ∈ p.row r → ∃ t, (tasks.filter fun t => writes t r c) = [t]

/-- A part holds the values that its task writes, and zeros elsewhere. -/
structure IsPart [Zero F] (p : Pattern) (values : Array F) (writes : Nat → Nat → Bool)
    (part : Array F) : Prop where
  size : part.size = p.nnz
  get : ∀ k r c : Nat, p.entries[k]? = some (r, c) →
    part[k]? = if writes r c then values[k]? else some 0

section Batches

variable {n size : Nat}

/-- Batches with a common number are the same. -/
theorem eq_of_mem_batches
    {b b' : Batch} (hb : b ∈ batches n size) (hb' : b' ∈ batches n size) {k : Nat}
    (h : b.start ≤ k ∧ k < b.stop) (h' : b'.start ≤ k ∧ k < b'.stop) :
    b' = b := by
  obtain ⟨i, -, rfl⟩ := mem_batches_iff.1 hb
  obtain ⟨i', -, rfl⟩ := mem_batches_iff.1 hb'
  simp only at h h'
  have hpos : 0 < max size 1 := by omega
  have hdiv : ∀ j : Nat, j * max size 1 ≤ k → k < j * max size 1 + size → k / max size 1 = j := by
    intro j hle hlt
    have hlt' : k < (j + 1) * max size 1 := by
      rw [Nat.succ_mul]
      omega
    exact Nat.div_eq_of_lt_le hle hlt'
  have hsame : i' = i := (hdiv i' h'.1 (by omega)).symm.trans (hdiv i h.1 (by omega))
  rw [hsame]

theorem nodup_batches :
    (batches n size).Nodup := by
  refine List.Nodup.map (fun i j h => ?_) List.nodup_range
  exact Nat.eq_of_mul_eq_mul_right (by omega : 0 < max size 1) (congrArg Batch.start h)

/-- Exactly one batch has a color. -/
theorem filter_holds_batches
    (hsize : 1 ≤ size) {k : Nat} (hk : k < n) :
    ∃ b, ((batches n size).filter fun b => b.holds (some k)) = [b] := by
  obtain ⟨b, hb, hin⟩ := exists_mem_batches hsize hk
  refine ⟨b, List.perm_singleton.1 ?_⟩
  rw [List.perm_ext_iff_of_nodup (nodup_batches.filter _) (List.nodup_singleton b)]
  intro b'
  simp only [List.mem_filter, List.mem_singleton, Batch.holds, Option.any_some, decide_eq_true_eq]
  constructor
  · exact fun h => eq_of_mem_batches hb h.1 hin h.2
  · rintro rfl
    exact ⟨hb, hin⟩

/-- Without a color there is no batch that has it. -/
theorem filter_holds_none
    (bs : List Batch) :
    (bs.filter fun b => b.holds none) = [] :=
  List.filter_eq_nil_iff.2 fun _ _ h => Bool.false_ne_true h

/-- Where a batch takes everything, there is one. -/
theorem batches_of_le
    (h : n ≤ size) :
    batches n size = if n = 0 then [] else [⟨0, n⟩] := by
  split
  · next hzero => rw [hzero, batches_zero]
  · next hpos =>
      have hmax : max size 1 = size := by omega
      have hone : (n + max size 1 - 1) / max size 1 = 1 := by
        rw [hmax]
        exact Nat.div_eq_of_lt_le (by omega) (by omega)
      simp only [batches, hone]
      simp [h]

end Batches

section Sum

variable {p : Pattern} {values : Array F} {tasks : List T} {writes : T → Nat → Nat → Bool}

theorem WrittenOnce.writes_iff
    (h : WrittenOnce p tasks writes) {r c : Nat} (hc : c ∈ p.row r) :
    ∃ t ∈ tasks, ∀ t' ∈ tasks, writes t' r c = true ↔ t' = t := by
  obtain ⟨t, ht⟩ := h r c hc
  have hmem : ∀ t', t' ∈ tasks ∧ writes t' r c = true ↔ t' = t := by
    intro t'
    rw [← List.mem_filter (p := fun t => writes t r c), ht, List.mem_singleton]
  exact ⟨t, ((hmem t).2 rfl).1, fun t' ht' => ⟨fun hw => (hmem t').1 ⟨ht', hw⟩,
    fun heq => ((hmem t').2 heq).2⟩⟩

/-- What a task picks into zeros is its part of what all tasks pick. -/
theorem isPart_of_overlays
    [Zero F] {picks : T → Nat → Nat → Option F} (honce : WrittenOnce p tasks writes)
    (hnone : ∀ t ∈ tasks, ∀ r c, writes t r c = false → picks t r c = none) {t : T}
    (ht : t ∈ tasks) :
    IsPart p (tasks.foldl (fun values t => overlay p (picks t) values) (zeroValues p)) (writes t)
      (overlay p (picks t) (zeroValues p)) := by
  have hzeros : (zeroValues p : Array F).size = p.nnz := by simp [zeroValues]
  refine ⟨by rw [size_overlay, hzeros], fun k r c hk => ?_⟩
  have hlt := (List.getElem?_eq_some_iff.1 hk).1
  rw [Pattern.length_entries] at hlt
  have hzero : (zeroValues p : Array F)[k]? = some 0 := by simp [zeroValues, hlt]
  rw [getElem?_overlay hk hzeros, hzero]
  cases hwrites : writes t r c with
  | false =>
      rw [hnone t ht r c hwrites]
      rfl
  | true =>
      obtain ⟨t₀, -, hunique⟩ := honce.writes_iff
        (Pattern.mem_entries_iff.1 (List.mem_of_getElem? hk))
      obtain rfl := (hunique t ht).1 hwrites
      -- another task picks nothing here
      have hothers : ∀ t' ∈ tasks, ∀ x, picks t' r c = some x → picks t r c = some x := by
        intro t' ht' x hx
        cases hw : writes t' r c with
        | false => rw [hnone t' ht' r c hw] at hx; cases hx
        | true => rwa [← (hunique t' ht').1 hw]
      cases hpick : picks t r c with
      | some v =>
          exact (getElem?_foldl_overlay hk (fun t' ht' x hx => Option.some.inj
            ((hothers t' ht' x hx).symm.trans hpick)) hzeros (.inr ⟨t, ht, hpick⟩)).symm
      | none =>
          refine (getElem?_foldl_overlay hk (fun t' ht' x hx => ?_) hzeros (.inl hzero)).symm
          cases hpick.symm.trans (hothers t' ht' x hx)

variable [Zero F] [Add F] {parts : List (Array F)}

/-- What is added at an entry: nothing that counts, or one value. -/
theorem getElem?_foldl_parts
    (hleft : ∀ x : F, 0 + x = x) (hright : ∀ x : F, x + 0 = x)
    (hparts : List.Forall₂ (fun t part => IsPart p values (writes t) part) tasks parts)
    {k r c : Nat} (hk : p.entries[k]? = some (r, c)) {x : F} (hx : values[k]? = some x) :
    ∀ (sum : Array F) (y : F), sum[k]? = some y →
      ((tasks.filter fun t => writes t r c) = [] →
        (parts.foldl (fun sum part => sum.zipWith (· + ·) part) sum)[k]? = some y) ∧
      (y = 0 → (∃ t, (tasks.filter fun t => writes t r c) = [t]) →
        (parts.foldl (fun sum part => sum.zipWith (· + ·) part) sum)[k]? = some x) := by
  induction hparts with
  | nil =>
      intro sum y hy
      exact ⟨fun _ => hy, fun _ ⟨t, ht⟩ => absurd ht (by simp)⟩
  | @cons t part tasks parts hpart _ ih =>
      intro sum y hy
      have hget := hpart.get k r c hk
      cases hwrites : writes t r c with
      | false =>
          have hkept : (sum.zipWith (· + ·) part)[k]? = some y := by
            rw [Array.getElem?_zipWith, hy, hget, hwrites]
            simp [hright]
          obtain ⟨hnone, hone⟩ := ih _ y hkept
          simp only [List.filter_cons, hwrites, Bool.false_eq_true, if_false, List.foldl_cons]
          exact ⟨hnone, hone⟩
      | true =>
          refine ⟨fun h => ?_, fun hzero ⟨t', ht'⟩ => ?_⟩
          · simp [hwrites] at h
          · have hadded : (sum.zipWith (· + ·) part)[k]? = some x := by
              rw [Array.getElem?_zipWith, hy, hget, hwrites, if_pos rfl, hx]
              simp [hzero, hleft]
            rw [List.filter_cons, if_pos hwrites] at ht'
            exact (ih _ x hadded).1 (List.cons.inj ht').2

theorem size_sumParts
    {n : Nat} (h : ∀ part ∈ parts, part.size = n) :
    (sumParts n parts).size = n := by
  have hsum : ∀ sum : Array F, sum.size = n →
      (parts.foldl (fun sum part => sum.zipWith (· + ·) part) sum).size = n := by
    induction parts with
    | nil => exact fun _ hsum => hsum
    | cons part parts ih =>
        intro sum hsum
        rw [List.foldl_cons]
        refine ih (fun part' h' => h part' (List.mem_cons_of_mem _ h')) _ ?_
        rw [Array.size_zipWith, hsum, h part (List.mem_cons_self ..), Nat.min_self]
  exact hsum _ (by simp)

/-- Parts of values that are written once add up to the values. -/
theorem sumParts_eq
    (hleft : ∀ x : F, 0 + x = x) (hright : ∀ x : F, x + 0 = x) (honce : WrittenOnce p tasks writes)
    (hparts : List.Forall₂ (fun t part => IsPart p values (writes t) part) tasks parts)
    (hsize : values.size = p.nnz) :
    sumParts p.nnz parts = values := by
  have hsizes : ∀ part ∈ parts, part.size = p.nnz := by
    intro part hpart
    obtain ⟨i, hi⟩ := List.mem_iff_getElem?.1 hpart
    obtain ⟨_, -, h⟩ := getElem?_of_forall₂ hparts hi
    exact h.size
  have hsum := size_sumParts hsizes
  refine Array.ext_getElem? fun k => ?_
  rcases Nat.lt_or_ge k p.nnz with hlt | hge
  · obtain ⟨⟨r, c⟩, hk⟩ : ∃ entry, p.entries[k]? = some entry :=
      ⟨_, List.getElem?_eq_getElem (by rw [Pattern.length_entries]; exact hlt)⟩
    have hvalue : values[k]? = some values[k] := Array.getElem?_eq_getElem (by omega)
    have hc := Pattern.mem_entries_iff.1 (List.mem_of_getElem? hk)
    rw [hvalue]
    exact (getElem?_foldl_parts hleft hright hparts hk hvalue _ 0 (by simp [hlt])).2 rfl
      (honce r c hc)
  · rw [Array.getElem?_eq_none (by omega), Array.getElem?_eq_none (by omega)]

/-- What all tasks pick into zeros adds up to what they pick one after the other. -/
theorem sumParts_overlays
    (hleft : ∀ x : F, 0 + x = x) (hright : ∀ x : F, x + 0 = x) (honce : WrittenOnce p tasks writes)
    {picks : T → Nat → Nat → Option F}
    (hnone : ∀ t ∈ tasks, ∀ r c, writes t r c = false → picks t r c = none) :
    sumParts p.nnz (tasks.map fun t => overlay p (picks t) (zeroValues p)) =
      tasks.foldl (fun values t => overlay p (picks t) values) (zeroValues p) := by
  refine sumParts_eq hleft hright honce ?_ (by simp [size_foldl_overlay, zeroValues])
  rw [List.forall₂_map_right_iff, List.forall₂_same]
  exact fun t ht => isPart_of_overlays honce hnone ht

end Sum

/-- Independent tasks return exactly if each of them does. -/
theorem mapM_tasks_eq_ok_iff
    {tasks : List T} {run : T → Except Failure (Array F)} {part : T → Array F} {check : Bool}
    {good : T → Prop}
    (h : ∀ t ∈ tasks, ∀ a, run t = .ok a ↔ a = part t ∧ (check = true → good t))
    {parts : List (Array F)} :
    tasks.mapM run = .ok parts ↔
      parts = tasks.map part ∧ (check = true → ∀ t ∈ tasks, good t) := by
  rw [mapM_eq_ok_iff]
  constructor
  · intro hparts
    induction hparts with
    | nil => exact ⟨rfl, fun _ _ h => absurd h List.not_mem_nil⟩
    | cons hrun _ ih =>
        obtain ⟨rfl, hgood⟩ := (h _ (List.mem_cons_self ..) _).1 hrun
        obtain ⟨rfl, hrest⟩ := ih fun t ht => h t (List.mem_cons_of_mem _ ht)
        exact ⟨rfl, fun hon => List.forall_mem_cons.2 ⟨hgood hon, hrest hon⟩⟩
  · rintro ⟨rfl, hgood⟩
    rw [List.forall₂_map_right_iff, List.forall₂_same]
    exact fun t ht => (h t ht _).2 ⟨rfl, fun hon => hgood hon t ht⟩

/--
`result` is the sum of what the tasks return. Every entry of the pattern is written by exactly one
task; in the part of a task, the entries that the task writes hold their values and all others hold
zero.
-/
structure SumsParts [Zero F] [Add F] (p : Pattern) (tasks : List T) (writes : T → Nat → Nat → Bool)
    (run : T → Except Failure (Array F)) (result : Except Failure (SparseMatrix F)) : Prop where
  once : WrittenOnce p tasks writes
  parts : ∀ matrix, result = .ok matrix → ∃ parts, tasks.mapM run = .ok parts ∧
    matrix.values = sumParts p.nnz parts ∧
    List.Forall₂ (fun t part => IsPart p matrix.values (writes t) part) tasks parts

/-- Parts that are picked into zeros are the parts of their sum. -/
theorem sumsParts_of_overlays
    [Zero F] [Add F] (hleft : ∀ x : F, 0 + x = x) (hright : ∀ x : F, x + 0 = x) {p : Pattern}
    {tasks : List T} {writes : T → Nat → Nat → Bool} {picks : T → Nat → Nat → Option F}
    {run : T → Except Failure (Array F)} {result : Except Failure (SparseMatrix F)}
    (honce : WrittenOnce p tasks writes)
    (hnone : ∀ t ∈ tasks, ∀ r c, writes t r c = false → picks t r c = none)
    (hresult : ∀ matrix, result = .ok matrix → ∃ parts, tasks.mapM run = .ok parts ∧
      matrix = ⟨p, sumParts p.nnz parts⟩)
    (check : Bool) (good : T → Prop)
    (hrun : ∀ matrix, result = .ok matrix → ∀ t ∈ tasks, ∀ part, run t = .ok part ↔
      part = overlay p (picks t) (zeroValues p) ∧ (check = true → good t)) :
    SumsParts p tasks writes run result := by
  refine ⟨honce, fun matrix hok => ?_⟩
  obtain ⟨parts, hparts, rfl⟩ := hresult matrix hok
  have hmap := ((mapM_tasks_eq_ok_iff (hrun _ hok)).1 hparts).1
  refine ⟨parts, hparts, rfl, ?_⟩
  rw [hmap, sumParts_overlays hleft hright honce hnone, List.forall₂_map_right_iff,
    List.forall₂_same]
  exact fun t ht => isPart_of_overlays honce hnone ht

/-- When a guarded run returns something that is made into `y`. -/
theorem Run.Guarded.alone_bind_eq_ok_iff
    {α β : Type} {check : Bool} {good : Prop} {x : Run F α} {m : Memory F} {a : α}
    (h : Run.Guarded check good x m fun b _ => b = a) {g : α → β} {y : β} :
    (do return g (← x.alone m)) = Except.ok y ↔ y = g a ∧ (check = true → good) := by
  refine bind_eq_ok_iff.trans ?_
  simp only [h.alone_eq_ok_iff]
  constructor
  · rintro ⟨_, ⟨rfl, hgood⟩, hy⟩
    cases hy
    exact ⟨rfl, hgood⟩
  · rintro ⟨rfl, hgood⟩
    exact ⟨a, ⟨rfl, hgood⟩, rfl⟩

section Directions

variable {count : JacobianPlan → Nat} {plan : JacobianPlan} {b : Batch}

theorem block_of_mem_select
    {dir : Direction} (h : dir ∈ b.select (directions count [plan])) :
    [plan][dir.block]? = some dir.plan :=
  (mem_directions_iff.1 (mem_of_mem_select h)).1

theorem plan_of_mem_select
    {dir : Direction} (h : dir ∈ b.select (directions count [plan])) :
    dir.plan = plan :=
  List.mem_singleton.1 (List.mem_of_getElem? (block_of_mem_select h))

/-- The directions of a plan that fits lead from an input to an output of the tape. -/
theorem JacobianPlan.Fits.range_of_mem_select
    {F : Type} {f : Tape F} (h : plan.Fits f) {dir : Direction}
    (hdir : dir ∈ b.select (directions count [plan])) :
    dir.plan.output < f.nOut ∧ dir.plan.input < f.nIn := by
  rw [plan_of_mem_select hdir]
  exact ⟨h.output, h.input⟩

theorem mem_select_directions
    {k : Nat}
    (h : ⟨0, plan, k⟩ ∈ b.select (directions count [plan])) :
    b.start ≤ k ∧ k < b.stop := by
  have hdirs : directions count [plan] = (List.range (count plan)).map (⟨0, plan, ·⟩) := by
    simp [directions]
  obtain ⟨i, hi⟩ := List.mem_iff_getElem?.1 h
  rw [Batch.select, List.getElem?_take] at hi
  split at hi
  · next hlt =>
      rw [List.getElem?_drop, hdirs, List.getElem?_map] at hi
      obtain ⟨j, hj, hk⟩ := Option.map_eq_some_iff.1 hi
      cases hk
      obtain ⟨-, rfl⟩ := List.getElem?_eq_some_iff.1 hj
      rw [List.getElem_range]
      omega
  · cases hi

/-- A batch of directions of a plan is not empty. -/
theorem select_directions_ne_nil
    {size : Nat} (hsize : 1 ≤ size) (hb : b ∈ batches (count plan) size) :
    b.select (directions count [plan]) ≠ [] :=
  select_ne_nil (fun _ => hsize) (by rwa [length_directions_singleton])

/-- What is asked of the directions of all batches is asked of all directions of the plan. -/
theorem forall_select_directions_iff
    (count : JacobianPlan → Nat) (plan : JacobianPlan) {size : Nat} (hsize : 1 ≤ size)
    {P : Direction → Prop} :
    (∀ b ∈ batches (count plan) size, ∀ dir ∈ b.select (directions count [plan]), P dir) ↔
      ∀ dir ∈ directions count [plan], P dir := by
  rw [← length_directions_singleton count plan]
  exact forall_select_iff fun _ => hsize

/-- A memory for some adjoint directions has the full layout. -/
theorem Tape.full_le_requiredMemory
    {f : Tape F} {dirs : List Direction} (h : dirs ≠ []) (nfwd : Nat) :
    f.full.size ≤ (f.requiredMemory nfwd dirs.length).work := by
  have hpos := List.length_pos_iff.2 h
  rw [requiredMemory, layout, if_neg (by omega)]

end Directions

namespace JacobianPlan

/-- A sweep over some of the forward or of the adjoint colors of a plan. -/
inductive Task where
  | forward (b : Batch)
  | adjoint (b : Batch)
  deriving DecidableEq, Repr

/-- The sweeps of a plan with `size` directions in one, forward sweeps first. -/
def tasks (plan : JacobianPlan) (size : Nat) : List Task :=
  (batches plan.nfwd size).map .forward ++ (batches plan.nadj size).map .adjoint

/-- Whether a sweep writes entry `(r, c)`; a row with an adjoint color is left to that color. -/
def writes (plan : JacobianPlan) : Task → Nat → Nat → Bool
  | .forward b, r, c =>
      (plan.partition.adjoint.colorOf r).isNone && b.holds (plan.partition.forward.colorOf c)
  | .adjoint b, r, _ => b.holds (plan.partition.adjoint.colorOf r)

variable {plan : JacobianPlan} {size : Nat}

theorem writtenOnce_tasks
    (hsize : 1 ≤ size) (h : plan.partition.Recoverable plan.pattern) :
    WrittenOnce plan.pattern (plan.tasks size) plan.writes := by
  intro r c hc
  simp only [tasks, List.filter_append, List.filter_map, Function.comp_def, writes]
  rcases h.covers hc with ⟨k, hrow, -⟩ | ⟨hrow, k, hcolumn, -⟩
  · obtain ⟨b, hb⟩ := filter_holds_batches (n := plan.nadj) hsize (Coloring.lt_ncolors hrow)
    refine ⟨.adjoint b, ?_⟩
    simp [hrow, hb]
  · obtain ⟨b, hb⟩ := filter_holds_batches (n := plan.nfwd) hsize (Coloring.lt_ncolors hcolumn)
    refine ⟨.forward b, ?_⟩
    simp [hrow, hcolumn, hb, filter_holds_none]

section Values

variable [Zero F] [One F] [Add F] [Mul F] [Calculus F] {f : Tape F} {xs : List (List F)}

/-- What a sweep of a plan finds for the entries of the pattern. -/
def picks (f : Tape F) (xs : List (List F)) (plan : JacobianPlan) : Task → Nat → Nat → Option F
  | .forward b => Compressed.fromColumns ((b.select (directions nfwd [plan])).map
      fun dir => (dir, f.columnSum xs dir)) 0 plan.partition
  | .adjoint b => Compressed.fromRows ((b.select (directions nadj [plan])).map
      fun dir => (dir, f.pushedRow xs dir)) 0 plan.partition

/-- No direction of a sweep meets a number that is not finite. -/
def TaskFinite (f : Tape F) (xs : List (List F)) (plan : JacobianPlan) : Task → Prop
  | .forward b => ∀ dir ∈ b.select (directions nfwd [plan]),
      f.FiniteForward (f.layout 0) xs dir.tangentSeed
  | .adjoint b => Everywhere f.elements (f.FiniteValues f.full xs) ∧
      ∀ dir ∈ b.select (directions nadj [plan]),
        f.FinitePushed xs [dir.plan.output] dir.adjointSeed

/-- A sweep finds nothing for entries that it does not write. -/
theorem picks_eq_none
    {t : Task} {r c : Nat} (h : plan.writes t r c = false) :
    plan.picks f xs t r c = none := by
  have hsum : ∀ {count : JacobianPlan → Nat} {b : Batch} (result : Direction → Array F) {k : Nat},
      b.holds (some k) = false → Compressed.sum? ((b.select (directions count [plan])).map
        fun dir => (dir, result dir)) 0 k = none := by
    intro count b result k hout
    have hplan : [plan][0]? = some plan := rfl
    refine Option.eq_none_iff_forall_not_mem.2 fun x hx => ?_
    obtain ⟨hmem, -⟩ := (Compressed.sum?_eq_some_iff (fun _ => block_of_mem_select) hplan
      result).1 hx
    have hin := mem_select_directions hmem
    simp [Batch.holds, hin] at hout
  cases t with
  | forward b =>
      simp only [picks, Compressed.fromColumns]
      split
      · rfl
      · next hrow =>
          cases hcolor : plan.partition.forward.colorOf c with
          | none => rfl
          | some k =>
              have hnone : plan.partition.adjoint.colorOf r = none := by simpa using hrow
              have hout : b.holds (some k) = false := by
                simpa [writes, hcolor, hnone] using h
              simp [hsum _ hout]
  | adjoint b =>
      simp only [picks, Compressed.fromRows]
      cases hcolor : plan.partition.adjoint.colorOf r with
      | none => rfl
      | some k =>
          have hout : b.holds (some k) = false := by
            simpa [writes, hcolor] using h
          simp [hsum _ hout]

/-- All sweeps together find the values of the plan. -/
theorem foldl_picks
    (hsize : 1 ≤ size) :
    (plan.tasks size).foldl (fun values t => overlay plan.pattern (plan.picks f xs t) values)
      (zeroValues plan.pattern) = plan.values f xs := by
  have hplan : [plan][0]? = some plan := rfl
  have hcolumns : (batches plan.nfwd size).foldl
      (fun values b => overlay plan.pattern (plan.picks f xs (.forward b)) values)
      (zeroValues plan.pattern) = plan.forwardValues f xs := by
    rw [← length_directions_singleton nfwd plan]
    exact foldl_fromColumns (fun _ => hsize) hplan
  have hrows : (batches plan.nadj size).foldl
      (fun values b => overlay plan.pattern (plan.picks f xs (.adjoint b)) values)
      (plan.forwardValues f xs) = plan.values f xs := by
    rw [← length_directions_singleton nadj plan]
    exact foldl_fromRows (fun _ => hsize) hplan
  rw [tasks, List.foldl_append, List.foldl_map, List.foldl_map, hcolumns, hrows]

/-- The sweeps are finite exactly if the directions of the plan are. -/
theorem forall_taskFinite_iff
    (hsize : 1 ≤ size) :
    (∀ t ∈ plan.tasks size, plan.TaskFinite f xs t) ↔ plan.Finite f xs := by
  have hforward := forall_select_directions_iff nfwd plan hsize
    (P := fun dir => f.FiniteForward (f.layout 0) xs dir.tangentSeed)
  have hadjoint := forall_select_directions_iff nadj plan hsize
    (P := fun dir => f.FinitePushed xs [dir.plan.output] dir.adjointSeed)
  have hone : (∀ p ∈ [plan], p.Finite f xs) ↔ _ := forall_finite_iff
  rw [List.forall_mem_singleton] at hone
  rw [hone, ← hforward, ← hadjoint]
  simp only [tasks, List.forall_mem_append, List.forall_mem_map, TaskFinite]
  refine and_congr_right fun _ => ?_
  constructor
  · intro h
    refine ⟨fun hne => ?_, fun b hb => (h b hb).2⟩
    have hpos := List.length_pos_iff.2 hne
    rw [length_directions_singleton] at hpos
    obtain ⟨b, hb, -⟩ := exists_mem_batches hsize hpos
    exact (h b hb).1
  · intro h b hb
    refine ⟨h.1 fun hnil => ?_, h.2 b hb⟩
    exact select_directions_ne_nil hsize hb (by simp [hnil, Batch.select])

end Values

end JacobianPlan

namespace Tape

section Jacobians

variable [Zero F] [One F] [Add F] [Mul F] [Calculus F] {f : Tape F} {xs : List (List F)}
  {plan : JacobianPlan} {size : Nat}

/-- One sweep of a plan in a memory of its own. -/
def jacobianPart (f : Tape F) (op : String) (xs : List (List F)) (plan : JacobianPlan) :
    JacobianPlan.Task → Except Failure (Array F)
  | .forward b => f.forwardPart (f.segmentsAt (f.layout 0)) xs plan b
  | .adjoint b => f.adjointPart op (f.segmentsAt f.full) xs plan b

/-- The parts of a Jacobian, one for every sweep. -/
theorem jacobianByParts_eq_ok_iff_parts
    (hf : f.WellFormed) {jac : SparseMatrix F} :
    f.jacobianByParts xs plan = .ok jac ↔ (plan.Fits f ∧ FitLists f.inputPatterns xs) ∧
      ∃ parts, (plan.tasks f.config.maxDirections).mapM (f.jacobianPart "jacobian_par" xs plan) =
          .ok parts ∧ jac = ⟨plan.pattern, sumParts plan.pattern.nnz parts⟩ := by
  unfold jacobianByParts
  rw [segments_of_sound hf (layout_sound hf 0), segments_full hf]
  simp only [bind_eq_ok_iff, orReject_eq_ok_iff, Except.ok.injEq, exists_eq_left',
    JacobianPlan.tasks, List.mapM_append, List.mapM_map]
  constructor
  · rintro ⟨_, hplan, _, hinputs, fwd, hfwd, adj, hadj, hjac⟩
    cases hjac
    exact ⟨⟨checkJacobianPlan_eq_ok_iff.1 hplan, checkLists_eq_ok_iff.1 hinputs⟩, _,
      ⟨fwd, hfwd, adj, hadj, rfl⟩, rfl⟩
  · rintro ⟨⟨hfits, hfit⟩, _, ⟨fwd, hfwd, adj, hadj, hparts⟩, rfl⟩
    cases hparts
    exact ⟨_, checkJacobianPlan_eq_ok_iff.2 hfits, _, checkLists_eq_ok_iff.2 hfit, fwd, hfwd, adj,
      hadj, rfl⟩

theorem guarded_forwardTask
    (hf : f.WellFormed) (hfit : FitLists f.inputPatterns xs) (hfits : plan.Fits f)
    (hsize : 1 ≤ size) {b : Batch} (hb : b ∈ batches plan.nfwd size) :
    Run.Guarded f.config.checkFinite (plan.TaskFinite f xs (.forward b))
      (f.forwardDirections (f.segmentsAt (f.layout 0)) xs
        (b.select (directions JacobianPlan.nfwd [plan])))
      (f.memory (b.select (directions JacobianPlan.nfwd [plan])).length 0)
      fun found _ => found = (b.select (directions JacobianPlan.nfwd [plan])).map
        fun dir => (dir, f.columnSum xs dir) := by
  refine ((guarded_forwardDirections hf (Memory.wellSized_new _) (Nat.le_refl _) hfit
    (Nat.le_refl _) fun _ hdir => (hfits.range_of_mem_select hdir).1).imp
      fun _ _ h => h.1).congr ?_
  rw [everywhere_passes_iff_of_ne_nil (by simpa using select_directions_ne_nil hsize hb)]
  exact List.forall_mem_map

theorem guarded_adjointTask
    [Calculus.NeutralZero F] (hf : f.WellFormed) (hfit : FitLists f.inputPatterns xs)
    (hfits : plan.Fits f) (op : String) (hsize : 1 ≤ size) {b : Batch}
    (hb : b ∈ batches plan.nadj size) :
    Run.Guarded f.config.checkFinite (plan.TaskFinite f xs (.adjoint b))
      (do
        f.loadValues op (f.segmentsAt f.full) xs
        f.adjointDirections (f.segmentsAt f.full) (b.select (directions JacobianPlan.nadj [plan])))
      (f.memory 0 (b.select (directions JacobianPlan.nadj [plan])).length)
      fun found _ => found = (b.select (directions JacobianPlan.nadj [plan])).map
        fun dir => (dir, f.pushedRow xs dir) := by
  have hwork := full_le_requiredMemory (f := f) (select_directions_ne_nil hsize hb) 0
  refine (guarded_loadValues hf (Memory.wellSized_new _) hwork hfit op).bind fun _ m₁ h => ?_
  obtain ⟨hsized, hsizes, hvalues⟩ := h
  exact (guarded_adjointDirections hf hsized (by rw [hsizes]; exact hwork) hvalues
    (by rw [hsizes]; exact Nat.le_refl _) fun _ => hfits.range_of_mem_select).imp fun _ _ h => h.1

/-- A part is refused for its own directions only. -/
theorem jacobianPart_eq_ok_iff
    [Calculus.NeutralZero F] (hf : f.WellFormed) (hfit : FitLists f.inputPatterns xs)
    (hfits : plan.Fits f) (op : String) (hsize : 1 ≤ size) {t : JacobianPlan.Task}
    (ht : t ∈ plan.tasks size) {part : Array F} :
    f.jacobianPart op xs plan t = .ok part ↔
      part = overlay plan.pattern (plan.picks f xs t) (zeroValues plan.pattern) ∧
        (f.config.checkFinite = true → plan.TaskFinite f xs t) := by
  rcases List.mem_append.1 ht with ht | ht
  · obtain ⟨b, hb, rfl⟩ := List.mem_map.1 ht
    exact (guarded_forwardTask hf hfit hfits hsize hb).alone_bind_eq_ok_iff
  · obtain ⟨b, hb, rfl⟩ := List.mem_map.1 ht
    exact (guarded_adjointTask hf hfit hfits op hsize hb).alone_bind_eq_ok_iff

/-- When the Jacobian by parts is returned, which it is, and what its parts are. -/
theorem jacobianByParts_eq_ok_iff
    [Calculus.NeutralZero F] (hleft : ∀ x : F, 0 + x = x) (hf : f.WellFormed)
    (hmax : 1 ≤ f.config.maxDirections) (hplan : plan.partition.Recoverable plan.pattern)
    {jac : SparseMatrix F} :
    f.jacobianByParts xs plan = .ok jac ↔ (plan.Fits f ∧ FitLists f.inputPatterns xs) ∧
      jac = ⟨plan.pattern, plan.values f xs⟩ ∧
        (f.config.checkFinite = true → plan.Finite f xs) := by
  rw [jacobianByParts_eq_ok_iff_parts hf, ← JacobianPlan.forall_taskFinite_iff hmax]
  refine and_congr_right fun ⟨hfits, hfit⟩ => ?_
  have hparts : ∀ t ∈ plan.tasks f.config.maxDirections, ∀ part,
      f.jacobianPart "jacobian_par" xs plan t = .ok part ↔
        part = overlay plan.pattern (plan.picks f xs t) (zeroValues plan.pattern) ∧
          (f.config.checkFinite = true → plan.TaskFinite f xs t) := fun t ht part =>
    jacobianPart_eq_ok_iff hf hfit hfits "jacobian_par" hmax ht
  have hnone : ∀ t ∈ plan.tasks f.config.maxDirections, ∀ r c, plan.writes t r c = false →
      plan.picks f xs t r c = none := fun _ _ _ _ => JacobianPlan.picks_eq_none
  have hsum := sumParts_overlays hleft Calculus.NeutralZero.add_zero
    (JacobianPlan.writtenOnce_tasks hmax hplan) hnone
  rw [JacobianPlan.foldl_picks hmax] at hsum
  simp only [mapM_tasks_eq_ok_iff hparts]
  constructor
  · rintro ⟨_, ⟨rfl, hfinite⟩, rfl⟩
    exact ⟨by rw [hsum], hfinite⟩
  · rintro ⟨rfl, hfinite⟩
    exact ⟨_, ⟨rfl, hfinite⟩, by rw [hsum]⟩

/-- On a memory that the plan's check accepts, the Jacobian from the plan is the one by parts. -/
theorem jacobianByParts_eq_ok_iff_withPlan
    [Calculus.NeutralZero F] (hleft : ∀ x : F, 0 + x = x) (hf : f.WellFormed)
    (hmax : 1 ≤ f.config.maxDirections) (hplan : plan.partition.Recoverable plan.pattern)
    {m : Memory F} (hm : m.WellSized)
    (hsizes : m.sizes.check jacobianOp (f.leastMemory plan.nfwd plan.nadj) = .ok ())
    {jac : SparseMatrix F} :
    f.jacobianByParts xs plan = .ok jac ↔ (f.jacobianWithPlan xs plan).alone m = .ok jac := by
  have haccepted : f.checkJacobians jacobianOp m.sizes xs [plan] = .ok () ↔
      plan.Fits f ∧ FitLists f.inputPatterns xs := by
    rw [checkJacobians_eq_ok_iff, length_directions_singleton, length_directions_singleton,
      List.forall_mem_singleton]
    exact ⟨fun h => ⟨h.1, h.2.1⟩, fun h => ⟨h.1, h.2, hsizes⟩⟩
  rw [jacobianByParts_eq_ok_iff hleft hf hmax hplan]
  cases hcheck : f.checkJacobians jacobianOp m.sizes xs [plan] with
  | error e =>
      have hrefused : (f.jacobianWithPlan xs plan).alone m = .error (.rejected e) :=
        Run.alone_bind_of_error (jacobianValues_of_check_error hcheck)
      rw [hrefused]
      refine iff_of_false (fun h => ?_) (by simp)
      rw [haccepted.2 h.1] at hcheck
      cases hcheck
  | ok _ =>
      rw [(guarded_jacobianWithPlan hf hmax hm hcheck).alone_eq_ok_iff]
      exact and_iff_right (haccepted.1 hcheck)

end Jacobians

section Hessians

variable [Zero F] [One F] [Add F] [Mul F] [Calculus F] {f : Tape F} {xs : List (List F)}
  {plan : HessianPlan}

/-- What the sweep of a batch of colors finds, in a memory of its own. -/
def batchProducts (f : Tape F) (xs : List (List F)) (plan : HessianPlan) (b : Batch) :
    Except Failure (List (List F)) :=
  (f.hessianProducts (f.segmentsAt f.full) xs plan.output plan.input
    (b.members.map (colorTangent plan.input plan.coloring))).alone (f.memory b.members.length 1)

end Hessians

end Tape

namespace HessianPlan

/-- Whether a batch of colors writes the entries of column `c`. -/
def writes (plan : HessianPlan) (b : Batch) (_ c : Nat) : Bool :=
  b.holds (plan.coloring.colorOf c)

/-- The batches of colors of a plan, with `size` colors in one. -/
def tasks (plan : HessianPlan) (size : Nat) : List Batch :=
  batches plan.coloring.ncolors size

variable [Zero F] [One F] [Add F] [Mul F] [Calculus F] {f : Tape F} {xs : List (List F)}
  {plan : HessianPlan}

/-- What a batch finds for the entries of the pattern. -/
def picks (f : Tape F) (xs : List (List F)) (plan : HessianPlan) (b : Batch) :
    Nat → Nat → Option F :=
  match f.batchProducts xs plan b with
  | .ok products => Tape.fromProducts (products.map List.toArray).toArray b plan.coloring
  | .error _ => fun _ _ => none

theorem writtenOnce_tasks
    {size : Nat} (hsize : 1 ≤ size) (h : plan.coloring.Separates plan.pattern fun _ => True) :
    WrittenOnce plan.pattern (plan.tasks size) plan.writes := by
  intro r c hc
  obtain ⟨k, hk⟩ := Option.isSome_iff_exists.1 (h.isSome r c trivial hc)
  simp only [tasks, writes, hk]
  exact filter_holds_batches hsize (Coloring.lt_ncolors hk)

theorem picks_eq_none
    {b : Batch} {r c : Nat} (h : plan.writes b r c = false) :
    plan.picks f xs b r c = none := by
  cases hproducts : f.batchProducts xs plan b with
  | error e => simp only [picks, hproducts]
  | ok products =>
      simp only [picks, hproducts, Tape.fromProducts]
      cases hcolor : plan.coloring.colorOf c with
      | none => rfl
      | some k =>
          simp only [writes, hcolor, Batch.holds, Option.any_some, decide_eq_false_iff_not] at h
          simp [h]

end HessianPlan

namespace Tape

/-- A memory with directions for a whole batch makes the batches of the configuration. -/
theorem batches_eq_tasks
    {n size nfwd : Nat} (h : min size n ≤ nfwd) :
    batches n (min size nfwd) = batches n size := by
  rcases Nat.lt_or_ge nfwd size with hlt | hge
  · rw [Nat.min_eq_right hlt.le, batches_of_le (by omega : n ≤ nfwd), batches_of_le (by omega)]
  · rw [Nat.min_eq_left hge]

/-- A memory for the batches of the configuration is large enough for a Hessian. -/
theorem check_leastHessianMemory
    [Zero F] {f : Tape F} (hmax : 1 ≤ f.config.maxDirections) (op : String) (plan : HessianPlan) :
    (f.memory f.config.maxDirections 1 : Memory F).sizes.check op (f.leastHessianMemory plan) =
      .ok () := by
  refine MemorySizes.check_eq_ok_iff.2 ⟨Nat.le_refl _, ?_, Nat.le_refl _, ?_⟩
  · exact Nat.le_trans (Nat.min_le_right ..) hmax
  · exact Nat.le_trans (Nat.min_le_right plan.coloring.ncolors 1) hmax

section Hessians

variable [Zero F] [One F] [Add F] [Mul F] [Calculus F] {f : Tape F} {xs : List (List F)}
  {plan : HessianPlan} {m : Memory F}

/-- A batch of colors finds the same on any memory with enough directions. -/
theorem guarded_hessianBatch_alone
    (hf : f.WellFormed) (hfit : FitLists f.inputPatterns xs) (hfits : plan.Fits f) {b : Batch}
    (hne : b.members ≠ []) (hm : m.Holding f.full b.members.length 1) (values : Array F) :
    Run.Guarded true (∃ products, f.batchProducts xs plan b = .ok products)
      (f.hessianBatch (f.segmentsAt f.full) xs plan b values) m
      fun result m' => result = overlay plan.pattern (plan.picks f xs b) values ∧
        m'.WellSized ∧ m'.sizes = m.sizes := by
  have hlength : (b.members.map (colorTangent (F := F) plan.input plan.coloring)).length =
      b.members.length := List.length_map ..
  have hheld : m.Holding f.full
      (b.members.map (colorTangent (F := F) plan.input plan.coloring)).length 1 := by
    rw [hlength]
    exact hm
  have hown : (f.memory b.members.length 1 : Memory F).Holding f.full
      (b.members.map (colorTangent (F := F) plan.input plan.coloring)).length 1 := by
    rw [hlength]
    exact ⟨Memory.wellSized_new _, Nat.le_refl _, Nat.le_refl _, Nat.le_refl _⟩
  have halike := alike_hessianProducts hf (Nat.le_refl 1) hheld hown hfit hfits.output hfits.input
  rcases halike with ⟨products, m₁, _, m₁', hproducts, hproducts', rfl, hm₁, -⟩ | ⟨e, he, he'⟩
  · have hown : f.batchProducts xs plan b = .ok products := Run.alone_eq_ok_iff.2 ⟨m₁', hproducts'⟩
    have hbatch : Run.Gives (f.hessianBatch (f.segmentsAt f.full) xs plan b values) m
        (overlay plan.pattern (plan.picks f xs b) values) m₁ := by
      refine Run.gives_bind.2 ⟨products, m₁, hproducts, Run.gives_pure.2 ⟨?_, rfl⟩⟩
      rw [HessianPlan.picks, hown]
    exact (Run.ends_iff_of_gives hbatch).2 ⟨⟨rfl, hm₁⟩, fun _ => ⟨products, hown⟩⟩
  · have hbatch : (f.hessianBatch (f.segmentsAt f.full) xs plan b values).alone m = .error e :=
      Run.alone_bind_of_error he
    have hpos := List.length_pos_iff.2 hne
    have hstop : b.stop - b.start ≤ m.sizes.nfwd := b.length_members ▸ hm.nfwd
    have hends := ends_hessianBatch hf hm.wellSized hfits
      ⟨hfit, hm.work, fun _ => Nat.le_trans hpos hm.nfwd, hm.nadj⟩ hstop values
    refine (Run.ends_iff_of_error hbatch).2 ⟨rfl, ?_, (Run.ends_iff_of_error hbatch).1 hends⟩
    rintro ⟨products, hok⟩
    cases hok.symm.trans he'

/-- When a Hessian whose batches fit the memory is returned, and which it is. -/
theorem hessianWithPlan_eq_ok_iff
    (hf : f.WellFormed) (hmax : 1 ≤ f.config.maxDirections) (hm : m.WellSized)
    (hcheck : f.checkHessian hessianOp m.sizes xs plan = .ok ())
    (hroom : min f.config.maxDirections plan.coloring.ncolors ≤ m.sizes.nfwd)
    {hess : SparseMatrix F} :
    (f.hessianWithPlan xs plan).alone m = .ok hess ↔
      hess = ⟨plan.pattern, (plan.tasks f.config.maxDirections).foldl
        (fun values b => overlay plan.pattern (plan.picks f xs b) values)
        (zeroValues plan.pattern)⟩ ∧
      ∀ b ∈ plan.tasks f.config.maxDirections,
        ∃ products, f.batchProducts xs plan b = .ok products := by
  have haccepts := acceptsHessian_of_checkHessian hcheck
  obtain ⟨_, hplan, -⟩ := bind_eq_ok_iff.1 hcheck
  have hfits := fits_of_checkHessianPlan hplan
  have hbatch : ∀ b ∈ plan.tasks f.config.maxDirections, ∀ (values : Array F) (m₁ : Memory F),
      m₁.WellSized ∧ m₁.sizes = m.sizes →
      Run.Guarded true (∃ products, f.batchProducts xs plan b = .ok products)
        (f.hessianBatch (f.segmentsAt f.full) xs plan b values) m₁
        fun result m₂ => result = overlay plan.pattern (plan.picks f xs b) values ∧
          m₂.WellSized ∧ m₂.sizes = m.sizes := by
    rintro b hb values m₁ ⟨hsized, hsizes⟩
    have hstop := stop_of_mem_batches hb
    have hcount := b.length_members
    refine (guarded_hessianBatch_alone hf haccepts.fit hfits (members_ne_nil (fun _ => hmax) hb)
      ⟨hsized, by rw [hsizes]; exact haccepts.work, by rw [hsizes]; omega,
        by rw [hsizes]; exact haccepts.nadj⟩ values).imp fun _ _ h => ?_
    exact ⟨h.1, h.2.1, h.2.2.trans hsizes⟩
  have hguarded : Run.Guarded true
      (∀ b ∈ plan.tasks f.config.maxDirections,
        ∃ products, f.batchProducts xs plan b = .ok products) (f.hessianWithPlan xs plan) m
      fun hess _ => hess = ⟨plan.pattern, (plan.tasks f.config.maxDirections).foldl
        (fun values b => overlay plan.pattern (plan.picks f xs b) values)
        (zeroValues plan.pattern)⟩ := by
    unfold hessianWithPlan
    rw [Run.guarded_get_bind]
    refine (Run.guarded_bind_of_gives (Run.gives_check.2 ⟨hcheck, rfl⟩)).2 ?_
    refine (Run.guarded_bind_of_gives (Run.gives_ofExcept.2 ⟨segments_full hf, rfl⟩)).2 ?_
    dsimp only
    rw [batches_eq_tasks hroom]
    refine (Run.guarded_foldlM hbatch (zeroValues plan.pattern) m ⟨hm, rfl⟩).bind_gives
      fun values m₁ h => ?_
    obtain ⟨rfl, -⟩ := h
    exact ⟨_, m₁, Run.gives_pure.2 ⟨rfl, rfl⟩, rfl⟩
  rw [hguarded.alone_eq_ok_iff]
  simp

theorem hessianPart_eq_ok_iff
    (hf : f.WellFormed) (hfit : FitLists f.inputPatterns xs) (hfits : plan.Fits f) {b : Batch}
    (hne : b.members ≠ []) {part : Array F} :
    f.hessianPart (f.segmentsAt f.full) xs plan b = .ok part ↔
      part = overlay plan.pattern (plan.picks f xs b) (zeroValues plan.pattern) ∧
        (true = true → ∃ products, f.batchProducts xs plan b = .ok products) := by
  have hown : (f.memory b.members.length 1 : Memory F).Holding f.full b.members.length 1 :=
    ⟨Memory.wellSized_new _, Nat.le_refl _, Nat.le_refl _, Nat.le_refl _⟩
  exact ((guarded_hessianBatch_alone hf hfit hfits hne hown _).imp fun _ _ h => h.1).alone_eq_ok_iff

/-- The parts of a Hessian, one for every batch of colors. -/
theorem hessianByParts_eq_ok_iff_parts
    (hf : f.WellFormed) {hess : SparseMatrix F} :
    f.hessianByParts xs plan = .ok hess ↔ (plan.Matches f ∧ FitLists f.inputPatterns xs) ∧
      ∃ parts, (plan.tasks f.config.maxDirections).mapM
          (f.hessianPart (f.segmentsAt f.full) xs plan) = .ok parts ∧
        hess = ⟨plan.pattern, sumParts plan.pattern.nnz parts⟩ := by
  unfold hessianByParts
  rw [segments_full hf]
  simp only [bind_eq_ok_iff, orReject_eq_ok_iff, Except.ok.injEq, exists_eq_left',
    HessianPlan.tasks]
  constructor
  · rintro ⟨_, hplan, _, hinputs, parts, hparts, hhess⟩
    cases hhess
    exact ⟨⟨checkHessianPlan_eq_ok_iff.1 hplan, checkLists_eq_ok_iff.1 hinputs⟩, parts, hparts, rfl⟩
  · rintro ⟨⟨hmatches, hfit⟩, parts, hparts, rfl⟩
    exact ⟨_, checkHessianPlan_eq_ok_iff.2 hmatches, _, checkLists_eq_ok_iff.2 hfit, parts, hparts,
      rfl⟩

/-- When the Hessian by parts is returned, and which it is. -/
theorem hessianByParts_eq_ok_iff
    [Calculus.NeutralZero F] (hleft : ∀ x : F, 0 + x = x) (hf : f.WellFormed)
    (hmax : 1 ≤ f.config.maxDirections)
    (hplan : plan.coloring.Separates plan.pattern fun _ => True) {hess : SparseMatrix F} :
    f.hessianByParts xs plan = .ok hess ↔ (plan.Matches f ∧ FitLists f.inputPatterns xs) ∧
      hess = ⟨plan.pattern, (plan.tasks f.config.maxDirections).foldl
        (fun values b => overlay plan.pattern (plan.picks f xs b) values)
        (zeroValues plan.pattern)⟩ ∧
      ∀ b ∈ plan.tasks f.config.maxDirections,
        ∃ products, f.batchProducts xs plan b = .ok products := by
  rw [hessianByParts_eq_ok_iff_parts hf]
  refine and_congr_right fun ⟨hmatches, hfit⟩ => ?_
  have hparts : ∀ b ∈ plan.tasks f.config.maxDirections, ∀ part,
      f.hessianPart (f.segmentsAt f.full) xs plan b = .ok part ↔
        part = overlay plan.pattern (plan.picks f xs b) (zeroValues plan.pattern) ∧
          (true = true → ∃ products, f.batchProducts xs plan b = .ok products) := fun b hb part =>
    hessianPart_eq_ok_iff hf hfit hmatches.fits (members_ne_nil (fun _ => hmax) hb)
  have hnone : ∀ b ∈ plan.tasks f.config.maxDirections, ∀ r c, plan.writes b r c = false →
      plan.picks f xs b r c = none := fun _ _ _ _ => HessianPlan.picks_eq_none
  have hsum := sumParts_overlays hleft Calculus.NeutralZero.add_zero
    (HessianPlan.writtenOnce_tasks hmax hplan) hnone
  simp only [mapM_tasks_eq_ok_iff hparts]
  constructor
  · rintro ⟨_, ⟨rfl, hreturns⟩, rfl⟩
    exact ⟨by rw [hsum], hreturns trivial⟩
  · rintro ⟨rfl, hreturns⟩
    exact ⟨_, ⟨rfl, fun _ => hreturns⟩, by rw [hsum]⟩

/--
On a memory that the plan's check accepts, the Hessian from the plan is the one by parts: on a
memory with directions for a whole batch over any arithmetic, on a smaller one where the batches
do not matter.
-/
theorem hessianByParts_eq_ok_iff_withPlan
    [Calculus.NeutralZero F] (hleft : ∀ x : F, 0 + x = x) (hf : f.WellFormed)
    (hmax : 1 ≤ f.config.maxDirections)
    (hplan : plan.coloring.Separates plan.pattern fun _ => True) (hm : m.WellSized)
    (hsizes : m.sizes.check hessianOp (f.leastHessianMemory plan) = .ok ())
    (hroom : min f.config.maxDirections plan.coloring.ncolors ≤ m.sizes.nfwd ∨
      Calculus.AbsorbingZero F) {hess : SparseMatrix F} :
    f.hessianByParts xs plan = .ok hess ↔ (f.hessianWithPlan xs plan).alone m = .ok hess := by
  have haccepted : f.checkHessian hessianOp m.sizes xs plan = .ok () ↔
      plan.Matches f ∧ FitLists f.inputPatterns xs := by
    rw [checkHessian_eq_ok_iff]
    exact ⟨fun h => ⟨h.1, h.2.1⟩, fun h => ⟨h.1, h.2, hsizes⟩⟩
  rw [hessianByParts_eq_ok_iff hleft hf hmax hplan]
  cases hcheck : f.checkHessian hessianOp m.sizes xs plan with
  | error e =>
      rw [hessianWithPlan_of_check_error hcheck]
      refine iff_of_false (fun h => ?_) (by simp)
      rw [haccepted.2 h.1] at hcheck
      cases hcheck
  | ok _ =>
      rw [and_iff_right (haccepted.1 hcheck)]
      rcases hroom with hroom | habsorbs
      · exact (hessianWithPlan_eq_ok_iff hf hmax hm hcheck hroom).symm
      · have hwide : f.checkHessian hessianOp (f.memory f.config.maxDirections 1 : Memory F).sizes
            xs plan = .ok () :=
          checkHessian_eq_ok_iff.2 ⟨(haccepted.1 hcheck).1, (haccepted.1 hcheck).2,
            check_leastHessianMemory hmax hessianOp plan⟩
        have hsized : (f.memory f.config.maxDirections 1 : Memory F).WellSized :=
          Memory.wellSized_new _
        rw [← hessianWithPlan_eq_ok_iff hf hmax hsized hwide (Nat.min_le_left ..)]
        exact ((guarded_hessianWithPlan hf hmax hsized hwide).sameOutcome
          (guarded_hessianWithPlan hf hmax hm hcheck)).ok hess

end Hessians

section Compiled

variable {F : Type} [Zero F] [One F] [Add F] [Sub F] [Neg F] [Mul F] [Div F] [Elementary F]
  [ElementText F]

/--
Assembly by independent batches is assembly on a memory, in any arithmetic in which adding what
tests as zero changes nothing, for a tape's own plans and on every memory that their check accepts.
Every entry is written by exactly one batch and is zero in the parts of all others. One assembly
returns exactly if the other does, and then with equal values. Where a memory does not hold the
directions of a batch, its own batches are smaller; that they do not matter to a Hessian takes
arithmetic in which a factor zero makes products zero.
-/
theorem parts_agree
    [Calculus.NeutralZero F] (hleft : ∀ x : F, 0 + x = x)
    {g : Graph F} {inputs outputs : List NodeId} {config : Config} {f : Tape F}
    (hbare : g.BareLeaves) (hcompile : compile g inputs outputs config = .ok f)
    (hmax : 1 ≤ config.maxDirections) {m : Memory F} (hm : m.WellSized) (xs : List (List F)) :
    (∀ (o i : Nat) (plan : JacobianPlan), f.jacobianPlan o i = .ok plan →
      SumsParts plan.pattern (plan.tasks f.config.maxDirections) plan.writes
        (f.jacobianPart "jacobian_par" xs plan) (f.jacobianByParts xs plan) ∧
      (m.sizes.check jacobianOp (f.leastMemory plan.nfwd plan.nadj) = .ok () → ∀ jac,
        f.jacobianByParts xs plan = .ok jac ↔ (f.jacobianWithPlan xs plan).alone m = .ok jac)) ∧
    ∀ (o i : Nat) (plan : HessianPlan), f.hessianPlan o i = .ok plan →
      SumsParts plan.pattern (plan.tasks f.config.maxDirections) plan.writes
        (f.hessianPart (f.segmentsAt f.full) xs plan) (f.hessianByParts xs plan) ∧
      (m.sizes.check hessianOp (f.leastHessianMemory plan) = .ok () →
        min f.config.maxDirections plan.coloring.ncolors ≤ m.sizes.nfwd ∨ Calculus.AbsorbingZero F →
          ∀ hess, f.hessianByParts xs plan = .ok hess ↔
            (f.hessianWithPlan xs plan).alone m = .ok hess) := by
  obtain ⟨order, h⟩ := compiled_of_compile hbare hcompile
  have hf := h.wellFormed
  have hmax' := h.one_le_maxDirections hmax
  constructor
  · intro o i plan hplan
    obtain ⟨hfits, -, hrecoverable⟩ := jacobianPlan_parts hf hplan
    constructor
    · have hnone : ∀ t ∈ plan.tasks f.config.maxDirections, ∀ r c, plan.writes t r c = false →
          plan.picks f xs t r c = none := fun _ _ _ _ => JacobianPlan.picks_eq_none
      refine sumsParts_of_overlays hleft Calculus.NeutralZero.add_zero
        (JacobianPlan.writtenOnce_tasks hmax' hrecoverable) hnone
        (fun jac hok => ((jacobianByParts_eq_ok_iff_parts hf).1 hok).2) f.config.checkFinite
        (plan.TaskFinite f xs) fun jac hok t ht part => ?_
      obtain ⟨⟨-, hfit⟩, -⟩ := (jacobianByParts_eq_ok_iff_parts hf).1 hok
      exact jacobianPart_eq_ok_iff hf hfit hfits "jacobian_par" hmax' ht
    · intro hsizes jac
      exact jacobianByParts_eq_ok_iff_withPlan hleft hf hmax' hrecoverable hm hsizes
  · intro o i plan hplan
    obtain ⟨hfits, -, -, -, hseparates⟩ := hessianPlan_parts hf hplan
    constructor
    · have hnone : ∀ b ∈ plan.tasks f.config.maxDirections, ∀ r c, plan.writes b r c = false →
          plan.picks f xs b r c = none := fun _ _ _ _ => HessianPlan.picks_eq_none
      refine sumsParts_of_overlays hleft Calculus.NeutralZero.add_zero
        (HessianPlan.writtenOnce_tasks hmax' hseparates) hnone
        (fun hess hok => ((hessianByParts_eq_ok_iff_parts hf).1 hok).2) true
        (fun b => ∃ products, f.batchProducts xs plan b = .ok products) fun hess hok b hb part => ?_
      obtain ⟨⟨-, hfit⟩, -⟩ := (hessianByParts_eq_ok_iff_parts hf).1 hok
      exact hessianPart_eq_ok_iff hf hfit hfits (members_ne_nil (fun _ => hmax') hb)
    · intro hsizes hroom hess
      exact hessianByParts_eq_ok_iff_withPlan hleft hf hmax' hseparates hm hsizes hroom

end Compiled

/-- The tape of the quotient with one forward direction in a sweep. -/
def quotientByColumns : Tape Extended :=
  { quotient 1 with config := { maxDirections := 1, mode := .forward } }

theorem compile_quotientByColumns :
    compile Graph.quotient [0] [3] { maxDirections := 1, mode := .forward } =
      .ok quotientByColumns := by
  cbv

/-- Two parts each, where the memory has two directions in a sweep. -/
theorem parts_agree_quotient :
    (∃ jac fwd fwd', quotientByColumns.jacobianByParts quotientInputs quotientColumns = .ok jac ∧
      (quotientByColumns.jacobianWithPlan quotientInputs quotientColumns).alone
        (quotientByColumns.memory 2 1) = .ok jac ∧
      jac.values = sumParts 2 [fwd, fwd']) ∧
    ∃ hess part part', quotientByColumns.hessianByParts quotientInputs quotientHessian = .ok hess ∧
      (quotientByColumns.hessianWithPlan quotientInputs quotientHessian).alone
        (quotientByColumns.memory 2 1) = .ok hess ∧
      hess.values = sumParts 3 [part, part'] := by
  have hm := Memory.wellSized_new (F := Extended) (quotientByColumns.requiredMemory 2 1)
  obtain ⟨hjacobian, hhessian⟩ := parts_agree Extended.zero_add Graph.bareLeaves_quotient
    compile_quotientByColumns (by decide) hm quotientInputs
  obtain ⟨hcolumns, hcolumnsSame⟩ := hjacobian 0 0 quotientColumns (by cbv)
  obtain ⟨hproducts, hproductsSame⟩ := hhessian 0 0 quotientHessian (by cbv)
  have hsameJac := hcolumnsSame (by cbv)
  have hsameHess := hproductsSame (by cbv) (.inr inferInstance)
  obtain ⟨jac, hjac⟩ := exists_eq_ok_of_isOk
    (x := quotientByColumns.jacobianByParts quotientInputs quotientColumns) (by cbv)
  obtain ⟨hess, hhess⟩ := exists_eq_ok_of_isOk
    (x := quotientByColumns.hessianByParts quotientInputs quotientHessian) (by cbv)
  obtain ⟨fwd, -, hcolumnSum, hall⟩ := hcolumns.parts jac hjac
  obtain ⟨parts, -, hproductSum, hall'⟩ := hproducts.parts hess hhess
  obtain ⟨a, b, rfl⟩ := List.length_eq_two.1 (hall.length_eq.symm.trans (by decide))
  obtain ⟨a', b', rfl⟩ := List.length_eq_two.1 (hall'.length_eq.symm.trans (by decide))
  exact ⟨⟨jac, a, b, hjac, (hsameJac jac).1 hjac, hcolumnSum⟩,
    hess, a', b', hhess, (hsameHess hess).1 hhess, hproductSum⟩

/--
Where a factor zero does not make products zero, the Hessian by parts, with both columns in one
part, is not the Hessian on a memory that holds one direction.
-/
theorem hessianByParts_ne_of_small_memory :
    Calculus.NeutralZero Rounded ∧ (∀ x : Rounded, 0 + x = x) ∧ Graph.squareProduct.BareLeaves ∧
    compile Graph.squareProduct [0] [4] {} = .ok squareProduct ∧
    squareProduct.hessianPlan 0 0 = .ok squareProductHessian ∧
    (squareProduct.memory 1 1 : Memory Rounded).sizes.check hessianOp
      (squareProduct.leastHessianMemory squareProductHessian) = .ok () ∧
    squareProduct.hessianByParts [[-1, -1]] squareProductHessian =
      .ok ⟨squareProductHessian.pattern, #[1, ⟨-2⟩, 0]⟩ ∧
    (squareProduct.hessianWithPlan [[-1, -1]] squareProductHessian).alone
      (squareProduct.memory 1 1) = .ok ⟨squareProductHessian.pattern, #[0, ⟨-2⟩, 0]⟩ := by
  refine ⟨inferInstance, Rounded.zero_add, Graph.bareLeaves_squareProduct, compile_squareProduct,
    ?_, ?_, ?_, ?_⟩ <;> cbv

end Tape

end SparseDiff
