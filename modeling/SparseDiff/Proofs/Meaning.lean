import SparseDiff.Proofs.Evaluate
import SparseDiff.Proofs.Exact
import Mathlib.Data.List.Perm.Subperm

/-!
# The meaning of a graph

`Graph.value?` evaluates a node directly: an operation applies its table to the entries of
its operands, where an entry without a nonzero reads as zero. `Graph.tangent?` is the chain
rule beside it. Neither knows of tapes, accesses or slots. The main result,
`Tape.evaluate_preserves_meaning`, says that an evaluation of a compiled graph returns these
values and tangents, over any arithmetic and in any memory.
-/

namespace SparseDiff

variable {F : Type}

namespace Graph

/-- Number of the nonzero at an entry of a node; none for a structural zero. -/
def place? (g : Graph F) (id : NodeId) (r c : Nat) : Option (Option Nat) :=
  g.nodes[id]?.map fun n => n.pattern.nzIndex? r c

section Values

variable [Zero F]

/-- Entry `(r, c)` of a node whose nonzeros have the given values. -/
def entry? (g : Graph F) (value : NodeId → Nat → Option F) (id : NodeId) (r c : Nat) :
    Option F := do
  match ← g.place? id r c with
  | some k => value id k
  | none => return 0

variable [Calculus F]

/--
Value of nonzero `k` of a node, where `inputs` have the values `xs`. A node is evaluated
through its operands, `depth` levels down.
-/
def value? (g : Graph F) (inputs : List NodeId) (xs : List (List F)) :
    (depth : Nat) → NodeId → Nat → Option F
  | 0, _, _ => none
  | depth + 1, id, k => do
      let n ← g.nodes[id]?
      let entry := g.entry? (value? g inputs xs depth)
      match n.kind, n.operands with
      | .symbolic _, _ => do
          let values ← xs[← inputs.idxOf? id]?
          values[k]?
      | .constant values, _ => values[k]?
      | .unary op, [a] => do
          let (r, c) ← n.pattern.entries[k]?
          return Calculus.unary op (← entry a r c)
      | .binary op, [a, b] => do
          let (r, c) ← n.pattern.entries[k]?
          return Calculus.binary op (← entry a r c) (← entry b r c)
      | .scalarMatrix op, [s, m] => do
          let (r, c) ← n.pattern.entries[k]?
          return Calculus.binary op (← entry s 0 0) (← entry m r c)
      | .matrixScalar op, [m, s] => do
          let (r, c) ← n.pattern.entries[k]?
          return Calculus.binary op (← entry m r c) (← entry s 0 0)
      | .ifElse tol, [cond, a] => do
          let (r, c) ← n.pattern.entries[k]?
          let x ← entry cond 0 0
          let y ← entry a r c
          return if Calculus.selects x tol then y else 0
      | .gather _ map, operands => do
          let (d, j) ← map[k]?
          value? g inputs xs depth (← operands[d]?) j
      | _, _ => none

variable [Add F] [Mul F]

/-- What an entry contributes along a partial `d`; a structural zero contributes nothing. -/
def share? (g : Graph F) (tangent : NodeId → Nat → Option F) (d : F) (id : NodeId)
    (r c : Nat) : Option F := do
  match ← g.place? id r c with
  | some k => return seedMul d (← tangent id k)
  | none => return 0

/-- Tangent of nonzero `k` of a node, where `inputs` have the tangents `us`. -/
def tangent? (g : Graph F) (inputs : List NodeId) (xs us : List (List F)) :
    (depth : Nat) → NodeId → Nat → Option F
  | 0, _, _ => none
  | depth + 1, id, k => do
      let n ← g.nodes[id]?
      let entry := g.entry? (value? g inputs xs depth)
      let share := g.share? (tangent? g inputs xs us depth)
      let binary := fun op x y (share₁ share₂ : F → Option F) => do
        let d := Calculus.binaryPartials op x y (Calculus.binary op x y)
        return (← share₁ d.1) + (← share₂ d.2)
      match n.kind, n.operands with
      | .symbolic _, _ => do
          let tangents ← us[← inputs.idxOf? id]?
          tangents[k]?
      | .constant values, _ => values[k]?.map fun _ => 0
      | .unary op, [a] => do
          let (r, c) ← n.pattern.entries[k]?
          let x ← entry a r c
          share (Calculus.unaryDerivative op x (Calculus.unary op x)) a r c
      | .binary op, [a, b] => do
          let (r, c) ← n.pattern.entries[k]?
          binary op (← entry a r c) (← entry b r c) (share · a r c) (share · b r c)
      | .scalarMatrix op, [s, m] => do
          let (r, c) ← n.pattern.entries[k]?
          binary op (← entry s 0 0) (← entry m r c) (share · s 0 0) (share · m r c)
      | .matrixScalar op, [m, s] => do
          let (r, c) ← n.pattern.entries[k]?
          binary op (← entry m r c) (← entry s 0 0) (share · m r c) (share · s 0 0)
      | .ifElse tol, [cond, a] => do
          let (r, c) ← n.pattern.entries[k]?
          let x ← entry cond 0 0
          let t ← g.entry? (tangent? g inputs xs us depth) a r c
          return if Calculus.selects x tol then t else 0
      | .gather _ map, operands => do
          let (d, j) ← map[k]?
          tangent? g inputs xs us depth (← operands[d]?) j
      | _, _ => none

end Values

/-- All nonzeros of a node. -/
def nonzeros? (g : Graph F) (value : NodeId → Nat → Option F) (id : NodeId) :
    Option (List F) := do
  let n ← g.nodes[id]?
  (List.range n.pattern.nnz).mapM (value id)

end Graph

namespace Access

/-- An operand of the result's shape is read at the entry of the result. -/
theorem index?_between
    {result operand : Pattern} (hresult : result.WellFormed) (hoperand : operand.WellFormed)
    (hshape : result.shape = operand.shape) {k r c : Nat}
    (hk : result.entries[k]? = some (r, c)) :
    (between result operand).index? k = operand.nzIndex? r c := by
  unfold between
  by_cases heq : result = operand
  · subst heq
    rw [if_pos rfl, (Pattern.nzIndex?_eq_some_iff hresult).2 hk]
    rfl
  · rw [if_neg heq]
    simp [index?, Pattern.nonzeroMap_eq_map hresult hoperand hshape, hk]

/-- A broadcast operand is read at its only entry. -/
theorem index?_broadcast
    {operand : Pattern} (hoperand : operand.WellFormed) (hscalar : operand.isScalar = true)
    (k : Nat) :
    (broadcast operand).index? k = operand.nzIndex? 0 0 := by
  unfold broadcast
  by_cases hzero : operand.nnz = 0
  · rw [if_pos hzero]
    cases h : operand.nzIndex? 0 0 with
    | none => rfl
    | some j =>
        have := Pattern.nzIndex?_lt_nnz hoperand h
        omega
  · rw [if_neg hzero]
    have hlt : 0 < operand.entries.length := by
      rw [Pattern.length_entries]
      omega
    obtain ⟨⟨r, c⟩, hget⟩ : ∃ entry, operand.entries[0]? = some entry :=
      ⟨_, List.getElem?_eq_getElem hlt⟩
    -- the first entry lies in the only row and the only column
    have hmem := Pattern.mem_entries_iff.1 (List.mem_of_getElem? hget)
    have hrow := Pattern.lt_nrow_of_mem_row hmem
    have hcol := hoperand.lt_ncol hmem
    have hone : operand.nrow = 1 ∧ operand.ncol = 1 := by
      simpa [Pattern.isScalar] using hscalar
    have hr : r = 0 := by omega
    have hc : c = 0 := by omega
    subst hr hc
    rw [(Pattern.nzIndex?_eq_some_iff hoperand).2 hget]
    rfl

end Access

namespace Tape

variable {g : Graph F} {inputs outputs order : List NodeId} {config : Config} {f : Tape F}

section Operands

theorem index?_between_of_placed
    {p : Nat} {a : NodeId} {na : Node F} {q : Nat} (ha : Placed g order p a na q)
    (hpatterns : ∀ n ∈ g.nodes, n.pattern.WellFormed) {result : Pattern}
    (hresult : result.WellFormed) (hshape : result.shape = na.pattern.shape) {k r c : Nat}
    (hk : result.entries[k]? = some (r, c)) :
    (Access.between result na.pattern).index? k = na.pattern.nzIndex? r c :=
  Access.index?_between hresult (hpatterns _ (Array.mem_of_getElem? ha.node)) hshape hk

theorem index?_broadcast_of_placed
    {p : Nat} {a : NodeId} {na : Node F} {q : Nat} (ha : Placed g order p a na q)
    (hpatterns : ∀ n ∈ g.nodes, n.pattern.WellFormed) (hscalar : na.pattern.isScalar = true)
    (k : Nat) :
    (Access.broadcast na.pattern).index? k = na.pattern.nzIndex? 0 0 :=
  Access.index?_broadcast (hpatterns _ (Array.mem_of_getElem? ha.node)) hscalar k

variable [Zero F]

/-- Entries of a node are read at the slots of its element. -/
theorem entry?_eq
    {value : NodeId → Nat → Option F} {w : Array F} {p : Nat} {a : NodeId} {na : Node F} {q : Nat}
    (ha : Placed g order p a na q) (hpattern : na.pattern.WellFormed)
    (hvalue : ∀ j < na.pattern.nnz, value a j = some (w.getD (f.full.slot q j) 0)) (r c : Nat) :
    g.entry? value a r c =
      some (readSlot w ((na.pattern.nzIndex? r c).map (f.full.slot q))) := by
  unfold Graph.entry? Graph.place?
  rw [ha.node, Option.map_some]
  cases hj : na.pattern.nzIndex? r c with
  | none => rfl
  | some j => exact hvalue j (Pattern.nzIndex?_lt_nnz hpattern hj)

theorem share?_eq
    [Mul F] [Calculus F] {tangent : NodeId → Nat → Option F} {t : Array F} {p : Nat} {a : NodeId}
    {na : Node F}
    {q : Nat} (ha : Placed g order p a na q) (hpattern : na.pattern.WellFormed)
    (htangent : ∀ j < na.pattern.nnz, tangent a j = some (t.getD (f.full.slot q j) 0))
    (d : F) (r c : Nat) :
    g.share? tangent d a r c =
      some (Cell.along d t ((na.pattern.nzIndex? r c).map (f.full.slot q))) := by
  unfold Graph.share? Graph.place?
  rw [ha.node, Option.map_some]
  cases hj : na.pattern.nzIndex? r c with
  | none => rfl
  | some j =>
      have hvalue := htangent j (Pattern.nzIndex?_lt_nnz hpattern hj)
      simp only [Option.bind_eq_bind, Option.bind_some, hvalue]
      rfl

end Operands

variable [Zero F] [Elementary F] [ElementText F]

/-- A declared input has its lists at its position. -/
theorem Compiled.getElem?_input
    (h : Compiled g inputs outputs order config f) {p : Nat} {id : NodeId} {n : Node F}
    (hp : order[p]? = some id) (hn : g.nodes[id]? = some n) (hinput : p < inputs.length)
    {lists : List (List F)} (hfit : FitLists f.inputPatterns lists) :
    inputs.idxOf? id = some p ∧
      ∃ xs, lists[p]? = some xs ∧ xs.length = n.pattern.nnz := by
  obtain ⟨rest, hrest⟩ := h.ordered.declared
  have hid : inputs[p]? = some id := by
    rw [← hp, ← hrest, List.getElem?_append_left hinput]
  have hnodup : inputs.Nodup := by
    have hall := h.ordered.nodup
    rw [← hrest] at hall
    exact (List.nodup_append.1 hall).1
  have hlt : p < lists.length := by
    rw [← hfit.length_eq, ← h.inputPatterns.length_eq]
    exact hinput
  refine ⟨?_, lists[p], List.getElem?_eq_getElem hlt, ?_⟩
  · rw [List.idxOf?_eq_some_iff]
    have hget := (List.getElem?_eq_some_iff.1 hid).2
    refine ⟨hinput, by simpa using hget, fun i hi heq => ?_⟩
    have hi' : inputs[i]? = some id := by
      rw [List.getElem?_eq_getElem (by omega)]
      simpa using heq
    have := (List.getElem?_inj (by omega) hnodup).1 (hi'.trans hid.symm)
    omega
  · obtain ⟨pattern, hpattern, hlength⟩ :=
      getElem?_of_forall₂ hfit (List.getElem?_eq_getElem hlt)
    obtain ⟨id', hid', n', hn', hpattern'⟩ := getElem?_of_forall₂ h.inputPatterns hpattern
    rw [hid] at hid'
    cases hid'
    rw [hn] at hn'
    cases hn'
    rw [hlength, hpattern']

/-- A compiled graph has a node for every position. -/
theorem Compiled.length_le_size
    (h : Compiled g inputs outputs order config f) :
    order.length ≤ g.size := by
  have hsub : order ⊆ List.range g.size := by
    intro id hid
    obtain ⟨p, hp⟩ := List.mem_iff_getElem?.1 hid
    obtain ⟨n, -, hn, -⟩ := h.element p id hp
    exact List.mem_range.2 (Array.getElem?_eq_some_iff.1 hn).1
  simpa using (List.subperm_of_subset h.ordered.nodup hsub).length_le

/-- The nonzeros of an output, where the trace has the values of its node. -/
theorem Compiled.nonzeros?_eq
    (h : Compiled g inputs outputs order config f) {value : NodeId → Nat → Option F}
    {w : Array F}
    (hvalue : ∀ (p : Nat) (id : NodeId) (n : Node F), order[p]? = some id →
      g.nodes[id]? = some n → ∀ k < n.pattern.nnz, value id k = some (w.getD (f.full.slot p k) 0)) :
    outputs.mapM (g.nonzeros? value) = some ((List.range f.nOut).map (f.outputOf w)) := by
  have hlength : outputs.length = f.nOut := h.outputPatterns.length_eq
  rw [← hlength]
  refine mapM_eq_some_of_getElem? (by simp) fun o id ho => ?_
  have hlt := (List.getElem?_eq_some_iff.1 ho).1
  obtain ⟨q, hq, hplace⟩ := getElem?_of_forall₂_left h.placed ho
  obtain ⟨p, hp, n, hn, rfl⟩ := getElem?_of_forall₂_left h.outputPatterns ho
  refine ⟨f.outputOf w o, by simp [hlt], ?_⟩
  rw [outputOf_eq hq hp]
  simp only [Graph.nonzeros?, hn, Option.bind_eq_bind, Option.bind_some]
  refine mapM_eq_some_of_getElem? (by simp) fun i k hk => ?_
  obtain ⟨hi, rfl⟩ := List.getElem?_eq_some_iff.1 hk
  rw [List.length_range] at hi
  exact ⟨w.getD (f.full.slot q i) 0, by simp [hi], by simpa using hvalue q id n hplace hn i hi⟩

variable [Calculus F]

/-- The trace holds the values of the graph, node by node in tape order. -/
theorem Compiled.value?_eq
    (h : Compiled g inputs outputs order config f)
    (hpatterns : ∀ n ∈ g.nodes, n.pattern.WellFormed) {xs : List (List F)}
    (hfit : FitLists f.inputPatterns xs) :
    ∀ (depth p : Nat), p < depth → ∀ (id : NodeId) (n : Node F), order[p]? = some id →
      g.nodes[id]? = some n → ∀ k < n.pattern.nnz,
        g.value? inputs xs depth id k = some ((f.valueArray xs).getD (f.full.slot p k) 0)
  | 0, p, hp, _, _, _, _ => absurd hp (Nat.not_lt_zero p)
  | depth + 1, p, hp, id, n, hid, hn => by
      intro k hk
      have hf := h.wellFormed
      obtain ⟨n', instr, hn', he, hlowers, hsym⟩ := h.element p id hid
      rw [hn] at hn'
      cases hn'
      rw [getD_valueArray hf xs (getElem?_trace hf he hk)]
      have hwf := hpatterns n (Array.mem_of_getElem? hn)
      obtain ⟨⟨r, c⟩, hentry⟩ : ∃ entry, n.pattern.entries[k]? = some entry :=
        ⟨_, List.getElem?_eq_getElem (by rw [Pattern.length_entries]; exact hk)⟩
      have hread : ∀ {a : NodeId} {na : Node F} {q : Nat}, Placed g order p a na q →
          ∀ r c, g.entry? (g.value? inputs xs depth) a r c =
            some (readSlot (f.valueArray xs) ((na.pattern.nzIndex? r c).map (f.full.slot q))) :=
        fun ha => entry?_eq ha (hpatterns _ (Array.mem_of_getElem? ha.node))
          (Compiled.value?_eq h hpatterns hfit depth _ (by have := ha.before; omega) _ _
            ha.place ha.node)
      cases hlowers with
      | input hkind hops =>
          obtain ⟨hindex, ys, hys, hlength⟩ := h.getElem?_input hid hn
            (hsym.1 (by rw [hkind]; rfl)) hfit
          have hk' : k < ys.length := by omega
          simp only [Graph.value?, hn, Option.bind_eq_bind, Option.bind_some, hkind, hops, hindex,
            hys]
          simp [Instr.cellAt, Cell.eval, getD_seedAt hys, hk']
      | constant hkind hops hsize =>
          have hk' := hsize ▸ hk
          simp only [Graph.value?, hn, Option.bind_eq_bind, Option.bind_some, hkind, hops]
          simp [Instr.cellAt, Cell.eval, Cell.value, hk']
      | unary hkind hops ha hshape =>
          simp only [Graph.value?, hn, Option.bind_eq_bind, Option.bind_some, hkind, hops, hentry,
            hread ha]
          simp only [Instr.cellAt, Operand.slotAt,
            index?_between_of_placed ha hpatterns hwf hshape hentry]
          rfl
      | binary hkind hops ha hb hshapea hshapeb =>
          simp only [Graph.value?, hn, Option.bind_eq_bind, Option.bind_some, hkind, hops, hentry,
            hread ha, hread hb]
          simp only [Instr.cellAt, Operand.slotAt,
            index?_between_of_placed ha hpatterns hwf hshapea hentry,
            index?_between_of_placed hb hpatterns hwf hshapeb hentry]
          rfl
      | scalarMatrix hkind hops hs hm hscalar hpattern =>
          simp only [Graph.value?, hn, Option.bind_eq_bind, Option.bind_some, hkind, hops, hentry,
            hread hs, hread hm]
          simp only [Instr.cellAt, Operand.slotAt, index?_broadcast_of_placed hs hpatterns hscalar,
            index?_between_of_placed hm hpatterns hwf (congrArg Pattern.shape hpattern) hentry]
          rfl
      | matrixScalar hkind hops hm hs hscalar hpattern =>
          simp only [Graph.value?, hn, Option.bind_eq_bind, Option.bind_some, hkind, hops, hentry,
            hread hm, hread hs]
          simp only [Instr.cellAt, Operand.slotAt, index?_broadcast_of_placed hs hpatterns hscalar,
            index?_between_of_placed hm hpatterns hwf (congrArg Pattern.shape hpattern) hentry]
          rfl
      | ifElse hkind hops hc ha hscalar hpattern =>
          have hsame := (Pattern.nzIndex?_eq_some_iff hwf).2 hentry
          simp only [Graph.value?, hn, Option.bind_eq_bind, Option.bind_some, hkind, hops, hentry,
            hread hc, hread ha, ← hpattern, hsame]
          simp only [Instr.cellAt, Operand.slotAt, index?_broadcast_of_placed hc hpatterns hscalar]
          rfl
      | @gather kind map parts moves hkind hlength hsize hparts hmove =>
          obtain ⟨d, j, a, na, q, hmap, hd, ha, hj, hgetD⟩ := exists_move hlength hmove hk
          have hvalue := Compiled.value?_eq h hpatterns hfit depth q
            (by have := ha.before; omega) a na ha.place ha.node j hj
          simp only [Graph.value?, hn, Option.bind_eq_bind, Option.bind_some, hkind, hmap, hd,
            hvalue]
          simp only [Instr.cellAt, hgetD]
          rfl

/-- Entries of a placed node have the values of the trace. -/
theorem Compiled.entry?_eq
    (h : Compiled g inputs outputs order config f)
    (hpatterns : ∀ n ∈ g.nodes, n.pattern.WellFormed) {xs : List (List F)}
    (hfit : FitLists f.inputPatterns xs) {depth p : Nat} (hp : p ≤ depth) {a : NodeId}
    {na : Node F} {q : Nat} (ha : Placed g order p a na q) (r c : Nat) :
    g.entry? (g.value? inputs xs depth) a r c =
      some (readSlot (f.valueArray xs) ((na.pattern.nzIndex? r c).map (f.full.slot q))) :=
  Tape.entry?_eq ha (hpatterns _ (Array.mem_of_getElem? ha.node))
    (h.value?_eq hpatterns hfit depth q (by have := ha.before; omega) a na ha.place ha.node) r c

variable [Add F] [Mul F]

/-- The trace holds the tangents of the graph, node by node in tape order. -/
theorem Compiled.tangent?_eq
    (h : Compiled g inputs outputs order config f)
    (hpatterns : ∀ n ∈ g.nodes, n.pattern.WellFormed) {xs us : List (List F)}
    (hfit : FitLists f.inputPatterns xs) (hseed : FitLists f.inputPatterns us) :
    ∀ (depth p : Nat), p < depth → ∀ (id : NodeId) (n : Node F), order[p]? = some id →
      g.nodes[id]? = some n → ∀ k < n.pattern.nnz,
        g.tangent? inputs xs us depth id k =
          some ((f.tangentArray xs (seedOf us)).getD (f.full.slot p k) 0)
  | 0, p, hp, _, _, _, _ => absurd hp (Nat.not_lt_zero p)
  | depth + 1, p, hp, id, n, hid, hn => by
      intro k hk
      have hf := h.wellFormed
      obtain ⟨n', instr, hn', he, hlowers, hsym⟩ := h.element p id hid
      rw [hn] at hn'
      cases hn'
      have hcell := getElem?_trace hf he hk
      rw [getD_tangentArray hf xs (seedOf us) hcell, getD_valueArray hf xs hcell]
      have hwf := hpatterns n (Array.mem_of_getElem? hn)
      obtain ⟨⟨r, c⟩, hentry⟩ : ∃ entry, n.pattern.entries[k]? = some entry :=
        ⟨_, List.getElem?_eq_getElem (by rw [Pattern.length_entries]; exact hk)⟩
      have hle : p ≤ depth := by omega
      have hbelow : ∀ {a : NodeId} {na : Node F} {q : Nat}, Placed g order p a na q →
          ∀ j < na.pattern.nnz, g.tangent? inputs xs us depth a j =
            some ((f.tangentArray xs (seedOf us)).getD (f.full.slot q j) 0) :=
        fun ha => Compiled.tangent?_eq h hpatterns hfit hseed depth _
          (by have := ha.before; omega) _ _ ha.place ha.node
      have hshare : ∀ {a : NodeId} {na : Node F} {q : Nat}, Placed g order p a na q →
          ∀ d r c, g.share? (g.tangent? inputs xs us depth) d a r c =
            some (Cell.along d (f.tangentArray xs (seedOf us))
              ((na.pattern.nzIndex? r c).map (f.full.slot q))) :=
        fun ha => share?_eq ha (hpatterns _ (Array.mem_of_getElem? ha.node)) (hbelow ha)
      cases hlowers with
      | input hkind hops =>
          obtain ⟨hindex, ys, hys, hlength⟩ := h.getElem?_input hid hn
            (hsym.1 (by rw [hkind]; rfl)) hseed
          have hk' : k < ys.length := by omega
          simp only [Graph.tangent?, hn, Option.bind_eq_bind, Option.bind_some, hkind, hops,
            hindex, hys]
          simp [Instr.cellAt, Cell.evalTangent, seedOf, getD_seedAt hys, hk']
      | constant hkind hops hsize =>
          have hk' := hsize ▸ hk
          simp only [Graph.tangent?, hn, Option.bind_eq_bind, Option.bind_some, hkind, hops]
          simp [Instr.cellAt, Cell.evalTangent, Cell.tangent, hk']
      | unary hkind hops ha hshape =>
          simp only [Graph.tangent?, hn, Option.bind_eq_bind, Option.bind_some, hkind, hops,
            hentry, h.entry?_eq hpatterns hfit hle ha, hshare ha]
          simp only [Instr.cellAt, Operand.slotAt,
            index?_between_of_placed ha hpatterns hwf hshape hentry]
          rfl
      | binary hkind hops ha hb hshapea hshapeb =>
          simp only [Graph.tangent?, hn, Option.bind_eq_bind, Option.bind_some, hkind, hops,
            hentry, h.entry?_eq hpatterns hfit hle ha, h.entry?_eq hpatterns hfit hle hb,
            hshare ha, hshare hb]
          simp only [Instr.cellAt, Operand.slotAt,
            index?_between_of_placed ha hpatterns hwf hshapea hentry,
            index?_between_of_placed hb hpatterns hwf hshapeb hentry]
          rfl
      | scalarMatrix hkind hops hs hm hscalar hpattern =>
          simp only [Graph.tangent?, hn, Option.bind_eq_bind, Option.bind_some, hkind, hops,
            hentry, h.entry?_eq hpatterns hfit hle hs, h.entry?_eq hpatterns hfit hle hm,
            hshare hs, hshare hm]
          simp only [Instr.cellAt, Operand.slotAt, index?_broadcast_of_placed hs hpatterns hscalar,
            index?_between_of_placed hm hpatterns hwf (congrArg Pattern.shape hpattern) hentry]
          rfl
      | matrixScalar hkind hops hm hs hscalar hpattern =>
          simp only [Graph.tangent?, hn, Option.bind_eq_bind, Option.bind_some, hkind, hops,
            hentry, h.entry?_eq hpatterns hfit hle hs, h.entry?_eq hpatterns hfit hle hm,
            hshare hs, hshare hm]
          simp only [Instr.cellAt, Operand.slotAt, index?_broadcast_of_placed hs hpatterns hscalar,
            index?_between_of_placed hm hpatterns hwf (congrArg Pattern.shape hpattern) hentry]
          rfl
      | @ifElse tol c a nc na qc qa hkind hops hc ha hscalar hpattern =>
          have hsame := (Pattern.nzIndex?_eq_some_iff hwf).2 hentry
          have hbranch := Tape.entry?_eq ha (hpatterns _ (Array.mem_of_getElem? ha.node))
            (hbelow ha)
          simp only [Graph.tangent?, hn, Option.bind_eq_bind, Option.bind_some, hkind, hops,
            hentry, h.entry?_eq hpatterns hfit hle hc, hbranch, ← hpattern, hsame]
          simp only [Instr.cellAt, Operand.slotAt,
            index?_broadcast_of_placed hc hpatterns hscalar]
          rfl
      | @gather kind map parts moves hkind hlength hsize hparts hmove =>
          obtain ⟨d, j, a, na, q, hmap, hd, ha, hj, hgetD⟩ := exists_move hlength hmove hk
          simp only [Graph.tangent?, hn, Option.bind_eq_bind, Option.bind_some, hkind, hmap, hd,
            hbelow ha j hj]
          simp only [Instr.cellAt, hgetD]
          rfl

/--
An evaluation of a compiled graph returns the values of the outputs and their tangents for
every seed, whatever the memory held before.
-/
theorem evaluate_preserves_meaning
    (hbare : g.BareLeaves) (hpatterns : ∀ n ∈ g.nodes, n.pattern.WellFormed)
    (hcompile : compile g inputs outputs config = .ok f) {m : Memory F} (hm : m.WellSized)
    {xs : List (List F)} {fwdSeeds adjSeeds : List (List (List F))} {e : Evaluation F}
    (heval : (f.evaluate xs fwdSeeds adjSeeds).alone m = .ok e) :
    outputs.mapM (g.nonzeros? (g.value? inputs xs g.size)) = some e.outputs ∧
      fwdSeeds.mapM (fun us => outputs.mapM (g.nonzeros? (g.tangent? inputs xs us g.size))) =
        some e.fwd := by
  obtain ⟨order, h⟩ := compiled_of_compile hbare hcompile
  obtain ⟨m', hgives⟩ := Run.alone_eq_ok_iff.1 heval
  obtain ⟨hcheck, -, houtputs, hfwd, -⟩ := (gives_evaluate_iff h.wellFormed hm).1 hgives
  have haccepts := checkEvaluation_eq_ok_iff.1 hcheck
  -- no node lies deeper than the number of nodes
  have hdepth : ∀ {p : Nat} {id : NodeId}, order[p]? = some id → p < g.size := by
    intro p id hp
    exact Nat.lt_of_lt_of_le (List.getElem?_eq_some_iff.1 hp).1 h.length_le_size
  rw [houtputs, hfwd]
  constructor
  · exact h.nonzeros?_eq fun p id n hp hn k hk =>
      h.value?_eq hpatterns haccepts.fitInputs g.size p (hdepth hp) id n hp hn k hk
  · refine mapM_eq_some_of_getElem? (by simp) fun d us hd => ?_
    have hlt := (List.getElem?_eq_some_iff.1 hd).1
    have hmem := List.mem_of_getElem? hd
    refine ⟨(List.range f.nOut).map (f.outputOf (f.tangentArray xs (seedOf us))),
      by simp [hd], ?_⟩
    exact h.nonzeros?_eq fun p id n hp hn k hk =>
      h.tangent?_eq hpatterns haccepts.fitInputs (haccepts.fitFwd us hmem) g.size p (hdepth hp)
        id n hp hn k hk

theorem evaluate_preserves_meaning_scaling :
    ∃ e : Evaluation Int,
      (scaling.evaluate [[2, 3]] [[[1, 0]], [[0, 1]]] []).alone (scaling.memory 2 0) = .ok e ∧
      [3, 4, 0].mapM (Graph.scaling.nonzeros? (Graph.scaling.value? [0] [[2, 3]] 5)) =
        some e.outputs ∧
      [[[1, 0]], [[0, 1]]].mapM (fun us => [3, 4, 0].mapM
        (Graph.scaling.nonzeros? (Graph.scaling.tangent? [0] [[2, 3]] us 5))) = some e.fwd := by
  have heval : (scaling.evaluate [[2, 3]] [[[1, 0]], [[0, 1]]] []).alone (scaling.memory 2 0) =
      .ok ⟨[[6], [12, 18], [2, 3]], [[[3], [12, 9], [1, 0]], [[2], [4, 12], [0, 1]]], []⟩ := by
    cbv
  exact ⟨_, heval, evaluate_preserves_meaning Graph.bareLeaves_scaling Graph.wellFormed_scaling
    compile_scaling (Memory.wellSized_new _) heval⟩

end Tape

end SparseDiff
