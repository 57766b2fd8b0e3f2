import SparseDiff.Proofs.Assembly.Jacobian
import SparseDiff.Proofs.Meaning

/-!
# Structural Jacobians are reachability

`Graph.sources` lists, on the graph, the operand nonzeros through which a derivative reaches a
nonzero; it knows of no tapes, accesses or slots. The dependencies of a cell are the slots of
the sources of its nonzero (`Compiled.dependencies_eq`), so chains on the tape are chains in the
graph, and the pattern of a block holds the pairs of nonzeros that a chain connects.
-/

namespace SparseDiff

namespace Graph

variable {F : Type}

/-- The nonzero of a node at an entry; none for a structural zero. -/
def nonzeroAt (g : Graph F) (id : NodeId) (r c : Nat) : List (NodeId × Nat) :=
  ((g.place? id r c).join.map fun j => (id, j)).toList

/--
The nonzeros of operands through which a derivative reaches nonzero `k` of a node. Operations
whose derivative vanishes and the condition of a select let nothing through.
-/
def sources (g : Graph F) (id : NodeId) (k : Nat) : List (NodeId × Nat) :=
  match g.nodes[id]? with
  | none => []
  | some n =>
      match n.kind, n.operands, n.pattern.entries[k]? with
      | .unary op, [a], some (r, c) => if op.hasZeroDerivative then [] else g.nonzeroAt a r c
      | .binary _, [a, b], some (r, c) => g.nonzeroAt a r c ++ g.nonzeroAt b r c
      | .scalarMatrix _, [s, m], some (r, c) => g.nonzeroAt s 0 0 ++ g.nonzeroAt m r c
      | .matrixScalar _, [m, s], some (r, c) => g.nonzeroAt m r c ++ g.nonzeroAt s 0 0
      | .ifElse _, [_, a], some (r, c) => g.nonzeroAt a r c
      | .gather _ map, operands, _ =>
          (map[k]?.bind fun (d, j) => operands[d]?.map fun a => (a, j)).toList
      | _, _, _ => []

/-- A chain of sources leads from one nonzero to another. -/
def Reaches (g : Graph F) : NodeId × Nat → NodeId × Nat → Prop :=
  Relation.ReflTransGen fun x y => x ∈ g.sources y.1 y.2

end Graph

/--
The pattern of the derivatives of node `b` by node `a`: it holds the pairs of nonzeros that a
chain connects, and no others.
-/
structure Pattern.IsReachability
    {F : Type} (p : Pattern) (g : Graph F) (a b : NodeId) : Prop where
  wellFormed : p.WellFormed
  nrow : ∃ n, g.nodes[b]? = some n ∧ p.nrow = n.pattern.nnz
  ncol : ∃ n, g.nodes[a]? = some n ∧ p.ncol = n.pattern.nnz
  mem_row_iff : ∀ r < p.nrow, ∀ c < p.ncol, c ∈ p.row r ↔ g.Reaches (a, c) (b, r)

namespace Tape

variable {F : Type} {g : Graph F} {inputs outputs order : List NodeId} {config : Config}
  {f : Tape F}

/-- The slot of a nonzero in the full layout, where `order` lists the nodes by position. -/
def slotOf (f : Tape F) (order : List NodeId) (x : NodeId × Nat) : Nat :=
  f.full.slot (order.idxOf x.1) x.2

/-- A nonzero of a node that is listed. -/
structure Listed (g : Graph F) (order : List NodeId) (x : NodeId × Nat) : Prop where
  place : order[order.idxOf x.1]? = some x.1
  nonzero : ∃ n, g.nodes[x.1]? = some n ∧ x.2 < n.pattern.nnz

variable [Zero F] [Elementary F] [ElementText F]

theorem Compiled.idxOf_eq
    (h : Compiled g inputs outputs order config f) {p : Nat} {id : NodeId}
    (hp : order[p]? = some id) :
    order.idxOf id = p := by
  obtain ⟨hlt, rfl⟩ := List.getElem?_eq_some_iff.1 hp
  exact h.ordered.nodup.idxOf_getElem p hlt

theorem Compiled.listed
    (h : Compiled g inputs outputs order config f) {p : Nat} {id : NodeId} {n : Node F}
    (hp : order[p]? = some id) (hn : g.nodes[id]? = some n) {k : Nat} (hk : k < n.pattern.nnz) :
    Listed g order (id, k) :=
  ⟨by rw [h.idxOf_eq hp]; exact hp, n, hn, hk⟩

/-- The nonzero at an entry of an operand, and its slot. -/
theorem Compiled.nonzeroAt_eq
    (h : Compiled g inputs outputs order config f)
    (hpatterns : ∀ n ∈ g.nodes, n.pattern.WellFormed) {p : Nat} {a : NodeId} {na : Node F}
    {q : Nat} (ha : Placed g order p a na q) (r c : Nat) :
    (∀ x ∈ g.nonzeroAt a r c, Listed g order x) ∧
      (g.nonzeroAt a r c).map (f.slotOf order) =
        ((na.pattern.nzIndex? r c).map (f.full.slot q)).toList := by
  have hplace : g.place? a r c = some (na.pattern.nzIndex? r c) := by
    rw [Graph.place?, ha.node, Option.map_some]
  rw [Graph.nonzeroAt, hplace, Option.join_some]
  cases hj : na.pattern.nzIndex? r c with
  | none => exact ⟨fun x hx => absurd hx List.not_mem_nil, rfl⟩
  | some j =>
      have hlt := Pattern.nzIndex?_lt_nnz (hpatterns _ (Array.mem_of_getElem? ha.node)) hj
      refine ⟨fun x hx => ?_, ?_⟩
      · rw [List.mem_singleton.1 hx]
        exact h.listed ha.place ha.node hlt
      · simp [slotOf, h.idxOf_eq ha.place]

/-- A cell depends on the slots of the sources of its nonzero. -/
theorem Compiled.dependencies_eq
    (h : Compiled g inputs outputs order config f)
    (hpatterns : ∀ n ∈ g.nodes, n.pattern.WellFormed) {p k : Nat} {id : NodeId} {n : Node F}
    (hn : g.nodes[id]? = some n) (hk : k < n.pattern.nnz) {instr : Instr F}
    (hlowers : Lowers g order p n instr) :
    (∀ x ∈ g.sources id k, Listed g order x) ∧
      (instr.cellAt f.full.slot k).dependencies = (g.sources id k).map (f.slotOf order) := by
  have hwf := hpatterns n (Array.mem_of_getElem? hn)
  obtain ⟨⟨r, c⟩, hentry⟩ : ∃ entry, n.pattern.entries[k]? = some entry :=
    ⟨_, List.getElem?_eq_getElem (by rw [Pattern.length_entries]; exact hk)⟩
  have hread := fun {a : NodeId} {na : Node F} {q : Nat} (ha : Placed g order p a na q) =>
    h.nonzeroAt_eq hpatterns ha
  cases hlowers with
  | input hkind hops =>
      simp [Graph.sources, hn, hkind, hops, Instr.cellAt, Cell.dependencies]
  | constant hkind hops hsize =>
      simp [Graph.sources, hn, hkind, hops, Instr.cellAt, Cell.dependencies]
  | @unary op a na q hkind hops ha hshape =>
      simp only [Graph.sources, hn, hkind, hops, hentry, Instr.cellAt, Cell.dependencies,
        Operand.slotAt, index?_between_of_placed ha hpatterns hwf hshape hentry]
      split
      · simp
      · exact ⟨(hread ha r c).1, (hread ha r c).2.symm⟩
  | binary hkind hops ha hb hshapea hshapeb =>
      simp only [Graph.sources, hn, hkind, hops, hentry, Instr.cellAt, Cell.dependencies,
        Operand.slotAt, index?_between_of_placed ha hpatterns hwf hshapea hentry,
        index?_between_of_placed hb hpatterns hwf hshapeb hentry, List.map_append,
        (hread ha r c).2, (hread hb r c).2, List.forall_mem_append]
      exact ⟨⟨(hread ha r c).1, (hread hb r c).1⟩, trivial⟩
  | scalarMatrix hkind hops hs hm hscalar hpattern =>
      simp only [Graph.sources, hn, hkind, hops, hentry, Instr.cellAt, Cell.dependencies,
        Operand.slotAt, index?_broadcast_of_placed hs hpatterns hscalar,
        index?_between_of_placed hm hpatterns hwf (congrArg Pattern.shape hpattern) hentry,
        List.map_append, (hread hs 0 0).2, (hread hm r c).2, List.forall_mem_append]
      exact ⟨⟨(hread hs 0 0).1, (hread hm r c).1⟩, trivial⟩
  | matrixScalar hkind hops hm hs hscalar hpattern =>
      simp only [Graph.sources, hn, hkind, hops, hentry, Instr.cellAt, Cell.dependencies,
        Operand.slotAt, index?_broadcast_of_placed hs hpatterns hscalar,
        index?_between_of_placed hm hpatterns hwf (congrArg Pattern.shape hpattern) hentry,
        List.map_append, (hread hm r c).2, (hread hs 0 0).2, List.forall_mem_append]
      exact ⟨⟨(hread hm r c).1, (hread hs 0 0).1⟩, trivial⟩
  | ifElse hkind hops hc ha hscalar hpattern =>
      have hsame := (Pattern.nzIndex?_eq_some_iff hwf).2 hentry
      simp only [Graph.sources, hn, hkind, hops, hentry, Instr.cellAt, Cell.dependencies,
        (hread ha r c).2, ← hpattern, hsame]
      exact ⟨(hread ha r c).1, rfl⟩
  | @gather kind map parts moves hkind hlength hsize hparts hmove =>
      obtain ⟨d, j, a, na, q, hmap, hd, ha, hj, hgetD⟩ := exists_move hlength hmove hk
      simp only [Graph.sources, hn, hkind, hmap, Option.bind_some, hd, Option.map_some,
        Instr.cellAt, hgetD, Cell.dependencies]
      refine ⟨fun x hx => ?_, ?_⟩
      · rw [List.mem_singleton.1 hx]
        exact h.listed ha.place ha.node hj
      · simp [slotOf, h.idxOf_eq ha.place]

/-- A listed nonzero has a cell at its slot. -/
theorem Compiled.feeds_slotOf_iff
    (h : Compiled g inputs outputs order config f)
    (hpatterns : ∀ n ∈ g.nodes, n.pattern.WellFormed) {y : NodeId × Nat} (hy : Listed g order y)
    {s : Nat} :
    Feeds f.visits s (f.slotOf order y) ↔ ∃ x ∈ g.sources y.1 y.2, f.slotOf order x = s := by
  obtain ⟨n, hn, hk⟩ := hy.nonzero
  obtain ⟨n', instr, hn', he, hlowers, -⟩ := h.element _ _ hy.place
  rw [hn] at hn'
  cases hn'
  have hvisit : (f.slotOf order y, instr.cellAt f.full.slot y.2) ∈ f.visits :=
    mem_visits_iff.2 ⟨_, _, y.2, he, hk, rfl⟩
  rw [← List.mem_map, ← (h.dependencies_eq hpatterns hn hk hlowers).2]
  constructor
  · rintro ⟨c, hc, hs⟩
    rwa [cell_unique h.wellFormed hc hvisit] at hs
  · exact fun hs => ⟨_, hvisit, hs⟩

theorem Compiled.listed_of_mem_sources
    (h : Compiled g inputs outputs order config f)
    (hpatterns : ∀ n ∈ g.nodes, n.pattern.WellFormed) {x y : NodeId × Nat}
    (hy : Listed g order y) (hx : x ∈ g.sources y.1 y.2) :
    Listed g order x := by
  obtain ⟨n, hn, hk⟩ := hy.nonzero
  obtain ⟨n', instr, hn', -, hlowers, -⟩ := h.element _ _ hy.place
  rw [hn] at hn'
  cases hn'
  exact (h.dependencies_eq hpatterns hn hk hlowers).1 x hx

/-- Different nonzeros have different slots. -/
theorem Compiled.slotOf_inj
    (h : Compiled g inputs outputs order config f) {x y : NodeId × Nat} (hx : Listed g order x)
    (hy : Listed g order y) (heq : f.slotOf order x = f.slotOf order y) :
    x = y := by
  have hbefore : ∀ {x y : NodeId × Nat}, Listed g order x → Listed g order y →
      order.idxOf x.1 < order.idxOf y.1 → f.slotOf order x < f.slotOf order y := by
    intro x y hx hy hlt
    obtain ⟨n, hn, hk⟩ := hx.nonzero
    obtain ⟨n', instr, hn', he, -⟩ := h.element _ _ hx.place
    rw [hn] at hn'
    cases hn'
    obtain ⟨_, _, _, he', _⟩ := h.element _ _ hy.place
    exact full_slot_lt_slot h.wellFormed hlt he hk (Array.getElem?_eq_some_iff.1 he').1 y.2
  rcases Nat.lt_trichotomy (order.idxOf x.1) (order.idxOf y.1) with hlt | hsame | hlt
  · exact absurd heq (Nat.ne_of_lt (hbefore hx hy hlt))
  · have hnode := hx.place
    rw [hsame, hy.place] at hnode
    refine Prod.ext (Option.some.inj hnode).symm ?_
    rw [slotOf, slotOf, hsame] at heq
    simpa [Layout.slot] using heq
  · exact absurd heq.symm (Nat.ne_of_lt (hbefore hy hx hlt))

/-- Chains on the tape are chains in the graph. -/
theorem Compiled.leads_slotOf_iff
    (h : Compiled g inputs outputs order config f)
    (hpatterns : ∀ n ∈ g.nodes, n.pattern.WellFormed) {x y : NodeId × Nat}
    (hx : Listed g order x) (hy : Listed g order y) :
    Leads f.visits (f.slotOf order x) (f.slotOf order y) ↔ g.Reaches x y := by
  constructor
  · intro hlead
    -- a chain that ends at a nonzero passes through nonzeros only
    have hback : ∀ {s t}, Leads f.visits s t → ∀ y, Listed g order y → f.slotOf order y = t →
        ∃ x, Listed g order x ∧ f.slotOf order x = s ∧ g.Reaches x y := by
      intro s t hlead
      induction hlead with
      | refl => exact fun y hy heq => ⟨y, hy, heq, .refl⟩
      | tail _ hstep ih =>
          rintro y hy rfl
          obtain ⟨z, hz, hslot⟩ := (h.feeds_slotOf_iff hpatterns hy).1 hstep
          obtain ⟨x, hx, hs, hreach⟩ := ih z (h.listed_of_mem_sources hpatterns hy hz) hslot
          exact ⟨x, hx, hs, hreach.tail hz⟩
    obtain ⟨x', hx', hslot, hreach⟩ := hback hlead y hy rfl
    rwa [h.slotOf_inj hx' hx hslot] at hreach
  · intro hreach
    induction hreach with
    | refl => exact .refl
    | @tail z y _ hstep ih =>
        have hz := h.listed_of_mem_sources hpatterns hy hstep
        exact (ih hz).tail ((h.feeds_slotOf_iff hpatterns hy).2 ⟨z, hstep, rfl⟩)

/-- The nonzeros of an input are listed at its slots. -/
theorem Compiled.listed_input
    (h : Compiled g inputs outputs order config f) {i : Nat} {a : NodeId}
    (ha : inputs[i]? = some a) :
    i < f.nIn ∧ (∃ n, g.nodes[a]? = some n ∧ f.inputLength i = n.pattern.nnz) ∧
      ∀ c < f.inputLength i, Listed g order (a, c) ∧ f.full.slot i c = f.slotOf order (a, c) := by
  obtain ⟨rest, hrest⟩ := h.ordered.declared
  have hplace : order[i]? = some a := by
    rw [← hrest, List.getElem?_append_left (List.getElem?_eq_some_iff.1 ha).1, ha]
  obtain ⟨p, hp, n, hn, rfl⟩ := getElem?_of_forall₂_left h.inputPatterns ha
  have hlength : f.inputLength i = n.pattern.nnz := by simp [inputLength, hp]
  refine ⟨(List.getElem?_eq_some_iff.1 hp).1, ⟨n, hn, hlength⟩,
    fun c hc => ⟨h.listed hplace hn (by omega), ?_⟩⟩
  rw [slotOf, h.idxOf_eq hplace]

/-- The nonzeros of an output are listed at its slots. -/
theorem Compiled.listed_output
    (h : Compiled g inputs outputs order config f) {o : Nat} {b : NodeId}
    (hb : outputs[o]? = some b) :
    o < f.nOut ∧ (∃ n, g.nodes[b]? = some n ∧ f.outputLength o = n.pattern.nnz) ∧
      ∀ r < f.outputLength o, Listed g order (b, r) ∧ f.outputSlot o r = f.slotOf order (b, r) := by
  obtain ⟨q, hq, hplace⟩ := getElem?_of_forall₂_left h.placed hb
  obtain ⟨p, hp, n, hn, rfl⟩ := getElem?_of_forall₂_left h.outputPatterns hb
  have hlength : f.outputLength o = n.pattern.nnz := by simp [outputLength, hp]
  refine ⟨(List.getElem?_eq_some_iff.1 hp).1, ⟨n, hn, hlength⟩,
    fun r hr => ⟨h.listed hplace hn (by omega), ?_⟩⟩
  rw [slotOf, h.idxOf_eq hplace, outputSlot, List.getD_eq_getElem?_getD, hq]
  rfl

/-- The pattern that is found forward is reachability. -/
theorem Compiled.isReachability
    (h : Compiled g inputs outputs order config f)
    (hpatterns : ∀ n ∈ g.nodes, n.pattern.WellFormed) {o i : Nat} {b a : NodeId}
    (hb : outputs[o]? = some b) (ha : inputs[i]? = some a) :
    (f.jacobianForward (f.segmentsAt f.full) (f.full.slot i 0, f.inputLength i)
      (f.outputSlot o 0, f.outputLength o)).IsReachability g a b := by
  have hf := h.wellFormed
  obtain ⟨hi, hncol, hinput⟩ := h.listed_input ha
  obtain ⟨ho, hnrow, houtput⟩ := h.listed_output hb
  refine ⟨wellFormed_jacobianForward hf hi o, ?_, hncol, fun r hr c hc => ?_⟩
  · rw [nrow_jacobianForward]
    exact hnrow
  · rw [nrow_jacobianForward] at hr
    have hc' : c < f.inputLength i := hc
    obtain ⟨hx, hslot⟩ := hinput c hc'
    obtain ⟨hy, hslot'⟩ := houtput r hr
    rw [mem_row_jacobianForward_iff hf hi ho hr, and_iff_right hc', hslot, hslot',
      h.leads_slotOf_iff hpatterns hx hy]

/--
The structural Jacobian of a block is found alike in both directions, and it is reachability:
column `c` is in row `r` exactly if a chain leads from nonzero `c` of the input to nonzero `r`
of the output. Over exact arithmetic, the unit forward seed at `c` has sensitivity zero at every
`r` where column `c` is not in row `r`.
-/
theorem jacobianPattern_exact :
    (∀ {F : Type} [Zero F] [Elementary F] [ElementText F] {g : Graph F}
      {inputs outputs : List NodeId} {config : Config} {f : Tape F}, g.BareLeaves →
      (∀ n ∈ g.nodes, n.pattern.WellFormed) → compile g inputs outputs config = .ok f →
      ∀ {o i : Nat} {b a : NodeId}, outputs[o]? = some b → inputs[i]? = some a →
        ∃ tape input output p, f.segments f.full = .ok tape ∧ f.inputSlots i = .ok input ∧
          f.outputRange o = .ok output ∧ f.jacobianForward tape input output = p ∧
          f.jacobianBackward tape input output = p ∧ f.jacobianPattern o i = .ok p ∧
          p.IsReachability g a b) ∧
    ∀ {F : Type} [CommRing F] [Div F] [Elementary F] [Elementary.Exact F] [ElementText F]
      {g : Graph F} {inputs outputs : List NodeId} {config : Config} {f : Tape F}, g.BareLeaves →
      compile g inputs outputs config = .ok f → ∀ {o i : Nat}, o < f.nOut → i < f.nIn →
        ∃ p, f.jacobianPattern o i = .ok p ∧
          ∀ r < f.outputLength o, ∀ c < f.inputLength i, c ∉ p.row r →
            ∀ (xs : List (List F)) (m : Memory F), m.WellSized →
              f.checkEvaluation "evaluate" m.sizes xs [f.seedLists (unitTangent i c)] [] =
                .ok () →
              ∃ e tangents column,
                (f.evaluate xs [f.seedLists (unitTangent i c)] []).alone m = .ok e ∧
                  e.fwd = [tangents] ∧ tangents[o]? = some column ∧ column[r]? = some 0 := by
  constructor
  · intro F _ _ _ g inputs outputs config f hbare hpatterns hcompile o i b a hb ha
    obtain ⟨order, h⟩ := compiled_of_compile hbare hcompile
    have hf := h.wellFormed
    obtain ⟨hi, -⟩ := h.listed_input ha
    obtain ⟨ho, -⟩ := h.listed_output hb
    have hbackward := jacobianBackward_eq_jacobianForward hf hi ho
    have hreaches := h.isReachability hpatterns hb ha
    exact ⟨_, _, _, _, segments_full hf, inputRange_eq hf hi, outputRange_eq hf ho, rfl, hbackward,
      jacobianPattern_eq hf ho hi, hreaches⟩
  · intro F _ _ _ _ _ g inputs outputs config f hbare hcompile o i ho hi
    obtain ⟨order, h⟩ := compiled_of_compile hbare hcompile
    have hf := h.wellFormed
    obtain ⟨p, hp, -, -, -, hzero⟩ := jacobianPattern_spec hf ho hi
    refine ⟨p, hp, ?_⟩
    intro r hr c hc hnot xs m hm hcheck
    obtain ⟨e, tangents, column, he, hfwd, hcolumn, hentry⟩ :=
      evaluate_unitTangent hf ho hi hr hc hm hcheck
    rw [hzero r hr c hc hnot xs] at hentry
    exact ⟨e, tangents, column, he, hfwd, hcolumn, hentry⟩

theorem jacobianPattern_exact_scaling :
    (∃ tape input output p, scaling.segments scaling.full = .ok tape ∧
      scaling.inputSlots 0 = .ok input ∧ scaling.outputRange 1 = .ok output ∧
      scaling.jacobianForward tape input output = p ∧
      scaling.jacobianBackward tape input output = p ∧ scaling.jacobianPattern 1 0 = .ok p ∧
      p.IsReachability Graph.scaling 0 4) ∧
    ∃ p e tangents column, scaling.jacobianPattern 2 0 = .ok p ∧ 1 ∉ p.row 0 ∧
      (scaling.evaluate [[2, 3]] [scaling.seedLists (unitTangent 0 1)] []).alone
        (scaling.memory 1 0) = .ok e ∧
      e.fwd = [tangents] ∧ tangents[2]? = some column ∧ column[0]? = some 0 := by
  constructor
  · exact jacobianPattern_exact.1 Graph.bareLeaves_scaling Graph.wellFormed_scaling compile_scaling
      (show [3, 4, 0][1]? = some 4 from rfl) (show [0][0]? = some 0 from rfl)
  · have hpattern : scaling.jacobianPattern 2 0 = .ok ⟨2, #[[0], [1]]⟩ := by
      cbv
    obtain ⟨p, hp, hzero⟩ := jacobianPattern_exact.2 Graph.bareLeaves_scaling compile_scaling
      (show 2 < scaling.nOut by cbv) (show 0 < scaling.nIn by cbv)
    rw [hpattern] at hp
    cases hp
    obtain ⟨e, tangents, column, he, hfwd, hcolumn, hentry⟩ := hzero 0 (by cbv) 1 (by cbv)
      (by decide) [[2, 3]] (scaling.memory 1 0) (Memory.wellSized_new _) (by cbv)
    exact ⟨_, e, tangents, column, hpattern, by decide, he, hfwd, hcolumn, hentry⟩

end Tape

end SparseDiff
