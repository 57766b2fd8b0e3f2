import SparseDiff.Proofs.Exact
import SparseDiff.Proofs.Placement
import SparseDiff.Proofs.Reached

/-!
# Requests that compilation accepts

Where declared inputs have no operands, compilation accepts exactly the well-posed requests
that reach no undeclared symbolic leaf. The graph may come from anywhere: its edges may dangle,
point forward or form cycles. An order puts operands before their readers, so what it holds lies
on no cycle (`Tape.Ordered.not_onCycle`); a well-posed request ends its search
(`Tape.exists_finished`), and after the search nothing fails (`Tape.exists_compile_iff`).
-/

namespace SparseDiff

variable {F : Type} [Zero F] [Elementary F] [ElementText F]

open Search in
/--
A request that can be ordered: inputs are distinct symbolic nodes, outputs exist, and what they
reach exists, lies on no cycle and passes its check.
-/
structure WellPosed (g : Graph F) (inputs outputs : List NodeId) : Prop where
  declared : ∀ id ∈ inputs, ∃ n, g.nodes[id]? = some n ∧ n.kind.isSymbolic = true
  distinct : inputs.Nodup
  existing : ∀ id ∈ outputs, id < g.size
  known : ∀ id, Reached g inputs outputs id → id < g.size
  acyclic : ∀ id, Reached g inputs outputs id → ¬ OnCycle g id
  checked : ∀ id, Reached g inputs outputs id → g.checkNode id = .ok ()

namespace Tape

open Search (Reached OnCycle Uses Finished)

variable {g : Graph F} {inputs outputs order : List NodeId}

/-- Where inputs have no operands, every operand stands before its reader. -/
theorem Ordered.operand_before_of_bare
    (h : Ordered g inputs outputs order) (hbare : ∀ id ∈ inputs, Search.operandsOf g id = [])
    {p : Nat} {id d : NodeId} (hp : order[p]? = some id) (huses : Uses g id d) :
    ∃ q < p, order[q]? = some d := by
  rcases Nat.lt_or_ge p inputs.length with hearly | hlate
  · rw [Uses, hbare id (h.mem_inputs_at hp hearly)] at huses
    cases huses
  · exact h.operand_before hp hlate huses

theorem Ordered.not_onCycle
    (h : Ordered g inputs outputs order) (hbare : ∀ id ∈ inputs, Search.operandsOf g id = [])
    {id : NodeId} (hid : id ∈ order) :
    ¬ OnCycle g id := by
  have hdown : ∀ {a b : NodeId}, Relation.TransGen (Uses g) a b → ∀ p : Nat, order[p]? = some a →
      ∃ q < p, order[q]? = some b := by
    intro a b hab
    induction hab with
    | single huses => exact fun p hp => h.operand_before_of_bare hbare hp huses
    | tail _ huses ih =>
        intro p hp
        obtain ⟨q, hqp, hq⟩ := ih p hp
        obtain ⟨q', hq', hd⟩ := h.operand_before_of_bare hbare hq huses
        exact ⟨q', hq'.trans hqp, hd⟩
  intro hcycle
  obtain ⟨p, hp⟩ := List.mem_iff_getElem?.1 hid
  obtain ⟨q, hqp, hq⟩ := hdown hcycle p hp
  have hsame := h.place_unique hp hq
  omega

/-- A request that can be ordered ends its search. -/
theorem exists_finished
    (h : WellPosed g inputs outputs) :
    ∃ s, Finished g inputs outputs s ∧
      Tape.order g inputs outputs = (checkFree g s.free.toList).map fun _ => s.order.toList := by
  have hin : checkInputs g [] inputs = .ok () :=
    checkInputs_eq_ok_iff.2 ⟨fun id hid => ⟨h.declared id hid, List.not_mem_nil⟩, h.distinct⟩
  have hout : checkOutputs g outputs = .ok () := checkOutputs_eq_ok_iff.2 h.existing
  rcases Search.run_start h.distinct (lt_size_of_declared h.declared) h.existing with
    ⟨s, hrun, hs⟩ | ⟨_, id, -, hid, hblames⟩
  · refine ⟨s, hs, ?_⟩
    simp only [Tape.order, hin, hout, hrun, bind, Except.bind]
    cases checkFree g s.free.toList <;> rfl
  · rcases hblames.defective with hmissing | hcycle | hcheck
    · exact absurd (h.known id hid) (Nat.not_lt.2 hmissing)
    · exact absurd hcycle (h.acyclic id hid)
    · exact absurd (h.checked id hid) hcheck

/-- An order is what a finished search without free leaves has listed. -/
theorem finished_of_order
    (h : Tape.order g inputs outputs = .ok order) :
    (∀ id ∈ outputs, id < g.size) ∧ ∃ s, Finished g inputs outputs s ∧
      s.free.toList = [] ∧ s.order.toList = order := by
  have hord := ordered_of_order h
  obtain ⟨hin, hout, s, hrun, hfree, horder⟩ := order_eq_ok_iff.1 h
  have hlt := lt_size_of_declared hord.symbolic
  have houtputs := checkOutputs_eq_ok_iff.1 hout
  refine ⟨houtputs, s, ?_, hfree, horder⟩
  rcases Search.run_start (checkInputs_eq_ok_iff.1 hin).2 hlt houtputs with
    ⟨s', hrun', hs⟩ | ⟨e, id, hrun', -⟩
  · rw [hrun] at hrun'
    cases hrun'
    exact hs
  · rw [hrun] at hrun'
    cases hrun'

/-- The order holds the inputs and what is reached, and nothing that is reached is symbolic. -/
theorem reached_of_order
    (h : Tape.order g inputs outputs = .ok order) :
    (∀ id, id ∈ order ↔ id ∈ inputs ∨ Reached g inputs outputs id) ∧
      ∀ id, Reached g inputs outputs id →
        id < g.size ∧ g.checkNode id = .ok () ∧ Search.isSymbolic g id = false := by
  obtain ⟨-, s, hs, hfree, rfl⟩ := finished_of_order h
  have hsym : ∀ id, Reached g inputs outputs id → Search.isSymbolic g id = false := by
    intro id hid
    refine Bool.eq_false_iff.2 fun htrue => ?_
    have hmem := hs.mem_free_iff.2 ⟨hid, htrue⟩
    rw [hfree] at hmem
    cases hmem
  refine ⟨fun id => hs.mem_order_iff.trans (or_congr_right ?_), fun id hid =>
    ⟨hs.lt_size hid, hs.checkNode_eq_ok hid, hsym id hid⟩⟩
  exact ⟨And.left, fun hid => ⟨hid, hsym id hid⟩⟩

theorem wellPosed_of_order
    (hbare : ∀ id ∈ inputs, Search.operandsOf g id = [])
    (h : Tape.order g inputs outputs = .ok order) :
    WellPosed g inputs outputs := by
  have hord := ordered_of_order h
  obtain ⟨hmem, hreached⟩ := reached_of_order h
  refine ⟨hord.symbolic, hord.nodup.sublist hord.declared.sublist, (finished_of_order h).1,
    fun id hid => (hreached id hid).1, fun id hid => ?_, fun id hid => (hreached id hid).2.1⟩
  exact hord.not_onCycle hbare ((hmem id).2 (.inr hid))

/--
Compilation of a request whose inputs have no operands returns a tape or refuses the request.
It returns a tape exactly if the request is well-posed and reaches no undeclared symbolic leaf.
The tape lists the inputs as they are declared and then every other node that is reached once,
each after all its operands. A well-posed request that reaches undeclared leaves is refused with
the list of them, each once.
-/
theorem compile_accepts
    (hbare : ∀ id ∈ inputs, Search.operandsOf g id = []) (config : Config) :
    ((∃ f, compile g inputs outputs config = .ok f) ∨
      ∃ e, compile g inputs outputs config = .error (.rejected e)) ∧
    ((∃ f, compile g inputs outputs config = .ok f) ↔ WellPosed g inputs outputs ∧
      ∀ id, Reached g inputs outputs id → Search.isSymbolic g id = false) ∧
    (∀ f, compile g inputs outputs config = .ok f →
      ∃ rest, f.elements.toList.map Element.node = inputs ++ rest ∧ rest.Nodup ∧
        (∀ id, id ∈ rest ↔ Reached g inputs outputs id) ∧
        ∀ before id after, inputs ++ rest = before ++ id :: after →
          ∀ d ∈ Search.operandsOf g id, d ∈ before) ∧
    (WellPosed g inputs outputs →
      (∃ id, Reached g inputs outputs id ∧ Search.isSymbolic g id = true) →
      ∃ nodes, compile g inputs outputs config = .error (.rejected
          (.structural "compile" (.freeSymbols nodes (nodes.map (freeName g))))) ∧
        nodes.Nodup ∧
        ∀ id, id ∈ nodes ↔ Reached g inputs outputs id ∧ Search.isSymbolic g id = true) := by
  have hcompile : ∀ {order}, Tape.order g inputs outputs = .ok order →
      ∃ f, compile g inputs outputs config = .ok f := by
    intro order h
    refine (exists_compile_iff h config).2 fun id hid d hd => ?_
    rw [hbare id hid] at hd
    cases hd
  refine ⟨?_, ⟨?_, ?_⟩, ?_, ?_⟩
  · cases h : Tape.order g inputs outputs with
    | error e => exact .inr ⟨e, compile_eq_rejected h config⟩
    | ok order => exact .inl (hcompile h)
  · rintro ⟨f, hf⟩
    obtain ⟨order, h, -⟩ := assembled_of_compile hf
    exact ⟨wellPosed_of_order hbare h, fun id hid => ((reached_of_order h).2 id hid).2.2⟩
  · rintro ⟨hposed, hbound⟩
    obtain ⟨s, hs, horder⟩ := exists_finished hposed
    have hfree : s.free.toList = [] := by
      refine List.eq_nil_iff_forall_not_mem.2 fun id hmem => ?_
      obtain ⟨hid, hsym⟩ := hs.mem_free_iff.1 hmem
      rw [hbound id hid] at hsym
      cases hsym
    rw [hfree] at horder
    exact hcompile horder
  · intro f hf
    obtain ⟨order, h, hassembled⟩ := assembled_of_compile hf
    have hord := hassembled.ordered
    obtain ⟨rest, hrest⟩ := hord.declared
    subst hrest
    obtain ⟨-, hnodup, hdisjoint⟩ := List.nodup_append.1 hord.nodup
    refine ⟨rest, hassembled.map_node, hnodup, fun id => ⟨fun hid => ?_, fun hid => ?_⟩,
      fun before id after hsplit d hd => ?_⟩
    · have hmem := ((reached_of_order h).1 id).1 (List.mem_append_right _ hid)
      exact hmem.resolve_left fun hin => hdisjoint id hin id hid rfl
    · have hmem := ((reached_of_order h).1 id).2 (.inr hid)
      exact (List.mem_append.1 hmem).resolve_left hid.not_mem_inputs
    · have hp : (inputs ++ rest)[before.length]? = some id := by
        rw [hsplit]
        simp
      obtain ⟨q, hlt, hq⟩ := hord.operand_before_of_bare hbare hp hd
      rw [hsplit, List.getElem?_append_left hlt] at hq
      exact List.mem_of_getElem? hq
  · rintro hposed ⟨id, hid, hsym⟩
    obtain ⟨s, hs, horder⟩ := exists_finished hposed
    have hfree : s.free.toList ≠ [] := List.ne_nil_of_mem (hs.mem_free_iff.2 ⟨hid, hsym⟩)
    rw [checkFree, if_neg (by simpa using hfree)] at horder
    exact ⟨s.free.toList, compile_eq_rejected horder config, hs.within.nodup,
      fun id => hs.mem_free_iff⟩

theorem wellPosed_scaling :
    WellPosed Graph.scaling [] [3] := by
  have hdown : ∀ {a b : NodeId}, Uses Graph.scaling a b → b < a := by
    intro a b huses
    have hall : ∀ a < 5, ∀ b ∈ Search.operandsOf Graph.scaling a, b < a := by
      decide
    refine hall a (Nat.not_le.1 fun hout => ?_) b huses
    rw [Uses, Search.operandsOf, Array.getElem?_eq_none hout] at huses
    cases huses
  have hreached : ∀ id, Reached Graph.scaling [] [3] id → id < 4 := by
    intro id hid
    induction hid with
    | output hid _ =>
        rw [List.mem_singleton.1 hid]
        decide
    | operand _ huses _ ih => exact (hdown huses).trans ih
  have hbelow : ∀ {a b : NodeId}, Relation.TransGen (Uses Graph.scaling) a b → b < a := by
    intro a b hab
    induction hab with
    | single huses => exact hdown huses
    | tail _ huses ih => exact (hdown huses).trans ih
  refine ⟨by simp, List.nodup_nil, by decide, fun id hid => (hreached id hid).trans (by decide),
    fun id _ hcycle => Nat.lt_irrefl id (hbelow hcycle), fun id hid => ?_⟩
  have hlt := hreached id hid
  interval_cases id <;> cbv

theorem compile_accepts_scaling :
    WellPosed Graph.scaling [0] [3, 4, 0] ∧
    (∃ rest, scaling.elements.toList.map Element.node = [0] ++ rest ∧ rest.Nodup ∧
      ∀ id, id ∈ rest ↔ Reached Graph.scaling [0] [3, 4, 0] id) ∧
    ∃ nodes, compile Graph.scaling [] [3] {} = .error (.rejected
        (.structural "compile" (.freeSymbols nodes (nodes.map (freeName Graph.scaling))))) ∧
      0 ∈ nodes := by
  obtain ⟨-, haccepts, htape, -⟩ :=
    compile_accepts (show ∀ id ∈ [0], Search.operandsOf Graph.scaling id = [] by decide) {}
  obtain ⟨rest, hnodes, hnodup, hmem, -⟩ := htape _ compile_scaling
  obtain ⟨-, -, -, hfree⟩ := compile_accepts
    (show ∀ id ∈ [], Search.operandsOf Graph.scaling id = [] by simp) {}
  have hproduct : Reached Graph.scaling [] [3] 3 := .output (by decide) (by simp)
  have hslice : Reached Graph.scaling [] [3] 1 := hproduct.operand (by decide) (by simp)
  have hleaf : Reached Graph.scaling [] [3] 0 := hslice.operand (by decide) (by simp)
  obtain ⟨nodes, hcompile, -, hlisted⟩ := hfree wellPosed_scaling ⟨0, hleaf, by decide⟩
  exact ⟨(haccepts.1 ⟨_, compile_scaling⟩).1, ⟨rest, hnodes, hnodup, hmem⟩,
    ⟨nodes, hcompile, (hlisted 0).2 ⟨hleaf, by decide⟩⟩⟩

end Tape

end SparseDiff
