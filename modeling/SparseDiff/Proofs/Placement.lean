import SparseDiff.Proofs.Lowering

/-!
# What is left to fail after the order

Once the order of evaluation is found, every operand of a node that the search has entered has
a position. Operands of declared inputs are never looked at by the search, so they may have
none: lowering then reads out of bounds (`Tape.compile_eq_of_order`). The positions that an
element reads are those of the operands of its node (`Tape.Assembled`).
-/

namespace SparseDiff

section Failures

variable {α β : Type}

/-- The only way to fail is to read out of bounds. -/
def FailsOutOfBounds (x : Except Failure α) : Prop :=
  ∀ e, x = .error e → e = .outOfBounds

theorem failsOutOfBounds_ok
    (a : α) :
    FailsOutOfBounds (.ok a) := by
  intro e h
  cases h

theorem FailsOutOfBounds.bind
    {x : Except Failure α} {f : α → Except Failure β} (hx : FailsOutOfBounds x)
    (hf : ∀ a, FailsOutOfBounds (f a)) :
    FailsOutOfBounds (x >>= f) := by
  cases x with
  | error e => exact fun e' h => hx e' (by cases h; rfl)
  | ok a => exact hf a

theorem FailsOutOfBounds.map
    {x : Except Failure α} (hx : FailsOutOfBounds x) (f : α → β) :
    FailsOutOfBounds (x.map f) := by
  cases x with
  | error e => exact fun e' h => hx e' (by cases h; rfl)
  | ok a => exact failsOutOfBounds_ok (f a)

theorem FailsOutOfBounds.mapM
    {f : α → Except Failure β} (h : ∀ a, FailsOutOfBounds (f a)) (items : List α) :
    FailsOutOfBounds (items.mapM f) := by
  induction items with
  | nil => exact failsOutOfBounds_ok []
  | cons a items ih =>
      rw [List.mapM_cons]
      exact (h a).bind fun _ => ih.bind fun _ => failsOutOfBounds_ok _

/-- What fails in no other way either succeeds or reads out of bounds. -/
theorem FailsOutOfBounds.eq
    {x : Except Failure α} (h : FailsOutOfBounds x) (hnot : ¬ ∃ a, x = .ok a) :
    x = .error .outOfBounds := by
  cases x with
  | error e => rw [h e rfl]
  | ok a => exact absurd ⟨a, rfl⟩ hnot

end Failures

namespace Tape

section Lowering

variable {F : Type}

theorem failsOutOfBounds_positionOf
    (table : Array (Option Nat)) (id : NodeId) :
    FailsOutOfBounds (positionOf table id) := by
  intro e h
  unfold positionOf at h
  split at h <;> cases h
  rfl

theorem failsOutOfBounds_placedNode
    (g : Graph F) (id : NodeId) :
    FailsOutOfBounds (placedNode g id) := by
  intro e h
  unfold placedNode at h
  split at h <;> cases h
  rfl

theorem failsOutOfBounds_instruction
    (position : Nat) (n : Node F) (parts : List Nat) (patterns : List Pattern) :
    FailsOutOfBounds (instruction position n parts patterns) := by
  have hmove : ∀ move, FailsOutOfBounds (resolveMove parts move) := by
    intro move e h
    unfold resolveMove at h
    split at h <;> cases h
    rfl
  unfold instruction
  split
  case h_8 => exact (FailsOutOfBounds.mapM hmove _).bind fun _ => failsOutOfBounds_ok _
  case h_9 =>
    intro e h
    cases h
    rfl
  all_goals exact failsOutOfBounds_ok _

theorem failsOutOfBounds_element
    (g : Graph F) (table : Array (Option Nat)) (id : NodeId) (position : Nat) :
    FailsOutOfBounds (element g table id position) := by
  refine (failsOutOfBounds_placedNode g id).bind fun n => ?_
  refine (FailsOutOfBounds.mapM (failsOutOfBounds_positionOf table) _).bind fun parts => ?_
  refine (FailsOutOfBounds.mapM (fun d => (failsOutOfBounds_placedNode g d).map _) _).bind
    fun patterns => ?_
  exact (failsOutOfBounds_instruction position n parts patterns).bind fun _ =>
    failsOutOfBounds_ok _

variable [Zero F] [Elementary F] [ElementText F]

/-- After the order, compilation fails in no other way than by reading out of bounds. -/
theorem failsOutOfBounds_compile
    {g : Graph F} {inputs outputs order : List NodeId}
    (h : Tape.order g inputs outputs = .ok order) (config : Config) :
    FailsOutOfBounds (compile g inputs outputs config) := by
  have hpatterns : ∀ ids : List NodeId,
      FailsOutOfBounds (ids.mapM fun id => (placedNode g id).map Node.pattern) :=
    FailsOutOfBounds.mapM fun id => (failsOutOfBounds_placedNode g id).map _
  have helements : ∀ (order : List NodeId) (table : Array (Option Nat)),
      FailsOutOfBounds (order.zipIdx.mapM fun item => element g table item.1 item.2) :=
    fun order table => FailsOutOfBounds.mapM
      (fun item => failsOutOfBounds_element g table item.1 item.2) order.zipIdx
  rw [compile, h]
  refine (failsOutOfBounds_ok order).bind fun order => ?_
  refine (helements order _).bind fun elements => ?_
  refine (FailsOutOfBounds.mapM (failsOutOfBounds_positionOf _) _).bind fun positions => ?_
  exact (hpatterns inputs).bind fun _ => (hpatterns outputs).bind fun _ => failsOutOfBounds_ok _

/-- A symbolic leaf or a checked node has an instruction, which reads all its operands. -/
theorem exists_instruction
    {g : Graph F} {id : NodeId} {n : Node F} (hn : g.nodes[id]? = some n)
    (hchecked : n.kind.isSymbolic = true ∨ g.checkNode id = .ok ()) (position : Nat)
    {parts : List Nat} (hparts : parts.length = n.operands.length) {patterns : List Pattern}
    (hpatterns : patterns.length = n.operands.length) :
    ∃ instr, instruction position n parts patterns = .ok instr ∧ instr.reads = parts := by
  rcases hchecked with hsym | hcheck
  · cases hkind : n.kind with
    | symbolic name => exact ⟨.input position parts, by simp only [instruction, hkind], rfl⟩
    | _ => simp [hkind, NodeKind.isSymbolic] at hsym
  · obtain ⟨patterns', hpatterns', hlength, hchecked⟩ := Graph.checked_of_checkNode hn hcheck
    have htwo : n.kind.arity? = some 2 →
        (∃ a b, parts = [a, b]) ∧ ∃ pa pb, patterns = [pa, pb] := fun harity =>
      ⟨List.length_eq_two.1 (hparts.trans (hlength 2 harity)),
        List.length_eq_two.1 (hpatterns.trans (hlength 2 harity))⟩
    cases hkind : n.kind with
    | symbolic name => exact ⟨.input position parts, by simp only [instruction, hkind], rfl⟩
    | constant values =>
        have hnil := List.length_eq_zero_iff.1 (hparts.trans (hlength 0 (by rw [hkind]; rfl)))
        exact ⟨.constant values, by simp only [instruction, hkind], hnil.symm⟩
    | unary op =>
        have hone := hlength 1 (by rw [hkind]; rfl)
        obtain ⟨a, rfl⟩ := List.length_eq_one_iff.1 (hparts.trans hone)
        obtain ⟨pa, rfl⟩ := List.length_eq_one_iff.1 (hpatterns.trans hone)
        exact ⟨.unary op ⟨a, .between n.pattern pa⟩, by simp only [instruction, hkind], rfl⟩
    | binary op =>
        obtain ⟨⟨a, b, rfl⟩, pa, pb, rfl⟩ := htwo (by rw [hkind]; rfl)
        exact ⟨.binary op ⟨a, .between n.pattern pa⟩ ⟨b, .between n.pattern pb⟩,
          by simp only [instruction, hkind], rfl⟩
    | scalarMatrix op =>
        obtain ⟨⟨a, b, rfl⟩, pa, pb, rfl⟩ := htwo (by rw [hkind]; rfl)
        exact ⟨.binary op ⟨a, .broadcast pa⟩ ⟨b, .between n.pattern pb⟩,
          by simp only [instruction, hkind], rfl⟩
    | matrixScalar op =>
        obtain ⟨⟨a, b, rfl⟩, pa, pb, rfl⟩ := htwo (by rw [hkind]; rfl)
        exact ⟨.binary op ⟨a, .between n.pattern pa⟩ ⟨b, .broadcast pb⟩,
          by simp only [instruction, hkind], rfl⟩
    | ifElse tol =>
        obtain ⟨⟨a, b, rfl⟩, pa, pb, rfl⟩ := htwo (by rw [hkind]; rfl)
        exact ⟨.ifElse tol ⟨a, .broadcast pa⟩ b, by simp only [instruction, hkind], rfl⟩
    | gather kind map =>
        rw [hkind] at hchecked
        -- the check of the map has found an operand for every move
        have hmoves : map.mapM (resolveMove parts) =
            .ok (map.map fun move => (parts.getD move.1 0, move.2)) := by
          refine mapM_eq_ok_map fun move hmove => ?_
          obtain ⟨p, hp, -⟩ := hchecked.2 move hmove
          have hlt : move.1 < parts.length := by
            rw [hparts, ← length_of_mapM hpatterns']
            exact (List.getElem?_eq_some_iff.1 hp).1
          rw [resolveMove, List.getD_eq_getElem?_getD, List.getElem?_eq_getElem hlt]
          rfl
        refine ⟨.gather kind parts (map.map fun move => (parts.getD move.1 0, move.2)).toArray,
          ?_, rfl⟩
        simp only [instruction, hkind, hmoves, bind, Except.bind]
        rfl

/-- A node of the order exists, and unless it is a symbolic leaf it has been checked. -/
theorem Ordered.node_at
    {g : Graph F} {inputs outputs order : List NodeId} (h : Ordered g inputs outputs order)
    {p : Nat} {id : NodeId} (hp : order[p]? = some id) :
    ∃ n, g.nodes[id]? = some n ∧ (n.kind.isSymbolic = true ∨ g.checkNode id = .ok ()) := by
  rcases Nat.lt_or_ge p inputs.length with hearly | hlate
  · obtain ⟨n, hn, hsym⟩ := h.symbolic id (h.mem_inputs_at hp hearly)
    exact ⟨n, hn, .inl hsym⟩
  · have hcheck := (h.listed_at hp hlate).check
    obtain ⟨n, hn, -⟩ := bind_eq_ok_iff.1 hcheck
    exact ⟨n, Graph.node_eq_ok_iff.1 hn, .inr hcheck⟩

theorem Ordered.lt_size
    {g : Graph F} {inputs outputs order : List NodeId} (h : Ordered g inputs outputs order)
    {id : NodeId} (hid : id ∈ order) :
    id < g.size := by
  obtain ⟨p, hp⟩ := List.mem_iff_getElem?.1 hid
  obtain ⟨n, hn, -⟩ := h.node_at hp
  exact (Array.getElem?_eq_some_iff.1 hn).1

theorem Ordered.positionOf_eq
    {g : Graph F} {inputs outputs order : List NodeId} (h : Ordered g inputs outputs order)
    {id : NodeId} (hid : id ∈ order) :
    positionOf (positions g.size order) id = .ok (order.idxOf id) := by
  rw [Tape.positionOf_eq h.nodup (h.lt_size hid), if_pos hid]

theorem Ordered.exists_pattern
    {g : Graph F} {inputs outputs order : List NodeId} (h : Ordered g inputs outputs order)
    {id : NodeId} (hid : id ∈ order) :
    ∃ p, (placedNode g id).map Node.pattern = .ok p := by
  obtain ⟨p, hp⟩ := List.mem_iff_getElem?.1 hid
  obtain ⟨n, hn, -⟩ := h.node_at hp
  exact ⟨n.pattern, placedNode_map_eq_ok_iff.2 ⟨n, hn, rfl⟩⟩

/-- An element of a node reads the positions of the operands. -/
structure ElementOf (g : Graph F) (order : List NodeId) (id : NodeId) (e : Element F) : Prop where
  node : e.node = id
  reads : List.Forall₂ (fun d q => order[q]? = some d) (Search.operandsOf g id) e.instr.reads

theorem elementOf_of_element
    {g : Graph F} {inputs outputs order : List NodeId} (hord : Ordered g inputs outputs order)
    {p : Nat} {id : NodeId} (hp : order[p]? = some id) {e : Element F}
    (he : element g (positions g.size order) id p = .ok e) :
    ElementOf g order id e := by
  obtain ⟨n, hn, hchecked⟩ := hord.node_at hp
  obtain ⟨n', parts, patterns, instr, hn', hparts, hpatterns, hinstr, rfl⟩ :=
    element_eq_ok_iff.1 he
  rw [hn] at hn'
  cases hn'
  obtain ⟨instr', hinstr', hreads⟩ := exists_instruction hn hchecked p (length_of_mapM hparts)
    (length_of_mapM hpatterns)
  rw [hinstr] at hinstr'
  cases hinstr'
  refine ⟨rfl, ?_⟩
  rw [hreads, Search.operandsOf, hn]
  exact (mapM_eq_ok_iff.1 hparts).imp fun _ _ => getElem?_of_positionOf hord.nodup

/-- A node whose operands are all in the order has an element. -/
theorem exists_element
    {g : Graph F} {inputs outputs order : List NodeId} (hord : Ordered g inputs outputs order)
    {p : Nat} {id : NodeId} (hp : order[p]? = some id)
    (hplaced : ∀ d ∈ Search.operandsOf g id, d ∈ order) :
    ∃ e, element g (positions g.size order) id p = .ok e := by
  obtain ⟨n, hn, hchecked⟩ := hord.node_at hp
  rw [Search.operandsOf, hn] at hplaced
  obtain ⟨parts, hparts⟩ := exists_mapM_eq_ok fun d (hd : d ∈ n.operands) =>
    ⟨_, hord.positionOf_eq (hplaced d hd)⟩
  obtain ⟨patterns, hpatterns⟩ := exists_mapM_eq_ok fun d (hd : d ∈ n.operands) =>
    hord.exists_pattern (hplaced d hd)
  obtain ⟨instr, hinstr, -⟩ := exists_instruction hn hchecked p (length_of_mapM hparts)
    (length_of_mapM hpatterns)
  exact ⟨_, element_eq_ok_iff.2 ⟨n, parts, patterns, instr, hn, hparts, hpatterns, hinstr, rfl⟩⟩

/-- The elements of a tape are those of the nodes of its order, one after the other. -/
structure Assembled (g : Graph F) (inputs outputs order : List NodeId) (f : Tape F) : Prop where
  ordered : Ordered g inputs outputs order
  size : f.elements.size = order.length
  element : ∀ (p : Nat) (id : NodeId), order[p]? = some id →
    ∃ e, f.elements[p]? = some e ∧ ElementOf g order id e

theorem assembled_of_compile
    {g : Graph F} {inputs outputs : List NodeId} {config : Config} {f : Tape F}
    (h : compile g inputs outputs config = .ok f) :
    ∃ order, Tape.order g inputs outputs = .ok order ∧ Assembled g inputs outputs order f := by
  obtain ⟨order, elements, -, -, -, horder, helements, -, -, -, rfl⟩ := compile_eq_ok_iff.1 h
  have hord := ordered_of_order horder
  refine ⟨order, horder, hord, by simpa using length_of_mapM helements, fun p id hp => ?_⟩
  have hzip : order.zipIdx[p]? = some (id, p) := by simp [hp]
  obtain ⟨e, he, helement⟩ := getElem?_of_mapM helements hzip
  exact ⟨e, by simpa using he, elementOf_of_element hord hp helement⟩

/-- The nodes of the elements are the order. -/
theorem Assembled.map_node
    {g : Graph F} {inputs outputs order : List NodeId} {f : Tape F}
    (h : Assembled g inputs outputs order f) :
    f.elements.toList.map Element.node = order := by
  refine List.ext_getElem? fun p => ?_
  rw [List.getElem?_map, Array.getElem?_toList]
  cases hp : order[p]? with
  | none =>
      rw [Array.getElem?_eq_none (by rw [h.size]; exact List.getElem?_eq_none_iff.1 hp)]
      rfl
  | some id =>
      obtain ⟨e, he, helement⟩ := h.element p id hp
      rw [he, Option.map_some, helement.node]

/-- With an order, compilation succeeds exactly if the operands of all inputs are in the order. -/
theorem exists_compile_iff
    {g : Graph F} {inputs outputs order : List NodeId}
    (h : Tape.order g inputs outputs = .ok order) (config : Config) :
    (∃ f, compile g inputs outputs config = .ok f) ↔
      ∀ id ∈ inputs, ∀ d ∈ Search.operandsOf g id, d ∈ order := by
  constructor
  · rintro ⟨f, hf⟩ id hid d hd
    obtain ⟨order', horder', hassembled⟩ := assembled_of_compile hf
    rw [h] at horder'
    cases horder'
    obtain ⟨p, hp⟩ := List.mem_iff_getElem?.1 (hassembled.ordered.declared.subset hid)
    obtain ⟨e, -, helement⟩ := hassembled.element p id hp
    obtain ⟨j, hj⟩ := List.mem_iff_getElem?.1 hd
    obtain ⟨q, -, hq⟩ := getElem?_of_forall₂_left helement.reads hj
    exact List.mem_of_getElem? hq
  · intro hplaced
    have hord := ordered_of_order h
    have helement : ∀ item ∈ order.zipIdx,
        ∃ e, element g (positions g.size order) item.1 item.2 = .ok e := by
      rintro ⟨id, p⟩ hitem
      have hp : order[p]? = some id := List.mk_mem_zipIdx_iff_getElem?.1 hitem
      refine exists_element hord hp fun d hd => ?_
      rcases Nat.lt_or_ge p inputs.length with hearly | hlate
      · exact hplaced id (hord.mem_inputs_at hp hearly) d hd
      · obtain ⟨q, -, hq⟩ := hord.operand_before hp hlate hd
        exact List.mem_of_getElem? hq
    obtain ⟨elements, helements⟩ := exists_mapM_eq_ok helement
    obtain ⟨places, hplaces⟩ := exists_mapM_eq_ok fun id hid =>
      ⟨_, hord.positionOf_eq (hord.placed id hid)⟩
    obtain ⟨inputPatterns, hin⟩ := exists_mapM_eq_ok fun id hid =>
      hord.exists_pattern (hord.declared.subset hid)
    obtain ⟨outputPatterns, hout⟩ := exists_mapM_eq_ok fun id hid =>
      hord.exists_pattern (hord.placed id hid)
    exact ⟨_, compile_eq_ok_iff.2 ⟨order, elements, places, inputPatterns, outputPatterns, h,
      helements, hplaces, hin, hout, rfl⟩⟩

/-- Without them, lowering reads out of bounds. -/
theorem compile_eq_outOfBounds
    {g : Graph F} {inputs outputs order : List NodeId}
    (h : Tape.order g inputs outputs = .ok order) (config : Config)
    (hmissing : ¬ ∀ id ∈ inputs, ∀ d ∈ Search.operandsOf g id, d ∈ order) :
    compile g inputs outputs config = .error .outOfBounds :=
  (failsOutOfBounds_compile h config).eq (mt (exists_compile_iff h config).1 hmissing)

/-- Without an order, compilation refuses the request. -/
theorem compile_eq_rejected
    {g : Graph F} {inputs outputs : List NodeId} {e : Error}
    (h : Tape.order g inputs outputs = .error e) (config : Config) :
    compile g inputs outputs config = .error (.rejected e) := by
  unfold compile
  rw [h]
  rfl

end Lowering

end Tape

end SparseDiff
