import SparseDiff.Proofs.Lowering
import Mathlib.Data.List.Chain

/-!
# What the search reaches, and when it fails

The search meets the outputs and, from node to operand, all that they need, without entering
declared inputs (`Search.Reached`). The nodes on its stack form a chain of operands, so a node
that is met again while it is open lies on a cycle; and every refusal points at a node that is
reached and missing, on a cycle or malformed (`Search.run_outcome`). A search that ends has
finished every node that is reached, each once (`Search.Finished`).
-/

namespace SparseDiff

namespace Search

section Chains

variable {F : Type}

/-- Node `d` is an operand of node `id`. -/
def Uses (g : Graph F) (id d : NodeId) : Prop := d ∈ operandsOf g id

instance (g : Graph F) (id d : NodeId) : Decidable (Uses g id d) :=
  inferInstanceAs (Decidable (d ∈ operandsOf g id))

/-- The node needs itself. -/
def OnCycle (g : Graph F) (id : NodeId) : Prop := Relation.TransGen (Uses g) id id

/-- From the outputs to operands, without entering declared inputs. -/
inductive Reached (g : Graph F) (inputs outputs : List NodeId) : NodeId → Prop
  | output {id : NodeId} (hid : id ∈ outputs) (hnew : id ∉ inputs) : Reached g inputs outputs id
  | operand {id d : NodeId} (h : Reached g inputs outputs id) (hd : Uses g id d)
      (hnew : d ∉ inputs) : Reached g inputs outputs d

theorem Reached.not_mem_inputs
    {g : Graph F} {inputs outputs : List NodeId} {id : NodeId}
    (h : Reached g inputs outputs id) :
    id ∉ inputs := by
  cases h with
  | output _ hnew => exact hnew
  | operand _ _ hnew => exact hnew

/-- On a chain of operands, the last node leads to the first. -/
theorem reflTransGen_of_isChain
    {g : Graph F} {top : NodeId} {nodes : List NodeId}
    (h : (top :: nodes).IsChain fun upper lower => Uses g lower upper) {id : NodeId}
    (hid : id ∈ top :: nodes) :
    Relation.ReflTransGen (Uses g) id top := by
  induction nodes generalizing top with
  | nil =>
      rw [List.mem_singleton.1 hid]
  | cons lower nodes ih =>
      obtain ⟨huses, hrest⟩ := List.isChain_cons_cons.1 h
      rcases List.mem_cons.1 hid with rfl | hid
      · exact .refl
      · exact (ih hrest hid).tail huses

end Chains

variable {F : Type} [Zero F] [Elementary F] [ElementText F]

/-- Why the search refuses a node: it is missing, needs itself or fails its check. -/
def Defective (g : Graph F) (id : NodeId) : Prop :=
  g.size ≤ id ∨ OnCycle g id ∨ g.checkNode id ≠ .ok ()

/-- The refusal that a defective node causes. -/
def Blames (g : Graph F) (id : NodeId) (e : Error) : Prop :=
  (g.size ≤ id ∧ e = .structural "compile" (.unknownNode id)) ∨
    (OnCycle g id ∧ e = .structural "compile" (.cycle id)) ∨ g.checkNode id = .error e

theorem Blames.defective
    {g : Graph F} {id : NodeId} {e : Error} (h : Blames g id e) :
    Defective g id := by
  refine h.imp And.left (Or.imp And.left fun hcheck hok => ?_)
  cases hcheck.symm.trans hok

/-- The search has found nothing but what is reached, and its stack is a chain of operands. -/
structure Within (g : Graph F) (inputs outputs : List NodeId) (s : Search) (stack : List Frame) :
    Prop where
  order : ∀ id ∈ s.order.toList, id ∈ inputs ∨ Reached g inputs outputs id
  free : ∀ id ∈ s.free.toList, Reached g inputs outputs id ∧ isSymbolic g id = true ∧
    g.checkNode id = .ok ()
  nodup : s.free.toList.Nodup
  frames : ∀ f ∈ stack, Reached g inputs outputs f.node
  chain : (stack.map Frame.node).IsChain fun upper lower => Uses g lower upper

section Moves

variable {g : Graph F} {inputs outputs : List NodeId} {s : Search} {stack : List Frame}

/-- Declared inputs are done from the beginning. -/
theorem Inv.done_of_mem_inputs
    (hinv : Inv g inputs s stack) {id : NodeId} (hid : id ∈ inputs) :
    s.Done id :=
  (hinv.done_iff id).2 (.inl (hinv.declared.subset hid))

theorem Inv.not_mem_inputs_of_new
    (hinv : Inv g inputs s stack) {id : NodeId} (hnew : s.marks[id]? = some Mark.new) :
    id ∉ inputs := by
  intro hid
  have hdone : s.marks[id]? = some Mark.done := hinv.done_of_mem_inputs hid
  rw [hnew] at hdone
  cases hdone

/-- A pending operand is an operand. -/
theorem Inv.uses_pending
    {id d : NodeId} {pending : List NodeId}
    (hinv : Inv g inputs s (⟨id, d :: pending⟩ :: stack)) :
    Uses g id d := by
  obtain ⟨⟨met, hmet, -⟩, -⟩ := hinv.waiting
  rw [Uses, hmet]
  simp

theorem Within.enter_root
    (h : Within g inputs outputs s []) {root : NodeId} (hroot : Reached g inputs outputs root) :
    Within g inputs outputs (s.enter root) [⟨root, operandsOf g root⟩] := by
  refine ⟨h.order, h.free, h.nodup, fun f hf => ?_, List.isChain_singleton _⟩
  rw [List.mem_singleton.1 hf]
  exact hroot

/-- Passing over an operand keeps the nodes on the stack. -/
theorem Within.skip
    {id d : NodeId} {pending : List NodeId}
    (h : Within g inputs outputs s (⟨id, d :: pending⟩ :: stack)) :
    Within g inputs outputs s (⟨id, pending⟩ :: stack) := by
  refine ⟨h.order, h.free, h.nodup, fun f hf => ?_, h.chain⟩
  rcases List.mem_cons.1 hf with rfl | hf
  · exact h.frames ⟨id, d :: pending⟩ (List.mem_cons_self ..)
  · exact h.frames f (List.mem_cons_of_mem _ hf)

theorem Within.enter_operand
    {id d : NodeId} {pending : List NodeId}
    (h : Within g inputs outputs s (⟨id, d :: pending⟩ :: stack)) (huses : Uses g id d)
    (hd : Reached g inputs outputs d) :
    Within g inputs outputs (s.enter d) (⟨d, operandsOf g d⟩ :: ⟨id, pending⟩ :: stack) := by
  refine ⟨h.order, h.free, h.nodup, fun f hf => ?_, List.isChain_cons_cons.2 ⟨huses, h.chain⟩⟩
  rcases List.mem_cons.1 hf with rfl | hf
  · exact hd
  · exact h.skip.frames f hf

theorem Within.leave
    {id : NodeId} (h : Within g inputs outputs s (⟨id, []⟩ :: stack))
    (hinv : Inv g inputs s (⟨id, []⟩ :: stack)) (hcheck : g.checkNode id = .ok ()) :
    Within g inputs outputs (s.leave id (isSymbolic g id)) stack := by
  have hid := h.frames ⟨id, []⟩ (List.mem_cons_self ..)
  have hopen : s.Open id := (hinv.opened id).2 (by simp)
  have hfresh : id ∉ s.free.toList := fun hmem => hopen.not_done ((hinv.done_iff id).2 (.inr hmem))
  refine ⟨fun d hd => ?_, fun d hd => ?_, ?_, fun f hf => h.frames f (List.mem_cons_of_mem _ hf),
    h.chain.tail⟩
  · rw [order_leave] at hd
    rcases List.mem_append.1 hd with hd | hd
    · exact h.order d hd
    · split at hd
      · cases hd
      · rw [List.mem_singleton.1 hd]
        exact .inr hid
  · rw [free_leave] at hd
    rcases List.mem_append.1 hd with hd | hd
    · exact h.free d hd
    · split at hd
      · next hsym =>
          rw [List.mem_singleton.1 hd]
          exact ⟨hid, hsym, hcheck⟩
      · cases hd
  · rw [free_leave]
    split
    · exact List.nodup_append.2 ⟨h.nodup, by simp, fun a ha b hb heq => hfresh (by
        rw [← List.mem_singleton.1 hb, ← heq]
        exact ha)⟩
    · rw [List.append_nil]
      exact h.nodup

end Moves

/-- A search ends within what is reached, or stops because a node that is reached is defective. -/
theorem run_outcome
    {g : Graph F} {inputs outputs : List NodeId} (hinputs : ∀ id ∈ inputs, id < g.size)
    {s : Search} {stack : List Frame} {roots : List NodeId} (hroots : roots ⊆ outputs)
    (hinv : Inv g inputs s stack) (h : Within g inputs outputs s stack) :
    (∃ s', run g s stack roots = .ok s' ∧ Within g inputs outputs s' []) ∨
      ∃ e id, run g s stack roots = .error e ∧ Reached g inputs outputs id ∧
        Blames g id e := by
  fun_induction run g s stack roots with
  | case1 s => exact .inl ⟨s, rfl, h⟩
  | case2 s root roots hnew ih =>
      have hroot : Reached g inputs outputs root :=
        .output (hroots (List.mem_cons_self ..)) (hinv.not_mem_inputs_of_new hnew)
      exact ih (List.subset_of_cons_subset hroots) (hinv.enter_root hnew) (h.enter_root hroot)
  | case3 s root roots hold ih => exact ih (List.subset_of_cons_subset hroots) hinv h
  | case4 s id stack roots e he =>
      have hid := h.frames ⟨id, []⟩ (List.mem_cons_self ..)
      exact .inr ⟨e, id, rfl, hid, .inr (.inr he)⟩
  | case5 s id stack roots hcheck ih =>
      exact ih hroots (hinv.leave hcheck) (h.leave hinv hcheck)
  | case6 s id d pending stack roots hd =>
      have hsize : g.size ≤ d := by
        rw [← hinv.size]
        exact Array.getElem?_eq_none_iff.1 hd
      have hnew : d ∉ inputs := fun hmem => Nat.not_lt.2 hsize (hinputs d hmem)
      have hid := h.frames ⟨id, d :: pending⟩ (List.mem_cons_self ..)
      exact .inr ⟨_, d, rfl, hid.operand hinv.uses_pending hnew, .inl ⟨hsize, rfl⟩⟩
  | case7 s id d pending stack roots hnew ih =>
      have hid := h.frames ⟨id, d :: pending⟩ (List.mem_cons_self ..)
      have hd := hid.operand hinv.uses_pending (hinv.not_mem_inputs_of_new hnew)
      exact ih hroots (hinv.enter_operand hnew) (h.enter_operand hinv.uses_pending hd)
  | case8 s id d pending stack roots hopen =>
      -- the operand is on the stack, from where a chain leads back to its reader
      have hmem := (hinv.opened d).1 hopen
      have hlead := reflTransGen_of_isChain h.chain hmem
      obtain ⟨f, hf, rfl⟩ := List.mem_map.1 hmem
      exact .inr ⟨_, f.node, rfl, h.frames f hf,
        .inr (.inl ⟨Relation.TransGen.tail' hlead hinv.uses_pending, rfl⟩)⟩
  | case9 s id d pending stack roots hdone ih => exact ih hroots (hinv.skip hdone) h.skip

/-- A checked symbolic node has no operands. -/
theorem operandsOf_eq_nil
    {g : Graph F} {id : NodeId} (hsym : isSymbolic g id = true)
    (hcheck : g.checkNode id = .ok ()) :
    operandsOf g id = [] := by
  obtain ⟨n, hn, -⟩ := bind_eq_ok_iff.1 hcheck
  rw [Graph.node_eq_ok_iff] at hn
  obtain ⟨-, -, hlength, -⟩ := Graph.checked_of_checkNode hn hcheck
  rw [isSymbolic, hn] at hsym
  rw [operandsOf, hn]
  refine List.length_eq_zero_iff.1 (hlength 0 ?_)
  cases hkind : n.kind with
  | symbolic name => rfl
  | _ => simp [hkind, NodeKind.isSymbolic] at hsym

/-- The search has ended and has finished what is reached. -/
structure Finished (g : Graph F) (inputs outputs : List NodeId) (s : Search) : Prop where
  inv : Inv g inputs s []
  within : Within g inputs outputs s []
  done : ∀ id, Reached g inputs outputs id → s.Done id

/-- A node of the order that is not declared is listed. -/
theorem Inv.listed_of_mem
    {g : Graph F} {inputs : List NodeId} {s : Search} {stack : List Frame}
    (hinv : Inv g inputs s stack) {id : NodeId} (hid : id ∈ s.order.toList) (hnew : id ∉ inputs) :
    ∃ before after, s.order.toList = before ++ id :: after ∧
      Listed g s.free.toList before id := by
  obtain ⟨before, after, hsplit⟩ := List.append_of_mem hid
  refine ⟨before, after, hsplit, hinv.listed before id after hsplit (Nat.not_lt.1 fun hlt => ?_)⟩
  obtain ⟨rest, hrest⟩ := hinv.declared
  have hget : inputs[before.length]? = some id := by
    rw [← List.getElem?_append_left hlt, hrest, hsplit]
    simp
  exact hnew (List.mem_of_getElem? hget)

/-- When the outputs are done, all that is reached is done. -/
theorem finished_of_done
    {g : Graph F} {inputs outputs : List NodeId} {s : Search} (hinv : Inv g inputs s [])
    (h : Within g inputs outputs s []) (hroots : ∀ id ∈ outputs, s.Done id) :
    Finished g inputs outputs s := by
  refine ⟨hinv, h, fun id hid => ?_⟩
  induction hid with
  | output hid hnew => exact hroots _ hid
  | @operand id d hreached huses hnew ih =>
      rcases (hinv.done_iff id).1 ih with hmem | hmem
      · obtain ⟨before, after, hsplit, hlisted⟩ :=
          hinv.listed_of_mem hmem hreached.not_mem_inputs
        refine (hinv.done_iff d).2 ((hlisted.operands d huses).imp_left fun hbefore => ?_)
        rw [hsplit]
        exact List.mem_append_left _ hbefore
      · -- free leaves have no operands
        obtain ⟨-, hsym, hcheck⟩ := h.free id hmem
        rw [Uses, operandsOf_eq_nil hsym hcheck] at huses
        cases huses

section Finished

variable {g : Graph F} {inputs outputs : List NodeId} {s : Search}

/-- The order holds the declared inputs and all that is reached but free leaves. -/
theorem Finished.mem_order_iff
    (h : Finished g inputs outputs s) {id : NodeId} :
    id ∈ s.order.toList ↔
      id ∈ inputs ∨ Reached g inputs outputs id ∧ isSymbolic g id = false := by
  constructor
  · intro hmem
    by_cases hid : id ∈ inputs
    · exact .inl hid
    · obtain ⟨_, _, _, hlisted⟩ := h.inv.listed_of_mem hmem hid
      exact .inr ⟨(h.within.order id hmem).resolve_left hid, hlisted.symbolic⟩
  · rintro (hid | ⟨hreached, hsym⟩)
    · exact h.inv.declared.subset hid
    · refine ((h.inv.done_iff id).1 (h.done id hreached)).resolve_right fun hmem => ?_
      rw [(h.within.free id hmem).2.1] at hsym
      cases hsym

/-- The free leaves are the symbolic nodes that are reached. -/
theorem Finished.mem_free_iff
    (h : Finished g inputs outputs s) {id : NodeId} :
    id ∈ s.free.toList ↔ Reached g inputs outputs id ∧ isSymbolic g id = true := by
  constructor
  · intro hmem
    obtain ⟨hreached, hsym, -⟩ := h.within.free id hmem
    exact ⟨hreached, hsym⟩
  · rintro ⟨hreached, hsym⟩
    refine ((h.inv.done_iff id).1 (h.done id hreached)).resolve_left fun hmem => ?_
    rcases h.mem_order_iff.1 hmem with hid | ⟨-, hnot⟩
    · exact hreached.not_mem_inputs hid
    · rw [hnot] at hsym
      cases hsym

theorem Finished.lt_size
    (h : Finished g inputs outputs s) {id : NodeId} (hid : Reached g inputs outputs id) :
    id < g.size := by
  rw [← h.inv.size]
  exact (Array.getElem?_eq_some_iff.1 (h.done id hid)).1

theorem Finished.checkNode_eq_ok
    (h : Finished g inputs outputs s) {id : NodeId} (hid : Reached g inputs outputs id) :
    g.checkNode id = .ok () := by
  rcases (h.inv.done_iff id).1 (h.done id hid) with hmem | hmem
  · obtain ⟨_, _, _, hlisted⟩ := h.inv.listed_of_mem hmem hid.not_mem_inputs
    exact hlisted.check
  · exact (h.within.free id hmem).2.2

end Finished

/-- From distinct declared inputs, a search finishes what is reached or meets a defective node. -/
theorem run_start
    {g : Graph F} {inputs outputs : List NodeId} (hnodup : inputs.Nodup)
    (hinputs : ∀ id ∈ inputs, id < g.size) (houtputs : ∀ id ∈ outputs, id < g.size) :
    (∃ s, run g (start g.size inputs) [] outputs = .ok s ∧ Finished g inputs outputs s) ∨
      ∃ e id, run g (start g.size inputs) [] outputs = .error e ∧
        Reached g inputs outputs id ∧ Blames g id e := by
  have hinv := inv_start hnodup hinputs
  have hwithin : Within g inputs outputs (start g.size inputs) [] :=
    ⟨fun id hid => .inl (by simpa [start] using hid), by simp [start], by simp [start],
      by simp, List.isChain_nil⟩
  refine (run_outcome hinputs (List.Subset.refl _) hinv hwithin).imp_left ?_
  rintro ⟨s, hrun, hs⟩
  obtain ⟨hinv', -, -, hroots⟩ := run_spec hrun hinv
  exact ⟨s, hrun, finished_of_done hinv' hs fun id hid => hroots id hid (houtputs id hid)⟩

end Search

end SparseDiff
