import SparseDiff.Proofs.Building
import SparseDiff.Proofs.Requests

/-!
# Checking again what was built

Compilation checks every node that it places, wherever the graph comes from. The nodes of a
graph that was built pass, with one exception: a select that is pushed as a node keeps whatever
tolerance it is given, and the check rejects one that is negative or not finite
(`Graph.Sound.checkNode_eq_ok`, `Graph.Sound.checkNode_eq_error`). Apart from that only the
declaration of the inputs and outputs is left to blame for a refusal.
-/

namespace SparseDiff

/-- A refusal that blames what the request declares, not a node of the graph. -/
inductive Error.BlamesRequest : Error → Prop
  | unknownNode (id : NodeId) : BlamesRequest (.structural "compile" (.unknownNode id))
  | notSymbolic (id : NodeId) : BlamesRequest (.structural "compile" (.notSymbolic id))
  | duplicateInput (id : NodeId) : BlamesRequest (.structural "compile" (.duplicateInput id))
  | freeSymbols (ids : List NodeId) (names : List String) :
      BlamesRequest (.structural "compile" (.freeSymbols ids names))

namespace Tape

variable {F : Type} (g : Graph F)

theorem failsAs_checkInputs
    (seen inputs : List NodeId) :
    FailsAs Error.BlamesRequest (checkInputs g seen inputs) := by
  induction inputs generalizing seen with
  | nil => exact failsAs_ok ()
  | cons id inputs ih =>
      unfold checkInputs
      cases g.nodes[id]? with
      | none => exact failsAs_error (.unknownNode id)
      | some n =>
          simp only
          split
          · exact failsAs_error (.notSymbolic id)
          · split
            · exact failsAs_error (.duplicateInput id)
            · exact ih _

theorem failsAs_checkOutputs
    (outputs : List NodeId) :
    FailsAs Error.BlamesRequest (checkOutputs g outputs) := by
  induction outputs with
  | nil => exact failsAs_ok ()
  | cons id outputs ih =>
      unfold checkOutputs
      split
      · exact ih
      · exact failsAs_error (.unknownNode id)

theorem failsAs_checkFree
    (free : List NodeId) :
    FailsAs Error.BlamesRequest (checkFree g free) := by
  unfold checkFree
  split
  · exact failsAs_ok ()
  · exact failsAs_error (.freeSymbols ..)

end Tape

section Tolerances

variable {F : Type} [Zero F] [Elementary F]

theorem NodeKind.eq_ifElse_of_rejectedTolerance
    {kind : NodeKind F} {tol : F} (h : kind.rejectedTolerance? = some tol) :
    kind = .ifElse tol ∧ Graph.isTolerance tol = false := by
  cases kind with
  | ifElse tol' =>
      simp only [rejectedTolerance?] at h
      split at h
      · cases h
      · next hnot =>
          cases h
          exact ⟨rfl, Bool.eq_false_iff.2 hnot⟩
  | _ => cases h

end Tolerances

namespace Graph

section Edges

open Search (Reached Uses OnCycle)

variable {F : Type} {g : Graph F} {inputs outputs : List NodeId} {id : NodeId}

/-- Operands of a sound graph are smaller. -/
theorem Sound.lt_of_uses
    (h : g.Sound) {d : NodeId} (huses : Uses g id d) :
    d < id := by
  unfold Uses Search.operandsOf at huses
  cases hn : g.nodes[id]? with
  | none => simp [hn] at huses
  | some n => exact (h id n hn).operand_lt d (by simpa [hn] using huses)

theorem Sound.not_onCycle
    (h : g.Sound) :
    ¬ OnCycle g id := by
  have hdown : ∀ {a b : NodeId}, Relation.TransGen (Uses g) a b → b < a := by
    intro a b hab
    induction hab with
    | single huses => exact h.lt_of_uses huses
    | tail _ huses ih => exact (h.lt_of_uses huses).trans ih
  exact fun hcycle => Nat.lt_irrefl id (hdown hcycle)

theorem Sound.lt_size_of_reached
    (h : g.Sound) (houtputs : ∀ id ∈ outputs, id < g.size)
    (hid : Reached g inputs outputs id) :
    id < g.size := by
  induction hid with
  | output hid _ => exact houtputs _ hid
  | operand _ huses _ ih => exact (h.lt_of_uses huses).trans ih

end Edges

section Passing

variable {F : Type} {id : NodeId} {patterns : List Pattern}

theorem checkArity_eq_ok
    {kind : NodeKind F} {got : Nat} (h : ∀ k, kind.arity? = some k → got = k) :
    kind.checkArity got = .ok () := by
  unfold NodeKind.checkArity
  cases harity : kind.arity? with
  | none => rfl
  | some k => exact if_pos (h k harity).symm

theorem checkMoves_eq_ok
    {map : List (Nat × Nat)}
    (h : ∀ move ∈ map, ∃ p, patterns[move.1]? = some p ∧ move.2 < p.nnz) :
    checkMoves id patterns map = .ok () := by
  induction map with
  | nil => rfl
  | cons move map ih =>
      obtain ⟨p, hp, hlt⟩ := h move (List.mem_cons_self ..)
      have hrest := ih fun move hmove => h move (List.mem_cons_of_mem _ hmove)
      simp only [checkMoves, hp, if_neg (Nat.not_le.2 hlt), hrest]

theorem checkInferred_eq_ok
    {n : Node F} (h : inferPattern n.kind patterns = .ok (some n.pattern)) :
    checkInferred id n patterns = .ok () := by
  rw [checkInferred, h]
  exact if_neg (not_not.2 rfl)

end Passing

variable {F : Type} [Zero F] [Elementary F] [ElementText F] {g : Graph F} {id : NodeId}
  {n : Node F}

/-- A sound node passes its check, if it is no select with a rejected tolerance. -/
theorem Sound.checkNode_eq_ok
    (h : g.Sound) (hn : g.nodes[id]? = some n) (htol : n.kind.rejectedTolerance? = none) :
    g.checkNode id = .ok () := by
  obtain ⟨-, harity, patterns, hpatterns, hfits⟩ := h id n hn
  refine bind_eq_ok_iff.2 ⟨n, node_eq_ok_iff.2 hn, bind_eq_ok_iff.2 ⟨patterns, hpatterns,
    bind_eq_ok_iff.2 ⟨(), checkArity_eq_ok harity, ?_⟩⟩⟩
  obtain ⟨kind, operands, p⟩ := n
  cases kind with
  | symbolic name => rfl
  | constant values => exact if_neg (not_not.2 hfits)
  | gather kind map =>
      obtain ⟨hlength, hmoves⟩ := hfits
      exact (if_neg (not_not.2 hlength)).trans (checkMoves_eq_ok hmoves)
  | ifElse tol =>
      have hpassed : isTolerance tol = true := by
        by_contra hnot
        simp [NodeKind.rejectedTolerance?, hnot] at htol
      exact (if_pos hpassed).trans (checkInferred_eq_ok hfits)
  | unary | binary | scalarMatrix | matrixScalar => exact checkInferred_eq_ok hfits

/-- The check of node `id` rejects its tolerance. -/
def toleranceError (id : NodeId) (tol : F) : Error :=
  .structural "compile" (.invalidNode id (.storedTolerance (ElementText.display tol)))

theorem Sound.checkNode_eq_error
    (h : g.Sound) (hn : g.nodes[id]? = some n) {tol : F}
    (htol : n.kind.rejectedTolerance? = some tol) :
    g.checkNode id = .error (toleranceError id tol) := by
  obtain ⟨-, harity, patterns, hpatterns, -⟩ := h id n hn
  obtain ⟨kind, operands, p⟩ := n
  obtain ⟨rfl, hrejected⟩ := NodeKind.eq_ifElse_of_rejectedTolerance htol
  simp only [checkNode, node_eq_ok_iff.2 hn, hpatterns, checkArity_eq_ok harity, bind, Except.bind,
    hrejected]
  rfl

/-- Every tolerance that the check rejects was pushed as it is. -/
def TolerancesPushed (calls : List (Build F)) (g : Graph F) : Prop :=
  ∀ n ∈ g.nodes, ∀ tol, n.kind.rejectedTolerance? = some tol →
    ∃ operands, Build.push (.ifElse tol) operands ∈ calls

theorem tolerancesPushed_buildAll
    [OfScientific F] (calls : List (Build F)) :
    (empty.buildAll calls).TolerancesPushed calls := by
  have hempty : (empty : Graph F).TolerancesPushed calls := by simp [TolerancesPushed, empty]
  refine List.foldlRecOn calls _ hempty fun g h call hcall => ?_
  refine buildOrKeep_induction h fun new hnew n hn tol htol => ?_
  rcases Array.mem_push.1 hn with hold | rfl
  · exact h n hold tol htol
  · rcases hnew.rejectedTolerance with hnone | ⟨operands, rfl⟩
    · cases hnone.symm.trans htol
    · rw [(NodeKind.eq_ifElse_of_rejectedTolerance htol).1] at hcall
      exact ⟨operands, hcall⟩

open Search (Reached)

variable {inputs outputs : List NodeId}

/-- What compilation may still refuse of a sound graph. -/
def Refusal (g : Graph F) (e : Error) : Prop :=
  e.BlamesRequest ∨ ∃ (id : NodeId) (n : Node F) (tol : F), g.nodes[id]? = some n ∧
    n.kind.rejectedTolerance? = some tol ∧ e = toleranceError id tol

/-- A search of a sound graph is only stopped by a rejected tolerance that it reaches. -/
theorem Sound.run_cases
    (h : g.Sound) (hinputs : Tape.checkInputs g [] inputs = .ok ())
    (houtputs : Tape.checkOutputs g outputs = .ok ()) :
    (∃ s, Search.run g (Search.start g.size inputs) [] outputs = .ok s ∧
      Search.Finished g inputs outputs s) ∨
    ∃ (id : NodeId) (n : Node F) (tol : F), Reached g inputs outputs id ∧
      g.nodes[id]? = some n ∧ n.kind.rejectedTolerance? = some tol ∧
      Search.run g (Search.start g.size inputs) [] outputs = .error (toleranceError id tol) := by
  obtain ⟨hdeclared, hnodup⟩ := Tape.checkInputs_eq_ok_iff.1 hinputs
  have hexist := Tape.checkOutputs_eq_ok_iff.1 houtputs
  have hlt := Tape.lt_size_of_declared fun id hid => (hdeclared id hid).1
  refine (Search.run_start hnodup hlt hexist).imp_right ?_
  rintro ⟨e, id, hrun, hid, hblames⟩
  have hknown := h.lt_size_of_reached hexist hid
  rcases hblames with ⟨hmissing, -⟩ | ⟨hcycle, -⟩ | hcheck
  · exact absurd hknown (Nat.not_lt.2 hmissing)
  · exact absurd hcycle h.not_onCycle
  · have hn : g.nodes[id]? = some g.nodes[id] := Array.getElem?_eq_getElem hknown
    cases htol : g.nodes[id].kind.rejectedTolerance? with
    | none => cases hcheck.symm.trans (h.checkNode_eq_ok hn htol)
    | some tol =>
        cases hcheck.symm.trans (h.checkNode_eq_error hn htol)
        exact ⟨id, _, tol, hid, hn, htol, hrun⟩

/-- A request that needs a select with a rejected tolerance is refused for one. -/
theorem Sound.order_eq_error
    (h : g.Sound) (hinputs : Tape.checkInputs g [] inputs = .ok ())
    (houtputs : Tape.checkOutputs g outputs = .ok ()) (hid : Reached g inputs outputs id)
    (hn : g.nodes[id]? = some n) {tol : F} (htol : n.kind.rejectedTolerance? = some tol) :
    ∃ (id' : NodeId) (n' : Node F) (tol' : F), Reached g inputs outputs id' ∧
      g.nodes[id']? = some n' ∧ n'.kind.rejectedTolerance? = some tol' ∧
      Tape.order g inputs outputs = .error (toleranceError id' tol') := by
  rcases h.run_cases hinputs houtputs with ⟨s, -, hs⟩ | ⟨id', n', tol', hid', hn', htol', hrun⟩
  · cases (hs.checkNode_eq_ok hid).symm.trans (h.checkNode_eq_error hn htol)
  · refine ⟨id', n', tol', hid', hn', htol', ?_⟩
    simp only [Tape.order, hinputs, houtputs, hrun, bind, Except.bind]

theorem Sound.failsAs_run
    (h : g.Sound) (hinputs : Tape.checkInputs g [] inputs = .ok ())
    (houtputs : Tape.checkOutputs g outputs = .ok ()) :
    FailsAs g.Refusal (Search.run g (Search.start g.size inputs) [] outputs) := by
  rcases h.run_cases hinputs houtputs with ⟨s, hrun, -⟩ | ⟨id, n, tol, -, hn, htol, hrun⟩
  · rw [hrun]
    exact failsAs_ok s
  · rw [hrun]
    exact failsAs_error (.inr ⟨id, n, tol, hn, htol, rfl⟩)

theorem Sound.failsAs_order
    (h : g.Sound) (inputs outputs : List NodeId) :
    FailsAs g.Refusal (Tape.order g inputs outputs) := by
  refine FailsAs.bind ((Tape.failsAs_checkInputs g [] inputs).imp fun _ => .inl) fun _ hin => ?_
  refine FailsAs.bind ((Tape.failsAs_checkOutputs g outputs).imp fun _ => .inl) fun _ hout => ?_
  refine FailsAs.bind (h.failsAs_run hin hout) fun found _ => ?_
  exact FailsAs.bind ((Tape.failsAs_checkFree g _).imp fun _ => .inl) fun _ _ => failsAs_ok _

/-- Compilation of a sound graph fails for no other reason, and never out of bounds. -/
theorem Sound.failsAs_compile
    (h : g.Sound) (inputs outputs : List NodeId) (config : Config) :
    FailsAs (fun failure => ∃ e, failure = .rejected e ∧ g.Refusal e)
      (Tape.compile g inputs outputs config) := by
  cases horder : Tape.order g inputs outputs with
  | error e =>
      rw [Tape.compile_eq_rejected horder config]
      exact failsAs_error ⟨e, rfl, (h.failsAs_order inputs outputs).of_error e horder⟩
  | ok order =>
      obtain ⟨f, hf⟩ := (Tape.exists_compile_iff horder config).2 fun id hid d hd => by
        obtain ⟨n, hn, hsym⟩ := (Tape.ordered_of_order horder).symbolic id hid
        rw [Search.operandsOf, hn] at hd
        simp [(h id n hn).bare hsym] at hd
      rw [hf]
      exact failsAs_ok f

/--
Nodes that builder calls made pass the check of compilation, but for selects whose tolerance the
check rejects; such a tolerance was pushed with the kind of the node. Compilation of the graph
returns a tape or is refused, and blames the declared inputs and outputs or such a tolerance.
-/
theorem rechecked_buildAll
    [OfScientific F] (calls : List (Build F)) :
    let g := empty.buildAll calls
    (∀ id n, g.nodes[id]? = some n →
      (n.kind.rejectedTolerance? = none → g.checkNode id = .ok ()) ∧
      ∀ tol, n.kind.rejectedTolerance? = some tol →
        g.checkNode id = .error (toleranceError id tol) ∧
          ∃ operands, Build.push (.ifElse tol) operands ∈ calls) ∧
    ∀ inputs outputs config failure, Tape.compile g inputs outputs config = .error failure →
      ∃ e, failure = .rejected e ∧ g.Refusal e := by
  intro g
  have hsound : g.Sound := sound_empty.buildAll calls
  constructor
  · intro id n hn
    refine ⟨hsound.checkNode_eq_ok hn, ?_⟩
    intro tol htol
    have hpushed := tolerancesPushed_buildAll calls n (Array.mem_of_getElem? hn) tol htol
    exact ⟨hsound.checkNode_eq_error hn htol, hpushed⟩
  · intro inputs outputs config failure
    exact (hsound.failsAs_compile inputs outputs config).of_error failure

/-- A select with a negative tolerance, pushed as a node. -/
def negativeSelect : List (Build Int) :=
  [.scalarSymbol "c", .scalarSymbol "a", .push (.ifElse (-1)) [0, 1]]

theorem rechecked_buildAll_negativeSelect :
    (empty.buildAll negativeSelect).checkNode 1 = .ok () ∧
      (empty.buildAll negativeSelect).checkNode 2 = .error (toleranceError 2 (-1)) := by
  obtain ⟨hnodes, -⟩ := rechecked_buildAll negativeSelect
  exact ⟨(hnodes 1 ⟨.symbolic "a", [], Pattern.scalar⟩ (by cbv)).1 rfl,
    ((hnodes 2 ⟨.ifElse (-1), [0, 1], Pattern.scalar⟩ (by cbv)).2 (-1) (by cbv)).1⟩

/-- A call that takes a tolerance refuses it; pushed with its kind it stays and is refused later. -/
theorem compile_negativeSelect :
    (empty.buildAll negativeSelect).build (.ifElseWithin 0 1 (-1)) =
        .error (.structural "ExprGraph::if_else" (.invalidNode 3 (.rejectedTolerance "-1"))) ∧
      (empty.buildAll negativeSelect).checkNode 2 =
        .error (.structural "compile" (.invalidNode 2 (.storedTolerance "-1"))) ∧
      Tape.compile (empty.buildAll negativeSelect) [0, 1] [2] {} =
        .error (.rejected (.structural "compile" (.invalidNode 2 (.storedTolerance "-1")))) := by
  refine ⟨rfl, rfl, ?_⟩
  have hsound : (empty.buildAll negativeSelect).Sound := sound_empty.buildAll negativeSelect
  have hroot : Reached (empty.buildAll negativeSelect) [0, 1] [2] 2 := .output (by simp) (by simp)
  have honly : ∀ id, Reached (empty.buildAll negativeSelect) [0, 1] [2] id → id = 2 := by
    intro id hid
    induction hid with
    | output hid _ => exact List.mem_singleton.1 hid
    | operand _ huses hnew ih =>
        rw [ih] at huses
        exact absurd huses hnew
  obtain ⟨id, n, tol, hid, hn, htol, horder⟩ := hsound.order_eq_error (by cbv) (by cbv) hroot
    (n := ⟨.ifElse (-1), [0, 1], Pattern.scalar⟩) (by cbv) (by cbv)
  cases honly id hid
  have hselect : (empty.buildAll negativeSelect).nodes[2]? =
      some ⟨.ifElse (-1), [0, 1], Pattern.scalar⟩ := by cbv
  cases hselect.symm.trans hn
  cases htol
  exact Tape.compile_eq_rejected horder {}

end Graph

end SparseDiff
