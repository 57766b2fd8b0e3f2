import SparseDiff.Graph.Basic

/-!
# Order of evaluation

A depth-first search from the outputs lists every node that they need after its
operands. It does not enter declared inputs. A node whose operands are still being
visited when it is met again lies on a cycle. Every listed node is checked against its
operands on the way.
-/

namespace SparseDiff

/-- State of a node in the search. -/
inductive Mark where
  | new
  | visiting
  | done
  deriving DecidableEq, Repr, Inhabited

/-- A node being visited and the operands it still waits for. -/
structure Frame where
  node : NodeId
  pending : List NodeId
  deriving DecidableEq, Repr

/-- What the search has found so far. -/
structure Search where
  marks : Array Mark
  /-- Nodes placed on the tape, in order. -/
  order : Array NodeId
  /-- Symbolic leaves that are not declared inputs. -/
  free : Array NodeId
  deriving Inhabited

namespace Search

/-- Number of nodes not yet met. -/
def fresh (s : Search) : Nat := s.marks.count .new

/-- The search before it starts: declared inputs are placed and done. -/
def start (size : Nat) (inputs : List NodeId) : Search :=
  { marks := inputs.foldl (fun marks id => marks.setIfInBounds id .done)
      (Array.replicate size .new)
    order := inputs.toArray
    free := #[] }

/-- Begin to visit a node. -/
def enter (s : Search) (id : NodeId) : Search :=
  { s with marks := s.marks.setIfInBounds id .visiting }

/-- A node whose operands are all done: place it, or note it as free. -/
def leave (s : Search) (id : NodeId) (symbolic : Bool) : Search :=
  let s := { s with marks := s.marks.setIfInBounds id .done }
  if symbolic then
    { s with free := s.free.push id }
  else
    { s with order := s.order.push id }

/-- Visits still to be made on a stack. -/
def pendingVisits (stack : List Frame) : Nat :=
  total (stack.map fun f => f.pending.length + 1)

/-- Marking a node with anything but `new` leaves no more nodes new than before. -/
theorem count_setIfInBounds_le (marks : Array Mark) (i : Nat) {m : Mark} (hm : m ≠ .new) :
    (marks.setIfInBounds i m).count .new ≤ marks.count .new := by
  have hfalse : ¬ (m == Mark.new) = true := fun h => hm (eq_of_beq h)
  by_cases h : i < marks.size
  · rw [Array.setIfInBounds_def, dif_pos h, Array.count_set, if_neg hfalse]
    omega
  · exact Nat.le_of_eq (by rw [Array.setIfInBounds_def, dif_neg h])

/-- Marking a new node with anything else leaves fewer nodes new. -/
theorem count_setIfInBounds_lt (marks : Array Mark) (i : Nat) {m : Mark} (hm : m ≠ .new)
    (hi : marks[i]? = some .new) :
    (marks.setIfInBounds i m).count .new < marks.count .new := by
  obtain ⟨h, hget⟩ := Array.getElem?_eq_some_iff.1 hi
  have hfalse : ¬ (m == Mark.new) = true := fun h => hm (eq_of_beq h)
  have htrue : (marks[i] == Mark.new) = true := beq_iff_eq.2 hget
  have hpos : 0 < marks.count .new :=
    Array.count_pos_iff.2 (hget ▸ Array.getElem_mem h)
  rw [Array.setIfInBounds_def, dif_pos h, Array.count_set, if_pos htrue, if_neg hfalse]
  omega

theorem fresh_enter_lt (s : Search) {id : NodeId} (h : s.marks[id]? = some .new) :
    (s.enter id).fresh < s.fresh :=
  count_setIfInBounds_lt s.marks id (by decide) h

theorem fresh_leave_le (s : Search) (id : NodeId) (symbolic : Bool) :
    (s.leave id symbolic).fresh ≤ s.fresh := by
  have h := count_setIfInBounds_le s.marks id (m := .done) (by decide)
  cases symbolic <;> simpa [leave, fresh] using h

variable {F : Type} [Zero F] [Elementary F] [ElementText F]

/-- Operands of a node; none outside the graph. -/
def operandsOf (g : Graph F) (id : NodeId) : List NodeId :=
  ((g.nodes[id]?).map Node.operands).getD []

/-- Is this node a symbolic leaf? -/
def isSymbolic (g : Graph F) (id : NodeId) : Bool :=
  ((g.nodes[id]?).map fun n => n.kind.isSymbolic).getD false

/--
Visit the nodes on the stack, then the remaining roots. The first operand of the top
frame is met next; a frame without operands left is finished and its node checked.
-/
def run (g : Graph F) (s : Search) (stack : List Frame) (roots : List NodeId) :
    Except Error Search :=
  match stack, roots with
  | [], [] => .ok s
  | [], root :: roots =>
      if _h : s.marks[root]? = some .new then
        run g (s.enter root) [⟨root, operandsOf g root⟩] roots
      else
        run g s [] roots
  | ⟨id, []⟩ :: stack, roots =>
      match g.checkNode id with
      | .error e => .error e
      | .ok () => run g (s.leave id (isSymbolic g id)) stack roots
  | ⟨id, d :: pending⟩ :: stack, roots =>
      match _h : s.marks[d]? with
      | none => .error (.structural "compile" (.unknownNode d))
      | some .new => run g (s.enter d) (⟨d, operandsOf g d⟩ :: ⟨id, pending⟩ :: stack) roots
      | some .visiting => .error (.structural "compile" (.cycle d))
      | some .done => run g s (⟨id, pending⟩ :: stack) roots
termination_by (s.fresh, pendingVisits stack + roots.length)
decreasing_by
  · exact Prod.Lex.left _ _ (fresh_enter_lt s (by assumption))
  · exact Prod.Lex.right _ (by simp)
  · rcases Nat.lt_or_ge (s.leave id (isSymbolic g id)).fresh s.fresh with hlt | hge
    · exact Prod.Lex.left _ _ hlt
    · have heq := Nat.le_antisymm (fresh_leave_le s id (isSymbolic g id)) hge
      rw [heq]
      exact Prod.Lex.right _ (by simp [pendingVisits, total])
  · exact Prod.Lex.left _ _ (fresh_enter_lt s (by assumption))
  · exact Prod.Lex.right _ (by simp [pendingVisits, total])

end Search

end SparseDiff
