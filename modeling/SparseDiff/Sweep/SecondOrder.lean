import SparseDiff.Sweep.Adjoint

/-!
# Forward-over-adjoint sweep

After a forward sweep with tangents, the adjoint `lam` of every value is propagated
together with one adjoint tangent per direction. For `r = f a b`

* the adjoint of `a` grows by `f_a * lam`, and
* its tangent by `f_a * dlam + lam * (f_aa * da + f_ab * db)`,

and likewise for `b`. With adjoint `1` on a scalar output and the input tangent `v`, the
adjoint tangent of the input is the Hessian times `v`.
-/

namespace SparseDiff

variable {F : Type} [Zero F] [Add F] [Mul F] [Calculus F]

namespace Cell

/--
Add the contributions of a cell to the adjoint tangents in `acc`: the cell has value `r`,
adjoint `lam` and adjoint tangent `dlam`; `w` holds the values and `t` the tangents.
-/
def backwardTangent (w : Array F) (r lam : F) (t : Array F) (dlam : F) (acc : Array F) :
    Cell F → Array F
  | input _ _ | constant _ => acc
  | unary op a =>
      let x := readSlot w a
      let d := Calculus.unaryDerivative op x r
      let h := if Calculus.isZero lam then 0 else lam * Calculus.unarySecond op x r
      modifySlot acc a (· + seedMul d dlam + seedMul h (readSlot t a))
  | binary op a b =>
      let x := readSlot w a
      let y := readSlot w b
      let d := Calculus.binaryPartials op x y r
      let h : F × F × F :=
        if Calculus.isZero lam then
          (0, 0, 0)
        else
          let f := Calculus.binarySecond op x y r
          (lam * f.1, lam * f.2.1, lam * f.2.2)
      let ta := readSlot t a
      let tb := readSlot t b
      modifySlot
        (modifySlot acc a (· + seedMul d.1 dlam + seedMul h.1 ta + seedMul h.2.1 tb))
        b (· + seedMul d.2 dlam + seedMul h.2.1 ta + seedMul h.2.2 tb)
  | select tol cond source =>
      if Calculus.selects (readSlot w cond) tol then acc.modify source (· + dlam) else acc
  | copy source => acc.modify source (· + dlam)

/-- One cell of a second-order sweep: nonzero `k` of `node`, with its value at `dest`. -/
def secondOrder (check : Bool) (op : String) (nfwd : Nat) (node : NodeId) (k dest : Nat)
    (c : Cell F) : Run F Unit :=
  if c.isInput then
    pure ()
  else do
    Run.requireSlots [dest]
    let lams := readFirst 1 dest (← get).adj
    let dlams := readFirst nfwd dest (← get).adjFwd
    modify fun m =>
      { m with adj := clearFirst 1 dest m.adj, adjFwd := clearFirst nfwd dest m.adjFwd }
    if (lams ++ dlams).all Calculus.isZero then
      return ()
    checkAdjoints check op node k (lams ++ dlams)
    Run.requireSlots c.slots
    let lam := lams.getD 0 0
    modify fun m =>
      let w := m.values
      let r := w.getD dest 0
      let fwd := m.fwd
      { m with
        adj := updateFirst 1 (fun _ acc => c.backward w r lam acc) m.adj
        adjFwd := updateFirst nfwd
          (fun d acc => c.backwardTangent w r lam (fwd.getD d #[]) (dlams.getD d 0) acc)
          m.adjFwd }

end Cell

/-- Second-order sweep over one segment. -/
def Segment.secondOrder (check : Bool) (op : String) (nfwd : Nat) (s : Segment F) :
    Run F Unit :=
  s.numbered.forM fun (c, k) => c.secondOrder check op nfwd s.node k (s.start + k)

/--
Second-order sweep: adjoint array `0` and `nfwd` adjoint tangents. Values, tangents, the
output adjoint and zeroed adjoint tangents are in the memory.
-/
def secondOrderSweep (check : Bool) (op : String) (nfwd : Nat) (tape : List (Segment F)) :
    Run F Unit :=
  tape.reverse.forM (Segment.secondOrder check op nfwd)

namespace Tape

/-- Zero an adjoint tangent array. -/
def clearAdjointTangent (d : Nat) : Run F Unit :=
  modify fun m => { m with adjFwd := m.adjFwd.modify d fun w => w.map fun _ => 0 }

/-- Read the adjoint tangent `d` of input `i` and clear it. -/
def takeInputAdjointTangent (f : Tape F) (d i : Nat) : Run F (List F) := do
  let (start, n) ← Run.ofExcept (f.inputRange i)
  Run.requireSlots (slotsFrom start n)
  let m ← get
  let w := m.adjFwd.getD d #[]
  modify fun m => { m with adjFwd := m.adjFwd.modify d (writeAt start (List.replicate n 0)) }
  return (slotsFrom start n).map (w.getD · 0)

end Tape

end SparseDiff
