import SparseDiff.Proofs.Evaluate
import SparseDiff.Source.Execution

/-!
# Exported statements

A statement writes what its cell is worth (`Cell.run_statement`): in both languages an operation
is written as what it computes, and a conditional as the choice that the cell makes. The numbers
that are read must be no NaN, since the sign of one is written as zero. The statement of an
output copies its slots to the front of a buffer (`Machine.store_slotsFrom`).
-/

namespace SparseDiff

variable {F : Type}

/-- Zero is finite, and so is no NaN. -/
class Elementary.FiniteNumbers (F : Type) [Zero F] [Elementary F] : Prop where
  isFinite_zero : Elementary.isFinite (0 : F) = true
  isNaN_of_isFinite : ∀ x : F, Elementary.isFinite x = true → Elementary.isNaN x = false

theorem Arith.eval_of_arith?
    [Zero F] [One F] [Add F] [Sub F] [Neg F] [Mul F] [Div F] [Elementary F] {op : BinaryOp}
    {s : Arith} (h : op.arith? = some s) (x y : F) :
    s.eval x y = op.eval x y := by
  cases op <;> cases h <;> rfl

section Expressions

variable {α : Type} [Zero F] [One F] [Add F] [Sub F] [Neg F] [Mul F] [Div F] [Elementary F]
variable {read : α → Except Failure F} {a b : α} {x y : F}

theorem Expr.value_choose
    {cond : Condition α} {passes : Bool} (h : cond.outcome read = .ok passes)
    (yes no : Expr α) :
    (choose cond yes no).value read = if passes then yes.value read else no.value read := by
  rw [value, h]
  rfl

/-- In both languages an operation on a number is written as what it computes. -/
theorem UnaryOp.value_expr
    (op : UnaryOp) (t : Target) (ha : read a = .ok x) (hx : Elementary.isNaN x = false) :
    (op.expr t a).value read = .ok (op.eval x) := by
  cases op with
  | sign =>
      have hpositive : (Condition.positive a).outcome read = .ok (Elementary.lt 0 x) := by
        rw [Condition.outcome, ha]
        rfl
      have hnegative : (Condition.negative a).outcome read = .ok (Elementary.lt x 0) := by
        rw [Condition.outcome, ha]
        rfl
      rw [expr, Expr.value_choose hpositive, Expr.value_choose hnegative, eval, SparseDiff.sign, hx]
      cases Elementary.lt 0 x <;> cases Elementary.lt x 0 <;> rfl
  | recip => cases t <;> simp only [expr, Expr.value, ha] <;> rfl
  | _ =>
      simp only [expr, Expr.value, ha]
      rfl

theorem BinaryOp.value_expr
    (op : BinaryOp) (t : Target) (ha : read a = .ok x) (hb : read b = .ok y) :
    (op.expr t a b).value read = .ok (op.eval x y) := by
  have hcalled : (Expr.call₂ op (.leaf a) (.leaf b)).value read = .ok (op.eval x y) := by
    simp only [Expr.value, ha, hb]
    rfl
  have hsigned : ∀ s, op.arith? = some s →
      (Expr.arith s (.leaf a) (.leaf b)).value read = .ok (op.eval x y) := by
    intro s hs
    rw [← Arith.eval_of_arith? hs]
    simp only [Expr.value, ha, hb]
    rfl
  cases op with
  | add | sub | mul | div => exact hsigned _ rfl
  | pow | atan2 => exact hcalled
  | min =>
      have hatMost : (Condition.atMost a b).outcome read = .ok (Elementary.le x y) := by
        rw [Condition.outcome, ha, hb]
        rfl
      cases t with
      | c => exact hcalled
      | rust =>
          refine (Expr.value_choose hatMost _ _).trans ?_
          rw [Expr.value, Expr.value, ha, hb, eval]
          split <;> rfl
  | max =>
      have hatLeast : (Condition.atLeast a b).outcome read = .ok (Elementary.le y x) := by
        rw [Condition.outcome, ha, hb]
        rfl
      cases t with
      | c => exact hcalled
      | rust =>
          refine (Expr.value_choose hatLeast _ _).trans ?_
          rw [Expr.value, Expr.value, ha, hb, eval]
          split <;> rfl

end Expressions

section Cells

variable [Zero F] {w : Array F}

theorem inBounds_slot
    {s : Nat} (hs : s < w.size) :
    inBounds w[s]? = .ok (w.getD s 0) := by
  simp [inBounds, hs]

theorem Leaf.read_ofSlot
    {a : Option Nat} (ha : ∀ s ∈ a.toList, s < w.size) :
    (Leaf.ofSlot a).read w = .ok (readSlot w a) := by
  cases a with
  | none => rfl
  | some s => exact inBounds_slot (ha s (by simp))

variable [One F] [Add F] [Sub F] [Neg F] [Mul F] [Div F] [Elementary F]

theorem run_assign
    {t : Target} {arg : List (List F)} {m : Machine F} {dest : Nat} (hdest : dest < m.work.size)
    {e : Expr (Leaf F)} {x : F} (he : e.value (Leaf.read m.work) = .ok x) :
    (Statement.assign dest e).run t arg m =
      .ok { m with work := m.work.setIfInBounds dest x } := by
  rw [Statement.run, he]
  exact if_pos hdest

/-- A statement writes the value of its cell, if the numbers that it reads are there. -/
theorem Cell.run_statement
    [Elementary.FiniteNumbers F] (t : Target) {c : Cell F} {arg : List (List F)} {m : Machine F}
    {dest : Nat} (hdest : dest < m.work.size) (hslots : ∀ s ∈ c.slots, s < m.work.size)
    (hfinite : ∀ s ∈ c.slots, Elementary.isFinite (m.work.getD s 0) = true)
    (hinput : ∀ i k, c = .input i k → ∃ xs, arg[i]? = some xs ∧ k < xs.length) :
    (c.statement t dest).run t arg m =
      .ok { m with
        work := m.work.setIfInBounds dest
          (c.eval (Tape.seedAt (arg.map List.toArray)) m.work) } := by
  cases c with
  | input i k =>
      obtain ⟨xs, hxs, hk⟩ := hinput i k rfl
      have hentry : inBounds xs[k]? = .ok (xs.getD k 0) := by
        simp [inBounds, hk]
      rw [statement, Statement.run, hxs, eval, Tape.getD_seedAt hxs]
      change (inBounds xs[k]? >>= fun x => m.setSlot dest x) = _
      rw [hentry]
      exact if_pos hdest
  | constant v => exact run_assign hdest rfl
  | unary op a =>
      have hread := Leaf.read_ofSlot hslots
      refine run_assign hdest (op.value_expr t hread ?_)
      cases a with
      | none =>
          exact Elementary.FiniteNumbers.isNaN_of_isFinite _ Elementary.FiniteNumbers.isFinite_zero
      | some s => exact Elementary.FiniteNumbers.isNaN_of_isFinite _ (hfinite s (by simp [slots]))
  | binary op a b =>
      exact run_assign hdest (op.value_expr t
        (Leaf.read_ofSlot fun s hs => hslots s (List.mem_append_left _ hs))
        (Leaf.read_ofSlot fun s hs => hslots s (List.mem_append_right _ hs)))
  | select tol cond source =>
      have hcond := Leaf.read_ofSlot fun s hs => hslots s (List.mem_append_left [source] hs)
      have hsource := inBounds_slot (hslots source (by simp [slots]))
      have hwithin : (Condition.within (.ofSlot cond) (.literal tol)).outcome (Leaf.read m.work) =
          .ok (Calculus.selects (readSlot m.work cond) tol) := by
        rw [Condition.outcome, hcond]
        rfl
      refine run_assign hdest ((Expr.value_choose hwithin _ _).trans ?_)
      simp only [Expr.value, Leaf.read, hsource, eval, Cell.value]
      split <;> rfl
  | copy source => exact run_assign hdest (inBounds_slot (hslots source (by simp [slots])))

end Cells

section Stores

/--
An output pointer for a pattern: a buffer with room for the nonzeros or, in C only, a null
pointer.
-/
inductive Receives (t : Target) (p : Pattern) : Option (Array F) → Prop where
  | null (h : t = .c) : Receives t p none
  | buffer {b : Array F} (h : p.nnz ≤ b.size) : Receives t p (some b)

/--
What an exported program makes of an output pointer, for an output with the nonzeros `ys`: a
null pointer stays, and nonzero `k` goes to position `k` of a buffer.
-/
inductive HandedOut (ys : List F) : Option (Array F) → Option (Array F) → Prop where
  | null : HandedOut ys none none
  | buffer {b b' : Array F} (size : b'.size = b.size)
      (nonzeros : ∀ k < ys.length, b'[k]? = ys[k]?) : HandedOut ys (some b) (some b')

theorem slotsFrom_succ
    (start n : Nat) :
    slotsFrom start (n + 1) = slotsFrom start n ++ [start + n] := by
  simp [slotsFrom, List.range_succ]

theorem Machine.setResult_eq
    {m : Machine F} {o k : Nat} {b : Array F} (ho : m.results[o]? = some (some b))
    (hk : k < b.size) (x : F) :
    m.setResult o k x =
      .ok { m with results := m.results.set o (some (b.setIfInBounds k x)) } := by
  rw [setResult, ho]
  exact if_pos hk

variable [Zero F]

/-- Slots that are there are copied to the front of a buffer that has room for them. -/
theorem Machine.store_slotsFrom
    {m : Machine F} {o : Nat} {b : Array F} (ho : m.results[o]? = some (some b)) {start n : Nat}
    (hslots : start + n ≤ m.work.size) (hroom : n ≤ b.size) :
    m.store o (slotsFrom start n) =
      .ok { m with
        results := m.results.set o
          (some (writeAt 0 ((slotsFrom start n).map (m.work.getD · 0)) b)) } := by
  obtain ⟨hlt, hget⟩ := List.getElem?_eq_some_iff.1 ho
  induction n with
  | zero =>
      have hsame : m.results.set o (some b) = m.results := by
        rw [← hget, List.set_getElem_self]
      change Except.ok m = .ok { m with results := m.results.set o (some b) }
      rw [hsame]
  | succ n ih =>
      have hfirst := ih (by omega) (by omega)
      have hslot : inBounds m.work[start + n]? = .ok (m.work.getD (start + n) 0) :=
        inBounds_slot (by omega)
      have hlength : (slotsFrom start n).length = n := by simp [slotsFrom]
      rw [Machine.store] at hfirst
      rw [slotsFrom_succ, List.map_append, List.map_singleton, writeAt_concat, Machine.store,
        List.zipIdx_append, List.foldlM_append, hfirst, List.length_map, hlength, Nat.zero_add]
      -- the last slot goes to the buffer that the others have gone to
      change (inBounds m.work[start + n]? >>= _) >>= _ = _
      rw [hslot]
      refine (bind_pure _).trans ((Machine.setResult_eq (List.getElem?_set_self hlt) ?_ _).trans ?_)
      · rw [size_writeAt]
        exact hroom
      · rw [List.set_set]

/-- Nonzeros that fit the pattern are handed out. -/
theorem Receives.handedOut
    {t : Target} {p : Pattern} {b : Option (Array F)} (h : Receives t p b) {ys : List F}
    (hys : ys.length = p.nnz) :
    HandedOut ys b (b.map (writeAt 0 ys)) := by
  cases h with
  | null => exact .null
  | @buffer a hroom =>
      have hwritten := written_writeAt ys (by omega : 0 + ys.length ≤ a.size)
      refine .buffer (size_writeAt 0 ys a) fun k hk => ?_
      have hk' : k < (writeAt 0 ys a).size := by
        rw [size_writeAt]
        omega
      have hvalue := hwritten.inside k hk
      rw [Nat.zero_add, Array.getD_eq_getD_getElem?, Array.getElem?_eq_getElem hk',
        List.getD_eq_getElem?_getD, List.getElem?_eq_getElem hk] at hvalue
      rw [Array.getElem?_eq_getElem hk', List.getElem?_eq_getElem hk]
      exact congrArg some hvalue

end Stores

end SparseDiff
