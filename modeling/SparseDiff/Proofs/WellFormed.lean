import SparseDiff.Proofs.Lowering

/-!
# Well-formed tapes

What every sweep relies on, stated on the tape alone: an operand stands before its reader,
and every index that an instruction uses lies inside the element that it reads.
`Tape.wellFormed_of_compile` derives it from the request, once.
-/

namespace SparseDiff

namespace Access

/-- Operand nonzero for result nonzero `k`; none for a structural zero. -/
def index? : Access → Nat → Option Nat
  | same, k => some k
  | mapped map, k => (map[k]?).join
  | scalar, _ => some 0
  | zero, _ => none

/-- For `n` result nonzeros the access finds nonzeros below `limit`. -/
structure Fits (a : Access) (n limit : Nat) : Prop where
  slot : ∀ k < n, ∀ start, a.slot start k = .ok ((a.index? k).map (start + ·))
  index : ∀ k < n, ∀ j, a.index? k = some j → j < limit

theorem fits_between
    {result operand : Pattern} (h : result.shape = operand.shape) :
    (between result operand).Fits result.nnz operand.nnz := by
  unfold between
  by_cases heq : result = operand
  · subst heq
    rw [if_pos rfl]
    refine ⟨fun k hk start => rfl, fun k hk j hj => ?_⟩
    have hkj : k = j := by simpa [index?] using hj
    omega
  · rw [if_neg heq]
    have hrow : result.nrow = operand.nrow := congrArg Prod.fst h
    have hlength := Pattern.length_nonzeroMap hrow
    refine ⟨fun k hk start => ?_, fun k hk j hj => ?_⟩
    · have hk' : k < (result.nonzeroMap operand).length := by omega
      simp [Access.slot, index?, hk']
    · have hget : (result.nonzeroMap operand)[k]? = some (some j) := by
        simpa [index?, Option.join_eq_some_iff] using hj
      exact Pattern.lt_of_mem_nonzeroMap hrow (List.mem_of_getElem? hget)

/-- A broadcast operand is read at its only nonzero, for any number of results. -/
theorem fits_broadcast
    (operand : Pattern) (n : Nat) :
    (broadcast operand).Fits n operand.nnz := by
  unfold broadcast
  by_cases hzero : operand.nnz = 0
  · rw [if_pos hzero]
    exact ⟨fun _ _ _ => rfl, fun _ _ _ hj => by simp [index?] at hj⟩
  · rw [if_neg hzero]
    refine ⟨fun _ _ _ => rfl, fun k hk j hj => ?_⟩
    have hj0 : 0 = j := by simpa [index?] using hj
    omega

end Access

/-- The operand of an element at `p` with `n` nonzeros: an earlier element that its access fits. -/
def Operand.Fits {F : Type}
    (elements : Array (Element F)) (p n : Nat) (a : Operand) : Prop :=
  a.position < p ∧ ∃ e, elements[a.position]? = some e ∧ a.access.Fits n e.nnz

/-- The instruction of an element at `p` with `n` nonzeros reads inside earlier elements. -/
inductive Instr.Fits {F : Type} (elements : Array (Element F)) (p n : Nat) : Instr F → Prop
  | input : Fits elements p n (.input p [])
  | constant {values : Array F} (hsize : values.size = n) :
      Fits elements p n (.constant values)
  | unary {op : UnaryOp} {a : Operand} (ha : a.Fits elements p n) :
      Fits elements p n (.unary op a)
  | binary {op : BinaryOp} {a b : Operand} (ha : a.Fits elements p n)
      (hb : b.Fits elements p n) : Fits elements p n (.binary op a b)
  | ifElse {tol : F} {cond : Operand} {branch : Nat} (hcond : cond.Fits elements p 1)
      (hbefore : branch < p) (hbranch : ∃ e, elements[branch]? = some e ∧ n ≤ e.nnz) :
      Fits elements p n (.ifElse tol cond branch)
  | gather {kind : GatherKind} {parts : List Nat} {moves : Array (Nat × Nat)}
      (hparts : ∀ q ∈ parts, q < p) (hsize : moves.size = n)
      (hmoves : ∀ k q j : Nat, moves[k]? = some (q, j) →
        q ∈ parts ∧ ∃ e, elements[q]? = some e ∧ j < e.nnz) :
      Fits elements p n (.gather kind parts moves)

namespace Instr

variable {F : Type}

def isInput : Instr F → Bool
  | input _ _ => true
  | _ => false

/-- An element reads earlier elements only. -/
theorem Fits.lt_of_mem_reads
    {elements : Array (Element F)} {p n : Nat} {instr : Instr F}
    (h : instr.Fits elements p n) {q : Nat} (hq : q ∈ instr.reads) :
    q < p := by
  cases h with
  | input => simp [reads] at hq
  | constant hsize => simp [reads] at hq
  | unary ha =>
      rw [List.mem_singleton.1 hq]
      exact ha.1
  | binary ha hb =>
      rcases List.mem_pair.1 hq with rfl | rfl
      · exact ha.1
      · exact hb.1
  | ifElse hcond hbefore hbranch =>
      rcases List.mem_pair.1 hq with rfl | rfl
      · exact hcond.1
      · exact hbefore
  | gather hparts hsize hmoves => exact hparts q hq

end Instr

namespace Tape

variable {F : Type}

/-- Everything that a sweep assumes of a tape. -/
structure WellFormed (f : Tape F) : Prop where
  fits : ∀ (p : Nat) (e : Element F), f.elements[p]? = some e → e.instr.Fits f.elements p e.nnz
  /-- The inputs are the first elements, and no other. -/
  isInput_iff : ∀ (p : Nat) (e : Element F), f.elements[p]? = some e →
    (e.instr.isInput = true ↔ p < f.nIn)
  input : ∀ (i : Nat) (p : Pattern), f.inputPatterns[i]? = some p →
    ∃ e, f.elements[i]? = some e ∧ e.nnz = p.nnz
  length_outputs : f.outputs.length = f.nOut
  output : ∀ (o q : Nat) (p : Pattern), f.outputs[o]? = some q →
    f.outputPatterns[o]? = some p → ∃ e, f.elements[q]? = some e ∧ e.nnz = p.nnz
  full : f.full = Layout.ofLengths (f.elements.toList.map span)
  compact : f.compact = Layout.reusing (f.elements.toList.map span) f.outputs

section Compiled

/-- Only symbolic nodes are lowered to inputs. -/
theorem isInput_of_lowers
    {g : Graph F} {order : List NodeId} {p : Nat} {n : Node F} {instr : Instr F}
    (h : Lowers g order p n instr) :
    instr.isInput = n.kind.isSymbolic := by
  cases h with
  | input hkind hops => rw [hkind]; rfl
  | constant hkind hops hsize => rw [hkind]; rfl
  | unary hkind hops ha hshape => rw [hkind]; rfl
  | binary hkind hops ha hb hshapea hshapeb => rw [hkind]; rfl
  | scalarMatrix hkind hops hs hm hscalar hpattern => rw [hkind]; rfl
  | matrixScalar hkind hops hm hs hscalar hpattern => rw [hkind]; rfl
  | ifElse hkind hops hc ha hscalar hpattern => rw [hkind]; rfl
  | gather hkind hlength hsize hparts hmove => rw [hkind]; rfl

variable [Zero F] [Elementary F] [ElementText F]
variable {g : Graph F} {inputs outputs order : List NodeId} {config : Config} {f : Tape F}

/-- A placed node has an element with as many nonzeros as its pattern. -/
theorem Compiled.getElem?_of_place
    (h : Compiled g inputs outputs order config f) {p : Nat} {id : NodeId} {pattern : Pattern}
    (hp : order[p]? = some id) (hn : ∃ n, g.nodes[id]? = some n ∧ n.pattern = pattern) :
    ∃ e, f.elements[p]? = some e ∧ e.nnz = pattern.nnz := by
  obtain ⟨n, hn, rfl⟩ := hn
  obtain ⟨n', instr, hn', he, -, -⟩ := h.element p id hp
  rw [hn] at hn'
  cases hn'
  exact ⟨_, he, rfl⟩

theorem Compiled.getElem?_of_placed
    (h : Compiled g inputs outputs order config f) {p : Nat} {a : NodeId} {na : Node F} {q : Nat}
    (ha : Placed g order p a na q) :
    ∃ e, f.elements[q]? = some e ∧ e.nnz = na.pattern.nnz :=
  h.getElem?_of_place ha.place ⟨na, ha.node, rfl⟩

theorem Compiled.operand_between
    (h : Compiled g inputs outputs order config f) {p : Nat} {n : Node F} {a : NodeId}
    {na : Node F} {q : Nat} (ha : Placed g order p a na q)
    (hshape : n.pattern.shape = na.pattern.shape) :
    Operand.Fits f.elements p n.pattern.nnz ⟨q, .between n.pattern na.pattern⟩ := by
  obtain ⟨e, he, hnnz⟩ := h.getElem?_of_placed ha
  refine ⟨ha.before, e, he, ?_⟩
  rw [hnnz]
  exact Access.fits_between hshape

theorem Compiled.operand_broadcast
    (h : Compiled g inputs outputs order config f) {p : Nat} {a : NodeId} {na : Node F} {q : Nat}
    (ha : Placed g order p a na q) (count : Nat) :
    Operand.Fits f.elements p count ⟨q, .broadcast na.pattern⟩ := by
  obtain ⟨e, he, hnnz⟩ := h.getElem?_of_placed ha
  refine ⟨ha.before, e, he, ?_⟩
  rw [hnnz]
  exact Access.fits_broadcast _ count

/-- A lowered instruction reads inside earlier elements. -/
theorem Compiled.fits_of_lowers
    (h : Compiled g inputs outputs order config f) {p : Nat} {n : Node F} {instr : Instr F}
    (hlowers : Lowers g order p n instr) :
    instr.Fits f.elements p n.pattern.nnz := by
  cases hlowers with
  | input hkind hops => exact .input
  | constant hkind hops hsize => exact .constant hsize
  | unary hkind hops ha hshape => exact .unary (h.operand_between ha hshape)
  | binary hkind hops ha hb hshapea hshapeb =>
      exact .binary (h.operand_between ha hshapea) (h.operand_between hb hshapeb)
  | scalarMatrix hkind hops hs hm hscalar hpattern =>
      exact .binary (h.operand_broadcast hs _)
        (h.operand_between hm (congrArg Pattern.shape hpattern))
  | matrixScalar hkind hops hm hs hscalar hpattern =>
      exact .binary (h.operand_between hm (congrArg Pattern.shape hpattern))
        (h.operand_broadcast hs _)
  | ifElse hkind hops hc ha hscalar hpattern =>
      obtain ⟨e, he, hnnz⟩ := h.getElem?_of_placed ha
      refine .ifElse (h.operand_broadcast hc 1) ha.before ⟨e, he, ?_⟩
      rw [hpattern, hnnz]
  | gather hkind hlength hsize hparts hmove =>
      refine .gather (fun q hq => ?_) (hsize.trans hlength) fun k q j hk => ?_
      · obtain ⟨a, na, ha⟩ := hparts q hq
        exact ha.before
      · have hlt : k < n.pattern.nnz := by
          have := (Array.getElem?_eq_some_iff.1 hk).1
          omega
        rw [← hlength] at hlt
        obtain ⟨a, na, q', ha, hplaced, hmem, hj, hk'⟩ :=
          hmove k _ _ (List.getElem?_eq_getElem hlt)
        rw [hk] at hk'
        cases hk'
        obtain ⟨e, he, hnnz⟩ := h.getElem?_of_placed hplaced
        exact ⟨hmem, e, he, by omega⟩

/-- The tape of a request is well formed. -/
theorem Compiled.wellFormed
    (h : Compiled g inputs outputs order config f) :
    f.WellFormed := by
  have helement : ∀ (p : Nat) (e : Element F), f.elements[p]? = some e →
      ∃ n, e.nnz = n.pattern.nnz ∧ Lowers g order p n e.instr ∧
        (n.kind.isSymbolic = true ↔ p < inputs.length) := by
    intro p e he
    have hlt : p < order.length := by
      rw [← h.size]
      exact (Array.getElem?_eq_some_iff.1 he).1
    obtain ⟨n, instr, hn, he', hlowers, hsym⟩ :=
      h.element p _ (List.getElem?_eq_getElem hlt)
    rw [he] at he'
    cases he'
    exact ⟨n, rfl, hlowers, hsym⟩
  constructor
  case fits =>
    intro p e he
    obtain ⟨n, hnnz, hlowers, -⟩ := helement p e he
    rw [hnnz]
    exact h.fits_of_lowers hlowers
  case isInput_iff =>
    intro p e he
    obtain ⟨n, -, hlowers, hsym⟩ := helement p e he
    have hnIn : f.nIn = inputs.length := h.inputPatterns.length_eq.symm
    rw [isInput_of_lowers hlowers, hsym, hnIn]
  case input =>
    intro i p hi
    obtain ⟨id, hid, hn⟩ := getElem?_of_forall₂ h.inputPatterns hi
    have hplace : order[i]? = some id := by
      obtain ⟨rest, hrest⟩ := h.ordered.declared
      rw [← hrest, List.getElem?_append_left (List.getElem?_eq_some_iff.1 hid).1, hid]
    exact h.getElem?_of_place hplace hn
  case length_outputs => exact h.placed.length_eq.symm.trans h.outputPatterns.length_eq
  case output =>
    intro o q p hq hp
    obtain ⟨id, hid, hplace⟩ := getElem?_of_forall₂ h.placed hq
    obtain ⟨id', hid', hn⟩ := getElem?_of_forall₂ h.outputPatterns hp
    rw [hid] at hid'
    cases hid'
    exact h.getElem?_of_place hplace hn
  case full => exact h.full
  case compact => exact h.compact

end Compiled

end Tape

end SparseDiff
