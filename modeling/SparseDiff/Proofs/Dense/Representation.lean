import SparseDiff.Proofs.Building
import SparseDiff.Proofs.Dense.Matrices
import SparseDiff.Proofs.Meaning
import SparseDiff.Proofs.Pattern.Filling

/-!
# Nodes and their dense matrices

Builder calls have a second reading, on dense matrices: an input or a constant is filled with
zeros, and every operation acts on whole matrices (`Graph.matrices`). The dense matrix of a
node is zero outside the pattern of the node, and at every nonzero it is what the node
computes there (`Represents`). Where all nodes of a graph are represented, the values of the
graph are the entries of the matrices (`Graph.Denotes.value_eq`).
-/

namespace SparseDiff

variable {F : Type}

/-- One scalar operand is broadcast against a matrix. -/
def NodeKind.isBroadcast : NodeKind F → Bool
  | scalarMatrix _ | matrixScalar _ => true
  | _ => false

/-- The map of the gather is given by the caller. -/
def Build.isGather : Build F → Bool
  | gather .. => true
  | _ => false

/-- The pattern that a call of a leaf names, if it names one. -/
def Build.leafPattern? : Build F → Option Pattern
  | symbol _ p | constant p _ => some p
  | _ => none

/-- Values of an input, if the node is one. -/
def inputValues? (inputs : List NodeId) (xs : List (List F)) (id : NodeId) : Option (List F) := do
  xs[← inputs.idxOf? id]?

section Dense

variable [Zero F] [Calculus F]

/-- An operation on the matrices of its operands; a broadcast has no reading here. -/
def NodeKind.matrix? (matrix : NodeId → Option (DenseMatrix F)) :
    NodeKind F → List NodeId → Option (DenseMatrix F)
  | unary op, [a] => do
      return (← matrix a).mapEntries (Calculus.unary op)
  | binary op, [a, b] => do
      (← matrix a).zipWith? (Calculus.binary op) (← matrix b)
  | ifElse tol, [c, a] => do
      let x := (← matrix c).entry 0 0
      return (← matrix a).mapEntries fun y => if Calculus.selects x tol then y else 0
  | _, _ => none

variable [OfScientific F] [Elementary F] [ElementText F]

/--
The matrix of the node that a call adds. A leaf has pattern `p` and, if it is an input, the
values `values`.
-/
def Build.matrix? (matrix : NodeId → Option (DenseMatrix F)) (p : Pattern) (values : List F) :
    Build F → Option (DenseMatrix F)
  | symbol .. | scalarSymbol _ | vectorSymbol .. | matrixSymbol .. =>
      some (.ofSparse ⟨p, values.toArray⟩)
  | constant _ values | denseConstant _ _ values => some (.ofSparse ⟨p, values⟩)
  | scalar value => some (.ofSparse ⟨p, #[value]⟩)
  | push kind operands => kind.matrix? matrix operands
  | unary op a => (NodeKind.unary op).matrix? matrix [a]
  | binary op a b => (NodeKind.binary op).matrix? matrix [a, b]
  | ifElse c a => (NodeKind.ifElse Graph.defaultTolerance).matrix? matrix [c, a]
  | ifElseWithin c a tol => (NodeKind.ifElse tol).matrix? matrix [c, a]
  | reshape a nrow ncol => do return (← matrix a).reshape nrow ncol
  | transpose a => do return (← matrix a).transpose
  | slice a rows cols => do return (← matrix a).slice rows cols
  | horzcat parts => do return .horzcat (← parts.mapM matrix)
  | vertcat parts => do return .vertcat (← parts.mapM matrix)
  | scalarMatrix .. | matrixScalar .. | gather .. => none

namespace Graph

/-- Perform one call on a graph and on the matrices of its nodes; a refused call adds nothing. -/
def buildMatrix (inputs : List NodeId) (xs : List (List F))
    (s : Graph F × (NodeId → Option (DenseMatrix F))) (call : Build F) :
    Graph F × (NodeId → Option (DenseMatrix F)) :=
  match s.1.build call with
  | .error _ => s
  | .ok (id, g) =>
      let values := (inputValues? inputs xs id).getD []
      (g, Function.update s.2 id (g.nodes[id]?.bind fun n => call.matrix? s.2 n.pattern values))

/-- Dense matrices of the nodes that the calls add, where the inputs have the values `xs`. -/
def matrices (inputs : List NodeId) (xs : List (List F)) (calls : List (Build F)) :
    NodeId → Option (DenseMatrix F) :=
  (calls.foldl (buildMatrix inputs xs) (empty, fun _ => none)).2

end Graph

end Dense

/-- Operations that are marked as keeping zeros do. -/
class Calculus.PreservesZero (F : Type) [Zero F] [Calculus F] : Prop where
  unary : ∀ op : UnaryOp, op.preservesZero = true → Calculus.unary op (0 : F) = 0
  binary : ∀ op : BinaryOp, op.preservesZero = true → Calculus.binary op (0 : F) 0 = 0

section Infer

variable {a b p : Pattern}

/-- A unary operation leaves out an entry only if its zero is zero. -/
theorem omits_of_infer_unary
    {op : UnaryOp} (ha : a.WellFormed)
    (h : inferPattern (F := F) (.unary op) [a] = .ok (some p)) :
    p.WellFormed ∧ ∀ r < p.nrow, ∀ c < p.ncol, c ∉ p.row r →
      op.preservesZero = true ∧ c ∉ a.row r := by
  simp only [inferPattern] at h
  split at h
  · next hzero =>
      cases h
      exact ⟨ha, fun r _ c _ hout => ⟨hzero, hout⟩⟩
  · obtain ⟨q, hfill, heq⟩ := map_eq_ok_iff.1 h
    cases heq
    obtain ⟨hp, hfull⟩ := Pattern.fill_eq_ok ha hfill
    exact ⟨hp, fun r hr c hc hout => absurd (hfull r hr c hc) hout⟩

/-- So does a binary operation, and both operands leave the entry out. -/
theorem omits_of_infer_binary
    {op : BinaryOp} (ha : a.WellFormed) (hb : b.WellFormed)
    (h : inferPattern (F := F) (.binary op) [a, b] = .ok (some p)) :
    p.WellFormed ∧ ∀ r < p.nrow, ∀ c < p.ncol, c ∉ p.row r →
      op.preservesZero = true ∧ c ∉ a.row r ∧ c ∉ b.row r := by
  obtain ⟨_, hsame, h⟩ := bind_eq_ok_iff.1 h
  split at h
  · next hzero =>
      obtain ⟨q, hunion, heq⟩ := map_eq_ok_iff.1 h
      cases heq
      obtain ⟨hp, hmem⟩ := Pattern.union_eq_ok ha hb (shape_eq_of_requireSameShape hsame) hunion
      refine ⟨hp, fun r _ c _ hout => ⟨hzero, ?_⟩⟩
      rwa [hmem, not_or] at hout
  · obtain ⟨q, hfill, heq⟩ := map_eq_ok_iff.1 h
    cases heq
    obtain ⟨hp, hfull⟩ := Pattern.fill_eq_ok ha hfill
    exact ⟨hp, fun r hr c hc hout => absurd (hfull r hr c hc) hout⟩

end Infer

/-- Node `a` with its matrix. -/
structure Graph.At (g : Graph F) (matrix : NodeId → Option (DenseMatrix F)) (a : NodeId)
    (n : Node F) (m : DenseMatrix F) : Prop where
  node : g.nodes[a]? = some n
  matrix : matrix a = some m

theorem Graph.At.push
    {g : Graph F} {matrix : NodeId → Option (DenseMatrix F)} {a : NodeId} {na : Node F}
    {ma : DenseMatrix F} (ha : g.At matrix a na ma) (n : Node F) (m : Option (DenseMatrix F)) :
    (g.push n).2.At (Function.update matrix g.size m) a na ma := by
  have hlt : a < g.size := (Array.getElem?_eq_some_iff.1 ha.node).1
  refine ⟨Graph.getElem?_push_nodes.2 (.inl ha.node), ?_⟩
  rw [Function.update_of_ne (Nat.ne_of_lt hlt), ha.matrix]

section Represents

variable [Zero F] [Calculus F]

/-- At every nonzero the matrix of a node is what the node computes there. -/
inductive Computes (g : Graph F) (matrix : NodeId → Option (DenseMatrix F)) (values : List F)
    (n : Node F) (m : DenseMatrix F) : Prop
  | symbolic {name : String} (hkind : n.kind = .symbolic name)
      (h : ∀ (k : Nat) r c x, n.pattern.entries[k]? = some (r, c) → values[k]? = some x →
        m.entry r c = x)
  | constant {values : Array F} (hkind : n.kind = .constant values)
      (h : ∀ (k : Nat) r c x, n.pattern.entries[k]? = some (r, c) → values[k]? = some x →
        m.entry r c = x)
  | unary {op : UnaryOp} {a : NodeId} {na : Node F} {ma : DenseMatrix F}
      (hkind : n.kind = .unary op) (hops : n.operands = [a]) (ha : g.At matrix a na ma)
      (h : ∀ r c, c ∈ n.pattern.row r → m.entry r c = Calculus.unary op (ma.entry r c))
  | binary {op : BinaryOp} {a b : NodeId} {na nb : Node F} {ma mb : DenseMatrix F}
      (hkind : n.kind = .binary op) (hops : n.operands = [a, b]) (ha : g.At matrix a na ma)
      (hb : g.At matrix b nb mb)
      (h : ∀ r c, c ∈ n.pattern.row r →
        m.entry r c = Calculus.binary op (ma.entry r c) (mb.entry r c))
  | ifElse {tol : F} {cond a : NodeId} {nc na : Node F} {mc ma : DenseMatrix F}
      (hkind : n.kind = .ifElse tol) (hops : n.operands = [cond, a])
      (hcond : g.At matrix cond nc mc) (ha : g.At matrix a na ma)
      (h : ∀ r c, c ∈ n.pattern.row r →
        m.entry r c = if Calculus.selects (mc.entry 0 0) tol then ma.entry r c else 0)
  | gather {kind : GatherKind} {map : List (Nat × Nat)} (hkind : n.kind = .gather kind map)
      (h : ∀ (k : Nat) r c d j, n.pattern.entries[k]? = some (r, c) → map[k]? = some (d, j) →
        ∃ a na ma r' c', n.operands[d]? = some a ∧ g.At matrix a na ma ∧
          na.pattern.entries[j]? = some (r', c') ∧ m.entry r c = ma.entry r' c')

/-- The matrix of a node has its shape, and is zero where the node has no nonzero. -/
structure Represents (g : Graph F) (matrix : NodeId → Option (DenseMatrix F)) (values : List F)
    (n : Node F) (m : DenseMatrix F) : Prop where
  sized : m.Sized
  shape : m.shape = n.pattern.shape
  zero : ∀ r c, c ∉ n.pattern.row r → m.entry r c = 0
  computes : Computes g matrix values n m

/-- Every node has a well-formed pattern and is represented by its matrix. -/
structure Graph.Denotes (inputs : List NodeId) (xs : List (List F)) (g : Graph F)
    (matrix : NodeId → Option (DenseMatrix F)) : Prop where
  wellFormed : ∀ n ∈ g.nodes, n.pattern.WellFormed
  represents : ∀ (id : NodeId) (n : Node F), g.nodes[id]? = some n →
    ∃ m, matrix id = some m ∧
      Represents g matrix ((inputValues? inputs xs id).getD []) n m

variable {inputs : List NodeId} {xs : List (List F)} {g : Graph F}
  {matrix : NodeId → Option (DenseMatrix F)}

namespace Graph.Denotes

theorem representsAt
    (hd : g.Denotes inputs xs matrix) {id : NodeId} {n : Node F} {m : DenseMatrix F}
    (h : g.At matrix id n m) :
    Represents g matrix ((inputValues? inputs xs id).getD []) n m := by
  obtain ⟨m', hm, hrep⟩ := hd.represents id n h.node
  rw [h.matrix] at hm
  cases hm
  exact hrep

theorem wellFormedAt
    (hd : g.Denotes inputs xs matrix) {id : NodeId} {n : Node F} {m : DenseMatrix F}
    (h : g.At matrix id n m) :
    n.pattern.WellFormed :=
  hd.wellFormed n (Array.mem_of_getElem? h.node)

/-- An entry of an operand is the entry of its matrix, a structural zero included. -/
theorem entry_eq
    (hd : g.Denotes inputs xs matrix) {value : NodeId → Nat → Option F} {a : NodeId} {na : Node F}
    {ma : DenseMatrix F} (ha : g.At matrix a na ma)
    (hvalue : ∀ (k : Nat) r c x, na.pattern.entries[k]? = some (r, c) → value a k = some x →
      ma.entry r c = x)
    {r c : Nat} {x : F} (hx : g.entry? value a r c = some x) :
    ma.entry r c = x := by
  have hwf := hd.wellFormedAt ha
  simp only [Graph.entry?, Graph.place?, ha.node, Option.map_some, Option.bind_eq_bind,
    Option.bind_some] at hx
  cases hk : na.pattern.nzIndex? r c with
  | none =>
      simp only [hk] at hx
      cases hx
      refine (hd.representsAt ha).zero r c fun hmem => ?_
      obtain ⟨k, hget⟩ := List.mem_iff_getElem?.1 (Pattern.mem_entries_iff.2 hmem)
      rw [(Pattern.nzIndex?_eq_some_iff hwf).2 hget] at hk
      cases hk
  | some k =>
      simp only [hk] at hx
      exact hvalue k r c x ((Pattern.nzIndex?_eq_some_iff hwf).1 hk) hx

/-- A value of a node is the entry of its matrix, however deep the node is evaluated. -/
theorem value_eq
    (hd : g.Denotes inputs xs matrix) :
    ∀ (depth : Nat) {id : NodeId} {n : Node F} {m : DenseMatrix F}, g.At matrix id n m →
      ∀ (k : Nat) r c x, n.pattern.entries[k]? = some (r, c) →
        g.value? inputs xs depth id k = some x → m.entry r c = x
  | 0, _, _, _, _, _, _, _, _, _, hx => by cases hx
  | depth + 1, id, n, m, hat, k, r, c, x, hk, hx => by
      have hmem : c ∈ n.pattern.row r := Pattern.mem_entries_iff.1 (List.mem_of_getElem? hk)
      have hread : ∀ {a : NodeId} {na : Node F} {ma : DenseMatrix F}, g.At matrix a na ma →
          ∀ {r c y}, g.entry? (g.value? inputs xs depth) a r c = some y → ma.entry r c = y :=
        fun ha => hd.entry_eq ha (hd.value_eq depth ha)
      cases (hd.representsAt hat).computes with
      | symbolic hkind h =>
          simp only [Graph.value?, hat.node, Option.bind_eq_bind, Option.bind_some, hkind] at hx
          obtain ⟨i, hi, hx⟩ := Option.bind_eq_some_iff.1 hx
          obtain ⟨values, hvalues, hx⟩ := Option.bind_eq_some_iff.1 hx
          refine h k r c x hk ?_
          simpa [inputValues?, hi, hvalues] using hx
      | constant hkind h =>
          simp only [Graph.value?, hat.node, Option.bind_eq_bind, Option.bind_some, hkind] at hx
          exact h k r c x hk hx
      | unary hkind hops ha h =>
          simp only [Graph.value?, hat.node, Option.bind_eq_bind, Option.bind_some, hkind, hops,
            hk] at hx
          obtain ⟨y, hy, hx⟩ := Option.bind_eq_some_iff.1 hx
          rw [h r c hmem, hread ha hy]
          exact Option.some.inj hx
      | binary hkind hops ha hb h =>
          simp only [Graph.value?, hat.node, Option.bind_eq_bind, Option.bind_some, hkind, hops,
            hk] at hx
          obtain ⟨y, hy, hx⟩ := Option.bind_eq_some_iff.1 hx
          obtain ⟨z, hz, hx⟩ := Option.bind_eq_some_iff.1 hx
          rw [h r c hmem, hread ha hy, hread hb hz]
          exact Option.some.inj hx
      | ifElse hkind hops hcond ha h =>
          simp only [Graph.value?, hat.node, Option.bind_eq_bind, Option.bind_some, hkind, hops,
            hk] at hx
          obtain ⟨y, hy, hx⟩ := Option.bind_eq_some_iff.1 hx
          obtain ⟨z, hz, hx⟩ := Option.bind_eq_some_iff.1 hx
          rw [h r c hmem, hread hcond hy, hread ha hz]
          exact Option.some.inj hx
      | gather hkind h =>
          simp only [Graph.value?, hat.node, Option.bind_eq_bind, Option.bind_some, hkind] at hx
          obtain ⟨⟨d, j⟩, hmap, hx⟩ := Option.bind_eq_some_iff.1 hx
          obtain ⟨a', ha', hx⟩ := Option.bind_eq_some_iff.1 hx
          obtain ⟨a, na, ma, r', c', hop, ha, hj, heq⟩ := h k r c d j hk hmap
          rw [hop] at ha'
          cases ha'
          rw [heq]
          exact hd.value_eq depth ha j r' c' x hj hx

/-- The values of a node, filled with zeros, are its matrix. -/
theorem filled_eq
    (hd : g.Denotes inputs xs matrix) {id : NodeId} {n : Node F} {m : DenseMatrix F}
    (hat : g.At matrix id n m) {depth : Nat} {ys : List F}
    (h : g.nonzeros? (g.value? inputs xs depth) id = some ys) :
    .ofSparse ⟨n.pattern, ys.toArray⟩ = m := by
  have hrep := hd.representsAt hat
  obtain ⟨hsized, hshape, hstored, hzero⟩ := DenseMatrix.ofSparse_spec (hd.wellFormedAt hat)
    ys.toArray
  simp only [Graph.nonzeros?, hat.node, Option.bind_eq_bind, Option.bind_some] at h
  obtain ⟨-, hvalues⟩ := getElem?_of_mapM_eq_some h
  refine DenseMatrix.ext_entry hsized hrep.sized (hshape.trans hrep.shape.symm)
    fun r _ c _ => ?_
  by_cases hmem : c ∈ n.pattern.row r
  · obtain ⟨k, hk⟩ := List.mem_iff_getElem?.1 (Pattern.mem_entries_iff.2 hmem)
    have hlt : k < n.pattern.nnz := by
      simpa using (List.getElem?_eq_some_iff.1 hk).1
    obtain ⟨y, hy, hvalue⟩ := hvalues k k (by simp [hlt])
    rw [hstored k r c y hk (by simpa using hy), hd.value_eq depth hat k r c y hk hvalue]
  · rw [hzero r c hmem, hrep.zero r c hmem]

end Graph.Denotes

/-- What a node computes does not depend on the nodes behind it. -/
theorem Represents.push
    {values : List F} {n : Node F} {m : DenseMatrix F} (h : Represents g matrix values n m)
    (n' : Node F) (m' : Option (DenseMatrix F)) :
    Represents (g.push n').2 (Function.update matrix g.size m') values n m := by
  refine ⟨h.sized, h.shape, h.zero, ?_⟩
  cases h.computes with
  | symbolic hkind h => exact .symbolic hkind h
  | constant hkind h => exact .constant hkind h
  | unary hkind hops ha h => exact .unary hkind hops (ha.push n' m') h
  | binary hkind hops ha hb h => exact .binary hkind hops (ha.push n' m') (hb.push n' m') h
  | ifElse hkind hops hcond ha h =>
      exact .ifElse hkind hops (hcond.push n' m') (ha.push n' m') h
  | gather hkind h =>
      refine .gather hkind fun k r c d j hk hmap => ?_
      obtain ⟨a, na, ma, r', c', hop, ha, hrest⟩ := h k r c d j hk hmap
      exact ⟨a, na, ma, r', c', hop, ha.push n' m', hrest⟩

/-- A represented node may be added. -/
theorem Graph.Denotes.push
    (hd : g.Denotes inputs xs matrix) {n : Node F} {m : DenseMatrix F}
    (hn : n.pattern.WellFormed)
    (hm : Represents g matrix ((inputValues? inputs xs g.size).getD []) n m) :
    (g.push n).2.Denotes inputs xs (Function.update matrix g.size (some m)) := by
  constructor
  · intro n' hn'
    rcases Array.mem_push.1 hn' with hold | rfl
    · exact hd.wellFormed n' hold
    · exact hn
  · intro id n' hn'
    rcases Graph.getElem?_push_nodes.1 hn' with hold | ⟨rfl, rfl⟩
    · obtain ⟨m', hm', hrep⟩ := hd.represents id n' hold
      exact ⟨m', ((Graph.At.mk hold hm').push n (some m)).matrix, hrep.push n (some m)⟩
    · exact ⟨m, Function.update_self .., hm.push n (some m)⟩

/-- A leaf is filled with zeros. -/
theorem represents_symbol
    {p : Pattern} (hp : p.WellFormed) (values : List F) (name : String) :
    Represents g matrix values ⟨.symbolic name, [], p⟩ (.ofSparse ⟨p, values.toArray⟩) := by
  obtain ⟨hsized, hshape, hstored, hzero⟩ := DenseMatrix.ofSparse_spec hp values.toArray
  exact ⟨hsized, hshape, hzero,
    .symbolic rfl fun k r c x hk hx => hstored k r c x hk (by simpa using hx)⟩

theorem represents_constant
    {p : Pattern} (hp : p.WellFormed) (values : Array F) (given : List F) :
    Represents g matrix given ⟨.constant values, [], p⟩ (.ofSparse ⟨p, values⟩) := by
  obtain ⟨hsized, hshape, hstored, hzero⟩ := DenseMatrix.ofSparse_spec hp values
  exact ⟨hsized, hshape, hzero, .constant rfl hstored⟩

theorem Graph.Denotes.exists_at
    (hd : g.Denotes inputs xs matrix) {a : NodeId} {p : Pattern} (h : g.pattern a = .ok p) :
    ∃ n m, g.At matrix a n m ∧ n.pattern = p := by
  obtain ⟨n, hn, hp⟩ := pattern_eq_ok_iff.1 h
  obtain ⟨m, hm, -⟩ := hd.represents a n hn
  exact ⟨n, m, ⟨hn, hm⟩, hp⟩

theorem represents_unary
    [Calculus.PreservesZero F] (hd : g.Denotes inputs xs matrix) {a : NodeId} {na : Node F}
    {ma : DenseMatrix F} (ha : g.At matrix a na ma) {op : UnaryOp} {p : Pattern}
    (h : inferPattern (F := F) (.unary op) [na.pattern] = .ok (some p)) (values : List F) :
    p.WellFormed ∧ Represents g matrix values ⟨.unary op, [a], p⟩
      (ma.mapEntries (Calculus.unary op)) := by
  have hrep := hd.representsAt ha
  obtain ⟨hp, homits⟩ := omits_of_infer_unary (hd.wellFormedAt ha) h
  have hshape : ma.shape = p.shape := hrep.shape.trans (shape_of_infer_unary h).symm
  obtain ⟨hsized, hshape', hzero, hentry⟩ := DenseMatrix.tabulate_spec hp hshape
    (f := fun r c => Calculus.unary op (ma.entry r c)) fun r hr c hc hout => by
      obtain ⟨hflag, hout⟩ := homits r hr c hc hout
      rw [hrep.zero r c hout, Calculus.PreservesZero.unary op hflag]
  exact ⟨hp, hsized, hshape', hzero, .unary rfl rfl ha hentry⟩

theorem represents_binary
    [Calculus.PreservesZero F] (hd : g.Denotes inputs xs matrix) {a b : NodeId} {na nb : Node F}
    {ma mb : DenseMatrix F} (ha : g.At matrix a na ma) (hb : g.At matrix b nb mb) {op : BinaryOp}
    {p : Pattern}
    (h : inferPattern (F := F) (.binary op) [na.pattern, nb.pattern] = .ok (some p))
    (values : List F) :
    ∃ m, ma.zipWith? (Calculus.binary op) mb = some m ∧ p.WellFormed ∧
      Represents g matrix values ⟨.binary op, [a, b], p⟩ m := by
  have hrepa := hd.representsAt ha
  have hrepb := hd.representsAt hb
  obtain ⟨hshapea, hshapeb⟩ := shape_of_infer_binary h
  obtain ⟨hp, homits⟩ := omits_of_infer_binary (hd.wellFormedAt ha) (hd.wellFormedAt hb) h
  have hshape : ma.shape = p.shape := hrepa.shape.trans hshapea.symm
  have hsame : ma.shape = mb.shape := hshape.trans (hrepb.shape.trans hshapeb.symm).symm
  obtain ⟨hsized, hshape', hzero, hentry⟩ := DenseMatrix.tabulate_spec hp hshape
    (f := fun r c => Calculus.binary op (ma.entry r c) (mb.entry r c)) fun r hr c hc hout => by
      obtain ⟨hflag, houta, houtb⟩ := homits r hr c hc hout
      rw [hrepa.zero r c houta, hrepb.zero r c houtb, Calculus.PreservesZero.binary op hflag]
  exact ⟨_, if_pos hsame, hp, hsized, hshape', hzero, .binary rfl rfl ha hb hentry⟩

theorem represents_ifElse
    (hd : g.Denotes inputs xs matrix) {cond a : NodeId} {nc na : Node F} {mc ma : DenseMatrix F}
    (hcond : g.At matrix cond nc mc) (ha : g.At matrix a na ma) (tol : F) (values : List F) :
    Represents g matrix values ⟨.ifElse tol, [cond, a], na.pattern⟩
      (ma.mapEntries fun y => if Calculus.selects (mc.entry 0 0) tol then y else 0) := by
  have hrep := hd.representsAt ha
  obtain ⟨hsized, hshape', hzero, hentry⟩ := DenseMatrix.tabulate_spec (hd.wellFormedAt ha)
    hrep.shape (f := fun r c => if Calculus.selects (mc.entry 0 0) tol then ma.entry r c else 0)
    fun r hr c hc hout => by
      rw [hrep.zero r c hout, ite_self]
  exact ⟨hsized, hshape', hzero, .ifElse rfl rfl hcond ha hentry⟩

/-- An accepted operation without broadcast is represented by the operation on matrices. -/
theorem represents_of_pushNode
    [Calculus.PreservesZero F] (hd : g.Denotes inputs xs matrix) {kind : NodeKind F}
    {operands : List NodeId} {id : NodeId} {g' : Graph F}
    (h : g.pushNode kind operands = .ok (id, g')) (hkind : kind.isBroadcast = false)
    (values : List F) :
    ∃ p m, (id, g') = g.push ⟨kind, operands, p⟩ ∧ kind.matrix? matrix operands = some m ∧
      p.WellFormed ∧ Represents g matrix values ⟨kind, operands, p⟩ m := by
  obtain ⟨patterns, p, hpatterns, hinfer, heq⟩ := Graph.pushNode_eq_ok h
  have harity := arity_of_infer hinfer
  have hoperands := mapM_eq_ok_iff.1 hpatterns
  refine ⟨p, ?_⟩
  cases kind with
  | symbolic name => cases hinfer
  | constant values => cases hinfer
  | gather kind map => cases hinfer
  | scalarMatrix op => cases hkind
  | matrixScalar op => cases hkind
  | unary op =>
      obtain ⟨pa, rfl⟩ := List.length_eq_one_iff.1 (Option.some.inj harity).symm
      obtain ⟨a, operands, hpa, hnil, rfl⟩ := List.forall₂_cons_right_iff.1 hoperands
      cases hnil
      obtain ⟨na, ma, ha, rfl⟩ := hd.exists_at hpa
      obtain ⟨hp, hrep⟩ := represents_unary hd ha hinfer values
      refine ⟨_, heq, ?_, hp, hrep⟩
      simp [NodeKind.matrix?, ha.matrix]
  | binary op =>
      obtain ⟨pa, pb, rfl⟩ := List.length_eq_two.1 (Option.some.inj harity).symm
      obtain ⟨a, operands, hpa, hrest, rfl⟩ := List.forall₂_cons_right_iff.1 hoperands
      obtain ⟨b, operands, hpb, hnil, rfl⟩ := List.forall₂_cons_right_iff.1 hrest
      cases hnil
      obtain ⟨na, ma, ha, rfl⟩ := hd.exists_at hpa
      obtain ⟨nb, mb, hb, rfl⟩ := hd.exists_at hpb
      obtain ⟨m, hm, hp, hrep⟩ := represents_binary hd ha hb hinfer values
      refine ⟨m, heq, ?_, hp, hrep⟩
      simp [NodeKind.matrix?, ha.matrix, hb.matrix, hm]
  | ifElse tol =>
      obtain ⟨pc, pa, rfl⟩ := List.length_eq_two.1 (Option.some.inj harity).symm
      obtain ⟨cond, operands, hpc, hrest, rfl⟩ := List.forall₂_cons_right_iff.1 hoperands
      obtain ⟨a, operands, hpa, hnil, rfl⟩ := List.forall₂_cons_right_iff.1 hrest
      cases hnil
      obtain ⟨nc, mc, hc, rfl⟩ := hd.exists_at hpc
      obtain ⟨na, ma, ha, rfl⟩ := hd.exists_at hpa
      obtain ⟨-, rfl⟩ := of_infer_ifElse hinfer
      refine ⟨_, heq, ?_, hd.wellFormedAt ha, represents_ifElse hd hc ha tol values⟩
      simp [NodeKind.matrix?, hc.matrix, ha.matrix]

/-- The operands of a movement, with their patterns and their matrices. -/
structure Graph.Parts (g : Graph F) (matrix : NodeId → Option (DenseMatrix F))
    (operands : List NodeId) (patterns : List Pattern) (parts : List (DenseMatrix F)) : Prop where
  matrices : operands.mapM matrix = some parts
  shapes : parts.map DenseMatrix.shape = patterns.map Pattern.shape
  part : ∀ (d : Nat) ma, parts[d]? = some ma → ∃ a na, operands[d]? = some a ∧
    g.At matrix a na ma ∧ patterns[d]? = some na.pattern

theorem Graph.Denotes.exists_parts
    (hd : g.Denotes inputs xs matrix) {operands : List NodeId} {patterns : List Pattern}
    (h : operands.mapM g.pattern = .ok patterns) :
    (∀ p ∈ patterns, p.WellFormed) ∧ ∃ parts, g.Parts matrix operands patterns parts := by
  have hoperands := mapM_eq_ok_iff.1 h
  clear h
  induction hoperands with
  | nil => exact ⟨by simp, [], rfl, rfl, by simp⟩
  | @cons a p operands patterns hp _ ih =>
      obtain ⟨hwf, parts, hparts⟩ := ih
      obtain ⟨na, ma, ha, rfl⟩ := hd.exists_at hp
      refine ⟨List.forall_mem_cons.2 ⟨hd.wellFormedAt ha, hwf⟩, ma :: parts, ?_, ?_, fun d => ?_⟩
      · simp [ha.matrix, hparts.matrices]
      · rw [List.map_cons, List.map_cons, (hd.representsAt ha).shape, hparts.shapes]
      · cases d with
        | zero =>
            intro ma' hma
            cases hma
            exact ⟨a, na, rfl, ha, rfl⟩
        | succ d => exact hparts.part d

/-- Matrices are rearranged as their patterns are. -/
theorem represents_gather
    (hd : g.Denotes inputs xs matrix) {operands : List NodeId} {patterns : List Pattern}
    {parts : List (DenseMatrix F)} (hparts : g.Parts matrix operands patterns parts)
    {q : Pattern} {map : List (Nat × Nat)} {origin : Origin}
    (h : Pattern.Arranges patterns q map origin) {nrow ncol : Nat} (hshape : q.shape = (nrow, ncol))
    (kind : GatherKind) (values : List F) :
    Represents g matrix values ⟨.gather kind map, operands, q⟩
      (.arranged nrow ncol origin parts) := by
  obtain ⟨hsized, hshape', hzero, hentry⟩ := DenseMatrix.tabulate_spec h.wellFormed hshape.symm
    (f := fun r c => (parts[(origin r c).1]?.map fun m =>
      m.entry (origin r c).2.1 (origin r c).2.2).getD 0) fun r hr c hc hout => by
      cases hpart : parts[(origin r c).1]? with
      | none => rfl
      | some ma =>
          obtain ⟨a, na, -, ha, hpattern⟩ := hparts.part _ ma hpart
          refine (hd.representsAt ha).zero _ _ fun hmem => hout ?_
          -- a nonzero of the part would have moved here
          obtain ⟨j, hj⟩ := List.mem_iff_getElem?.1 (Pattern.mem_entries_iff.2 hmem)
          have hmoved := (h.moved r hr c hc _ j).2 ⟨rfl, na.pattern, hpattern, hj⟩
          exact Pattern.mem_entries_iff.1 (List.of_mem_zip hmoved).1
  refine ⟨hsized, hshape', hzero, .gather rfl fun k r c d j hk hmap => ?_⟩
  have hmem : c ∈ q.row r := Pattern.mem_entries_iff.1 (List.mem_of_getElem? hk)
  obtain ⟨rfl, p, hp, hj⟩ := (h.moved r (Pattern.lt_nrow_of_mem_row hmem) c
    (h.wellFormed.lt_ncol hmem) d j).1 (Pattern.mem_zip_iff.2 ⟨k, hk, hmap⟩)
  have hlength : parts.length = patterns.length := by
    simpa using congrArg List.length hparts.shapes
  have hlt : (origin r c).1 < parts.length := hlength ▸ (List.getElem?_eq_some_iff.1 hp).1
  obtain ⟨a, na, hop, ha, hpattern⟩ := hparts.part _ _ (List.getElem?_eq_getElem hlt)
  rw [hp] at hpattern
  cases hpattern
  refine ⟨a, na, _, (origin r c).2.1, (origin r c).2.2, hop, ha, hj, ?_⟩
  have := hentry r c hmem
  rw [List.getElem?_eq_getElem hlt] at this
  exact this

end Represents

end SparseDiff
