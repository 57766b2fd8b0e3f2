import SparseDiff.Graph.Build
import SparseDiff.Proofs.Order
import SparseDiff.Proofs.Pattern.Numbering

/-!
# From nodes to instructions

What compilation makes of every node. `Lowers` lists the cases: the instruction of an element
names its operands by the positions of their nodes, which are smaller, and finds their
nonzeros by comparing patterns. `Tape.lowers_of_compile` says that every element of a compiled
tape arises in one of these ways, with all that the checks have established on the way.
-/

namespace SparseDiff

section Inference

theorem shape_of_dense
    {nrow ncol : Nat} {p : Pattern} (h : Pattern.dense nrow ncol = .ok p) :
    p.shape = (nrow, ncol) := by
  unfold Pattern.dense at h
  obtain ⟨_, _, h⟩ := bind_eq_ok_iff.1 h
  obtain ⟨_, _, h⟩ := bind_eq_ok_iff.1 h
  rw [← Except.ok.inj h]
  simp [Pattern.shape, Pattern.nrow]

/-- Filling a pattern keeps its shape. -/
theorem shape_of_fill
    {p q : Pattern} (h : fill p = .ok q) :
    q.shape = p.shape := by
  unfold fill at h
  split at h
  · rw [← Except.ok.inj h]
  · exact shape_of_dense h

/-- A union has the shape of its parts. -/
theorem shape_of_union
    {p q u : Pattern} (hshape : p.shape = q.shape) (h : p.union q = .ok u) :
    u.shape = p.shape := by
  unfold Pattern.union at h
  obtain ⟨_, _, h⟩ := bind_eq_ok_iff.1 h
  have hrow : p.rows.size = q.rows.size := congrArg Prod.fst hshape
  rw [← Except.ok.inj h]
  simp [Pattern.shape, Pattern.nrow, hrow]

theorem shape_eq_of_requireSameShape
    {kind : String} {p q : Pattern} (h : requireSameShape kind p q = .ok ()) :
    p.shape = q.shape := by
  unfold requireSameShape at h
  split at h
  · assumption
  · cases h

theorem isScalar_of_requireScalar
    {kind : String} {p : Pattern} (h : requireScalar kind p = .ok ()) :
    p.isScalar = true := by
  unfold requireScalar at h
  split at h
  · assumption
  · cases h

/-- A check that asks for a scalar and passes on the pattern of the other operand. -/
theorem of_requireScalar_bind
    {kind : String} {s m p : Pattern}
    (h : (requireScalar kind s >>= fun _ => pure (some m)) = .ok (some p)) :
    s.isScalar = true ∧ p = m := by
  obtain ⟨_, hs, h⟩ := bind_eq_ok_iff.1 h
  have hp : m = p := by simpa [pure, Except.pure] using h
  exact ⟨isScalar_of_requireScalar hs, hp.symm⟩

variable {F : Type}

theorem shape_of_infer_unary
    {op : UnaryOp} {a p : Pattern}
    (h : inferPattern (F := F) (.unary op) [a] = .ok (some p)) :
    p.shape = a.shape := by
  simp only [inferPattern] at h
  split at h
  · cases h
    rfl
  · obtain ⟨q, hfill, heq⟩ := map_eq_ok_iff.1 h
    cases heq
    exact shape_of_fill hfill

theorem shape_of_infer_binary
    {op : BinaryOp} {a b p : Pattern}
    (h : inferPattern (F := F) (.binary op) [a, b] = .ok (some p)) :
    p.shape = a.shape ∧ p.shape = b.shape := by
  simp only [inferPattern] at h
  obtain ⟨_, hsame, h⟩ := bind_eq_ok_iff.1 h
  have hshape := shape_eq_of_requireSameShape hsame
  have hp : p.shape = a.shape := by
    split at h
    · obtain ⟨q, hunion, heq⟩ := map_eq_ok_iff.1 h
      cases heq
      exact shape_of_union hshape hunion
    · obtain ⟨q, hfill, heq⟩ := map_eq_ok_iff.1 h
      cases heq
      exact shape_of_fill hfill
  exact ⟨hp, hp.trans hshape⟩

theorem of_infer_scalarMatrix
    {op : BinaryOp} {s m p : Pattern}
    (h : inferPattern (F := F) (.scalarMatrix op) [s, m] = .ok (some p)) :
    s.isScalar = true ∧ p = m :=
  of_requireScalar_bind h

theorem of_infer_matrixScalar
    {op : BinaryOp} {m s p : Pattern}
    (h : inferPattern (F := F) (.matrixScalar op) [m, s] = .ok (some p)) :
    s.isScalar = true ∧ p = m :=
  of_requireScalar_bind h

theorem of_infer_ifElse
    {tol : F} {c a p : Pattern}
    (h : inferPattern (.ifElse tol) [c, a] = .ok (some p)) :
    c.isScalar = true ∧ p = a :=
  of_requireScalar_bind h

end Inference

namespace Graph

variable {F : Type}

theorem node_eq_ok_iff
    {g : Graph F} {id : NodeId} {n : Node F} :
    g.node id = .ok n ↔ g.nodes[id]? = some n := by
  unfold node
  cases h : g.nodes[id]? with
  | none => simp
  | some n' => simp

theorem pattern_eq_ok_iff
    {g : Graph F} {id : NodeId} {p : Pattern} :
    g.pattern id = .ok p ↔ ∃ n, g.nodes[id]? = some n ∧ n.pattern = p := by
  unfold pattern node
  cases h : g.nodes[id]? with
  | none => simp [Except.map]
  | some n => simp [Except.map]

/-- Every entry of a checked map names an operand and one of its nonzeros. -/
theorem mem_of_checkMoves
    {id : NodeId} {operands : List Pattern} :
    ∀ {moves : List (Nat × Nat)}, checkMoves id operands moves = .ok () →
      ∀ move ∈ moves, ∃ p, operands[move.1]? = some p ∧ move.2 < p.nnz
  | [], _ => by simp
  | (d, k) :: moves, h => by
      unfold checkMoves at h
      cases hd : operands[d]? with
      | none => simp [hd] at h
      | some p =>
          by_cases hk : p.nnz ≤ k
          · simp [hd, hk] at h
          · have hrest : checkMoves id operands moves = .ok () := by simpa [hd, hk] using h
            intro move hmove
            rcases List.mem_cons.1 hmove with rfl | hmove
            · exact ⟨p, hd, by omega⟩
            · exact mem_of_checkMoves hrest move hmove

theorem length_of_checkArity
    {kind : NodeKind F} {len k : Nat} (h : kind.checkArity len = .ok ())
    (hk : kind.arity? = some k) :
    len = k := by
  unfold NodeKind.checkArity at h
  simp only [hk] at h
  split at h
  · next hlen => exact hlen.symm
  · cases h

/-- A node that passes the check of its pattern stores the inferred one. -/
theorem infer_of_checkInferred
    {id : NodeId} {n : Node F} {patterns : List Pattern}
    (h : checkInferred id n patterns = .ok ()) :
    inferPattern n.kind patterns = .ok (some n.pattern) := by
  unfold checkInferred at h
  obtain ⟨inferred, hinferred, h⟩ := bind_eq_ok_iff.1 h
  by_cases hne : inferred = some n.pattern
  · rw [hinferred, hne]
  · simp [hne] at h

variable [Zero F] [Elementary F] [ElementText F]

/-- What the check of a node has established, by kind. -/
theorem checked_of_checkNode
    {g : Graph F} {id : NodeId} {n : Node F}
    (hn : g.nodes[id]? = some n) (h : g.checkNode id = .ok ()) :
    ∃ patterns, n.operands.mapM g.pattern = .ok patterns ∧
      (∀ k, n.kind.arity? = some k → n.operands.length = k) ∧
      match n.kind with
      | .symbolic _ => True
      | .constant values => values.size = n.pattern.nnz
      | .gather _ map => map.length = n.pattern.nnz ∧
          ∀ move ∈ map, ∃ p, patterns[move.1]? = some p ∧ move.2 < p.nnz
      | _ => inferPattern n.kind patterns = .ok (some n.pattern) := by
  unfold checkNode at h
  obtain ⟨n', hn', h⟩ := bind_eq_ok_iff.1 h
  have heq : n = n' := by
    rw [node_eq_ok_iff, hn] at hn'
    exact Option.some.inj hn'
  subst heq
  obtain ⟨patterns, hpatterns, h⟩ := bind_eq_ok_iff.1 h
  obtain ⟨_, harity, h⟩ := bind_eq_ok_iff.1 h
  refine ⟨patterns, hpatterns, fun k hk => length_of_checkArity harity hk, ?_⟩
  cases hkind : n.kind with
  | symbolic name => trivial
  | constant values =>
      simp only [hkind] at h
      unfold checkConstant at h
      split at h
      · cases h
      · next hsize => exact not_not.1 hsize
  | gather kind map =>
      simp only [hkind] at h
      unfold checkGather at h
      split at h
      · cases h
      · next hlen => exact ⟨not_not.1 hlen, mem_of_checkMoves h⟩
  | ifElse tol =>
      simp only [hkind] at h
      split at h
      · have hinfer := infer_of_checkInferred h
        rwa [hkind] at hinfer
      · cases h
  | unary op =>
      simp only [hkind] at h
      have hinfer := infer_of_checkInferred h
      rwa [hkind] at hinfer
  | binary op =>
      simp only [hkind] at h
      have hinfer := infer_of_checkInferred h
      rwa [hkind] at hinfer
  | scalarMatrix op =>
      simp only [hkind] at h
      have hinfer := infer_of_checkInferred h
      rwa [hkind] at hinfer
  | matrixScalar op =>
      simp only [hkind] at h
      have hinfer := infer_of_checkInferred h
      rwa [hkind] at hinfer

end Graph

namespace Graph

variable {F : Type}

/-- No symbolic node lists operands. -/
def BareLeaves (g : Graph F) : Prop :=
  ∀ n ∈ g.nodes, n.kind.isSymbolic = true → n.operands = []

theorem bareLeaves_empty :
    (empty : Graph F).BareLeaves := by
  simp [BareLeaves, empty]

theorem BareLeaves.push
    {g : Graph F} (h : g.BareLeaves) {n : Node F}
    (hn : n.kind.isSymbolic = true → n.operands = []) :
    (g.push n).2.BareLeaves := by
  intro n' hn'
  rcases Array.mem_push.1 hn' with hold | rfl
  · exact h n' hold
  · exact hn

end Graph

namespace Tape

variable {F : Type}

/-- A table of positions, filled from an order without repetitions. -/
theorem getElem?_foldl_positions
    {order : List NodeId} (hnodup : order.Nodup) (start : Nat) {table : Array (Option Nat)}
    {id : NodeId} (hid : id < table.size) :
    ((order.zipIdx start).foldl
      (fun table (id, position) => table.setIfInBounds id (some position)) table)[id]? =
        if id ∈ order then some (some (start + order.idxOf id)) else table[id]? := by
  induction order generalizing start table with
  | nil => rfl
  | cons d order ih =>
      obtain ⟨hd, hnodup⟩ := List.nodup_cons.1 hnodup
      rw [List.zipIdx_cons, List.foldl_cons,
        ih hnodup (start + 1) (by rwa [Array.size_setIfInBounds])]
      by_cases heq : d = id
      · subst heq
        rw [if_neg hd, if_pos (List.mem_cons_self ..), List.idxOf_cons_self,
          Array.getElem?_setIfInBounds_self_of_lt hid, Nat.add_zero]
      · rw [Array.getElem?_setIfInBounds_ne heq, List.idxOf_cons_ne _ heq]
        simp only [List.mem_cons, Ne.symm heq, false_or]
        split
        · rw [Nat.add_right_comm, Nat.add_assoc]
        · rfl

@[simp] theorem size_positions
    (size : Nat) (order : List NodeId) :
    (positions size order).size = size := by
  have hfold : ∀ (items : List (NodeId × Nat)) (table : Array (Option Nat)),
      (items.foldl (fun table (id, position) => table.setIfInBounds id (some position))
        table).size = table.size := by
    intro items
    induction items with
    | nil => exact fun _ => rfl
    | cons item items ih =>
        intro table
        rw [List.foldl_cons, ih, Array.size_setIfInBounds]
  rw [positions, hfold, Array.size_replicate]

/-- A node has a position if it is in the order; then it stands there. -/
theorem positionOf_eq
    {size : Nat} {order : List NodeId} (hnodup : order.Nodup) {id : NodeId} (hid : id < size) :
    positionOf (positions size order) id =
      if id ∈ order then .ok (order.idxOf id) else .error .outOfBounds := by
  have hget := getElem?_foldl_positions hnodup 0
    (show id < (Array.replicate size (none : Option Nat)).size by simpa using hid)
  rw [← positions] at hget
  rw [positionOf, hget]
  by_cases hmem : id ∈ order
  · simp [hmem]
  · simp [hmem, hid]

/-- A node with a position stands there in the order. -/
theorem getElem?_of_positionOf
    {size : Nat} {order : List NodeId} (hnodup : order.Nodup) {id : NodeId} {q : Nat}
    (h : positionOf (positions size order) id = .ok q) :
    order[q]? = some id := by
  rcases Nat.lt_or_ge id size with hid | hid
  · rw [positionOf_eq hnodup hid] at h
    split at h
    · next hmem =>
        cases h
        rw [List.getElem?_eq_getElem (List.idxOf_lt_length_of_mem hmem), List.getElem_idxOf]
    · cases h
  · rw [positionOf, Array.getElem?_eq_none (by rwa [size_positions])] at h
    cases h

theorem placedNode_eq_ok_iff
    {g : Graph F} {id : NodeId} {n : Node F} :
    placedNode g id = .ok n ↔ g.nodes[id]? = some n := by
  unfold placedNode
  cases h : g.nodes[id]? with
  | none => simp
  | some n' => simp

theorem placedNode_map_eq_ok_iff
    {g : Graph F} {id : NodeId} {p : Pattern} :
    (placedNode g id).map Node.pattern = .ok p ↔
      ∃ n, g.nodes[id]? = some n ∧ n.pattern = p := by
  simp only [← placedNode_eq_ok_iff]
  cases placedNode g id with
  | error e => simp [Except.map]
  | ok n => simp [Except.map]

/-- A node has an element if its operands have positions and patterns and it has an instruction. -/
theorem element_eq_ok_iff
    {g : Graph F} {table : Array (Option Nat)} {id : NodeId} {position : Nat} {e : Element F} :
    element g table id position = .ok e ↔
      ∃ n parts patterns instr, g.nodes[id]? = some n ∧
        n.operands.mapM (positionOf table) = .ok parts ∧
        (n.operands.mapM fun d => (placedNode g d).map Node.pattern) = .ok patterns ∧
        instruction position n parts patterns = .ok instr ∧ ⟨id, instr, n.pattern.nnz⟩ = e := by
  constructor
  · intro h
    obtain ⟨n, hn, h⟩ := bind_eq_ok_iff.1 h
    obtain ⟨parts, hparts, h⟩ := bind_eq_ok_iff.1 h
    obtain ⟨patterns, hpatterns, h⟩ := bind_eq_ok_iff.1 h
    obtain ⟨instr, hinstr, h⟩ := bind_eq_ok_iff.1 h
    exact ⟨n, parts, patterns, instr, placedNode_eq_ok_iff.1 hn, hparts, hpatterns, hinstr,
      Except.ok.inj h⟩
  · rintro ⟨n, parts, patterns, instr, hn, hparts, hpatterns, hinstr, rfl⟩
    exact bind_eq_ok_iff.2 ⟨n, placedNode_eq_ok_iff.2 hn, bind_eq_ok_iff.2 ⟨parts, hparts,
      bind_eq_ok_iff.2 ⟨patterns, hpatterns, bind_eq_ok_iff.2 ⟨instr, hinstr, rfl⟩⟩⟩⟩

end Tape

/-- Operand `id` with node `n` stands at position `q`, before position `p`. -/
structure Placed {F : Type}
    (g : Graph F) (order : List NodeId) (p : Nat) (id : NodeId) (n : Node F) (q : Nat) :
    Prop where
  place : order[q]? = some id
  node : g.nodes[id]? = some n
  before : q < p

/-- Listed operands, each with the position where it stands and the pattern of its node. -/
inductive PlacedAll {F : Type} (g : Graph F) (order : List NodeId) (p : Nat) :
    List NodeId → List Nat → List Pattern → Prop
  | nil : PlacedAll g order p [] [] []
  | cons {a : NodeId} {n : Node F} {q : Nat} {ids : List NodeId} {parts : List Nat}
      {patterns : List Pattern}
      (ha : Placed g order p a n q) (rest : PlacedAll g order p ids parts patterns) :
      PlacedAll g order p (a :: ids) (q :: parts) (n.pattern :: patterns)

namespace PlacedAll

variable {F : Type} {g : Graph F} {order : List NodeId} {p : Nat} {ids : List NodeId}
  {parts : List Nat} {patterns : List Pattern}

theorem one
    (h : PlacedAll g order p ids parts patterns) (hlength : ids.length = 1) :
    ∃ a n q, ids = [a] ∧ parts = [q] ∧ patterns = [n.pattern] ∧ Placed g order p a n q := by
  obtain ⟨a, rfl⟩ := List.length_eq_one_iff.1 hlength
  obtain _ | ⟨ha, _ | _⟩ := h
  exact ⟨a, _, _, rfl, rfl, rfl, ha⟩

theorem two
    (h : PlacedAll g order p ids parts patterns) (hlength : ids.length = 2) :
    ∃ a b na nb qa qb, ids = [a, b] ∧ parts = [qa, qb] ∧
      patterns = [na.pattern, nb.pattern] ∧ Placed g order p a na qa ∧
      Placed g order p b nb qb := by
  obtain ⟨a, b, rfl⟩ := List.length_eq_two.1 hlength
  obtain _ | ⟨ha, _ | ⟨hb, _ | _⟩⟩ := h
  exact ⟨a, b, _, _, _, _, rfl, rfl, rfl, ha, hb⟩

/-- Every position is that of the operand at its place. -/
theorem getElem?_parts
    (h : PlacedAll g order p ids parts patterns) {d q : Nat} (hd : parts[d]? = some q) :
    ∃ a n, ids[d]? = some a ∧ patterns[d]? = some n.pattern ∧ Placed g order p a n q := by
  induction h generalizing d with
  | nil => cases hd
  | @cons a n _ _ _ _ ha _ ih =>
      cases d with
      | zero =>
          cases hd
          exact ⟨a, n, rfl, rfl, ha⟩
      | succ d => exact ih hd

end PlacedAll

/-- The instruction that a node with checked operands becomes at position `p`. -/
inductive Lowers {F : Type} (g : Graph F) (order : List NodeId) (p : Nat) (n : Node F) :
    Instr F → Prop
  | input {name : String} (hkind : n.kind = .symbolic name) (hops : n.operands = []) :
      Lowers g order p n (.input p [])
  | constant {values : Array F} (hkind : n.kind = .constant values)
      (hops : n.operands = []) (hsize : values.size = n.pattern.nnz) :
      Lowers g order p n (.constant values)
  | unary {op : UnaryOp} {a : NodeId} {na : Node F} {q : Nat}
      (hkind : n.kind = .unary op) (hops : n.operands = [a])
      (ha : Placed g order p a na q) (hshape : n.pattern.shape = na.pattern.shape) :
      Lowers g order p n (.unary op ⟨q, .between n.pattern na.pattern⟩)
  | binary {op : BinaryOp} {a b : NodeId} {na nb : Node F} {qa qb : Nat}
      (hkind : n.kind = .binary op) (hops : n.operands = [a, b])
      (ha : Placed g order p a na qa) (hb : Placed g order p b nb qb)
      (hshapea : n.pattern.shape = na.pattern.shape)
      (hshapeb : n.pattern.shape = nb.pattern.shape) :
      Lowers g order p n (.binary op ⟨qa, .between n.pattern na.pattern⟩
        ⟨qb, .between n.pattern nb.pattern⟩)
  | scalarMatrix {op : BinaryOp} {s m : NodeId} {ns nm : Node F} {qs qm : Nat}
      (hkind : n.kind = .scalarMatrix op) (hops : n.operands = [s, m])
      (hs : Placed g order p s ns qs) (hm : Placed g order p m nm qm)
      (hscalar : ns.pattern.isScalar = true) (hpattern : n.pattern = nm.pattern) :
      Lowers g order p n (.binary op ⟨qs, .broadcast ns.pattern⟩
        ⟨qm, .between n.pattern nm.pattern⟩)
  | matrixScalar {op : BinaryOp} {m s : NodeId} {nm ns : Node F} {qm qs : Nat}
      (hkind : n.kind = .matrixScalar op) (hops : n.operands = [m, s])
      (hm : Placed g order p m nm qm) (hs : Placed g order p s ns qs)
      (hscalar : ns.pattern.isScalar = true) (hpattern : n.pattern = nm.pattern) :
      Lowers g order p n (.binary op ⟨qm, .between n.pattern nm.pattern⟩
        ⟨qs, .broadcast ns.pattern⟩)
  | ifElse {tol : F} {c a : NodeId} {nc na : Node F} {qc qa : Nat}
      (hkind : n.kind = .ifElse tol) (hops : n.operands = [c, a])
      (hc : Placed g order p c nc qc) (ha : Placed g order p a na qa)
      (hscalar : nc.pattern.isScalar = true) (hpattern : n.pattern = na.pattern) :
      Lowers g order p n (.ifElse tol ⟨qc, .broadcast nc.pattern⟩ qa)
  | gather {kind : GatherKind} {map : List (Nat × Nat)} {parts : List Nat}
      {moves : Array (Nat × Nat)}
      (hkind : n.kind = .gather kind map) (hlength : map.length = n.pattern.nnz)
      (hmoves : moves.size = map.length)
      (hparts : ∀ q ∈ parts, ∃ a na, Placed g order p a na q)
      (hmove : ∀ k d j : Nat, map[k]? = some (d, j) → ∃ a na q, n.operands[d]? = some a ∧
        Placed g order p a na q ∧ q ∈ parts ∧ j < na.pattern.nnz ∧ moves[k]? = some (q, j)) :
      Lowers g order p n (.gather kind parts moves)

/-- A lowered movement takes every nonzero from one of an operand. -/
theorem exists_move
    {F : Type} {g : Graph F} {order : List NodeId} {p : Nat} {n : Node F} {map : List (Nat × Nat)}
    {parts : List Nat} {moves : Array (Nat × Nat)} (hlength : map.length = n.pattern.nnz)
    (hmove : ∀ k d j : Nat, map[k]? = some (d, j) → ∃ a na q, n.operands[d]? = some a ∧
      Placed g order p a na q ∧ q ∈ parts ∧ j < na.pattern.nnz ∧ moves[k]? = some (q, j))
    {k : Nat} (hk : k < n.pattern.nnz) :
    ∃ d j a na q, map[k]? = some (d, j) ∧ n.operands[d]? = some a ∧ Placed g order p a na q ∧
      j < na.pattern.nnz ∧ moves.getD k (0, 0) = (q, j) := by
  obtain ⟨⟨d, j⟩, hmap⟩ : ∃ entry, map[k]? = some entry :=
    ⟨_, List.getElem?_eq_getElem (by omega)⟩
  obtain ⟨a, na, q, hd, ha, -, hj, hmoves⟩ := hmove k d j hmap
  exact ⟨d, j, a, na, q, hmap, hd, ha, hj, by simp [Array.getD_eq_getD_getElem?, hmoves]⟩

namespace Tape

variable {F : Type}

/-- Moves are resolved one by one. -/
theorem getElem?_of_resolveMoves
    {parts : List Nat} {map : List (Nat × Nat)} {moves : List (Nat × Nat)}
    (h : map.mapM (resolveMove parts) = .ok moves) {k d j : Nat}
    (hk : map[k]? = some (d, j)) :
    ∃ q, parts[d]? = some q ∧ moves[k]? = some (q, j) := by
  obtain ⟨move, hmove, hresolve⟩ := getElem?_of_mapM h hk
  unfold resolveMove at hresolve
  cases hd : parts[d]? with
  | none => simp [hd] at hresolve
  | some q =>
      have heq : (q, j) = move := by simpa [hd] using hresolve
      exact ⟨q, rfl, heq ▸ hmove⟩

/-- A declared input is lowered to an instruction that reads nothing. -/
theorem lowers_of_input
    {g : Graph F} (hbare : g.BareLeaves) {order : List NodeId} {p : Nat} {id : NodeId}
    {n : Node F} (hn : g.nodes[id]? = some n) (hsym : n.kind.isSymbolic = true)
    {parts : List Nat} {patterns : List Pattern} {instr : Instr F}
    (hparts : n.operands.mapM (positionOf (positions g.size order)) = .ok parts)
    (hinstr : instruction p n parts patterns = .ok instr) :
    Lowers g order p n instr := by
  have hops := hbare n (Array.mem_of_getElem? hn) hsym
  rw [hops] at hparts
  have hnil : parts = [] := List.forall₂_nil_left_iff.1 (mapM_eq_ok_iff.1 hparts)
  cases hkind : n.kind with
  | symbolic name =>
      simp only [hkind, instruction] at hinstr
      rw [← Except.ok.inj hinstr, hnil]
      exact .input hkind hops
  | _ => simp [hkind, NodeKind.isSymbolic] at hsym

/-- The patterns found by position are those that the check has read. -/
theorem patterns_eq_of_mapM
    {g : Graph F} {ids : List NodeId} {checked patterns : List Pattern}
    (hchecked : ids.mapM g.pattern = .ok checked)
    (hpatterns : ids.mapM (fun d => (placedNode g d).map Node.pattern) = .ok patterns) :
    checked = patterns := by
  have h : List.Forall₂ (fun d pa => (placedNode g d).map Node.pattern = .ok pa) ids checked :=
    (mapM_eq_ok_iff.1 hchecked).imp fun _ _ hpa =>
      placedNode_map_eq_ok_iff.2 (Graph.pattern_eq_ok_iff.1 hpa)
  exact Except.ok.inj ((mapM_eq_ok_iff.2 h).symm.trans hpatterns)

/-- A checked movement is lowered to the moves from the positions of its operands. -/
theorem lowers_of_gather
    {g : Graph F} {order : List NodeId} {p : Nat} {n : Node F} {kind : GatherKind}
    {map : List (Nat × Nat)} (hkind : n.kind = .gather kind map) {parts : List Nat}
    {patterns : List Pattern} (hplaced : PlacedAll g order p n.operands parts patterns)
    (hlength : map.length = n.pattern.nnz)
    (hchecked : ∀ move ∈ map, ∃ pa, patterns[move.1]? = some pa ∧ move.2 < pa.nnz)
    {moves : List (Nat × Nat)} (hmoves : map.mapM (resolveMove parts) = .ok moves) :
    Lowers g order p n (.gather kind parts moves.toArray) := by
  refine .gather hkind hlength (by simpa using length_of_mapM hmoves) ?_ ?_
  · intro q hq
    obtain ⟨d, hd⟩ := List.mem_iff_getElem?.1 hq
    obtain ⟨a, na, _, _, hna⟩ := hplaced.getElem?_parts hd
    exact ⟨a, na, hna⟩
  · intro k d j hk
    obtain ⟨q, hd, hmove⟩ := getElem?_of_resolveMoves hmoves hk
    obtain ⟨a, na, ha, hpa, hna⟩ := hplaced.getElem?_parts hd
    obtain ⟨pa, hpa', hj⟩ := hchecked (d, j) (List.mem_of_getElem? hk)
    rw [hpa] at hpa'
    cases hpa'
    exact ⟨a, na, q, ha, hna, List.mem_of_getElem? hd, hj, by simpa using hmove⟩

variable [Zero F] [Elementary F] [ElementText F]

/-- An operand of a node behind the inputs is found at its position. -/
theorem placed_of_positionOf
    {g : Graph F} {inputs outputs order : List NodeId} (hord : Ordered g inputs outputs order)
    {p : Nat} {id a : NodeId} (hp : order[p]? = some id) (hlate : inputs.length ≤ p)
    (ha : a ∈ Search.operandsOf g id) {q : Nat} {pa : Pattern}
    (hq : positionOf (positions g.size order) a = .ok q)
    (hpa : (placedNode g a).map Node.pattern = .ok pa) :
    ∃ na, na.pattern = pa ∧ Placed g order p a na q := by
  obtain ⟨na, hna, hpattern⟩ := placedNode_map_eq_ok_iff.1 hpa
  have hplace := getElem?_of_positionOf hord.nodup hq
  obtain ⟨j, hlt, hj⟩ := hord.operand_before hp hlate ha
  rw [hord.place_unique hj hplace] at hlt
  exact ⟨na, hpattern, hplace, hna, hlt⟩

/-- The operands of a node behind the inputs are found at their positions. -/
theorem placedAll_of_mapM
    {g : Graph F} {inputs outputs order : List NodeId} (hord : Ordered g inputs outputs order)
    {p : Nat} {id : NodeId} (hp : order[p]? = some id) (hlate : inputs.length ≤ p)
    {ids : List NodeId} {parts : List Nat} {patterns : List Pattern}
    (hids : ∀ a ∈ ids, a ∈ Search.operandsOf g id)
    (hparts : ids.mapM (positionOf (positions g.size order)) = .ok parts)
    (hpatterns : ids.mapM (fun d => (placedNode g d).map Node.pattern) = .ok patterns) :
    PlacedAll g order p ids parts patterns := by
  replace hparts := mapM_eq_ok_iff.1 hparts
  replace hpatterns := mapM_eq_ok_iff.1 hpatterns
  induction hparts generalizing patterns with
  | nil =>
      cases hpatterns
      exact .nil
  | cons hq _ ih =>
      obtain _ | ⟨hpa, hpatterns⟩ := hpatterns
      obtain ⟨ha, hids⟩ := List.forall_mem_cons.1 hids
      obtain ⟨n, rfl, hplaced⟩ := placed_of_positionOf hord hp hlate ha hq hpa
      exact .cons hplaced (ih hids hpatterns)

/-- A listed node is lowered as its kind says. -/
theorem lowers_of_listed
    {g : Graph F} {inputs outputs order : List NodeId}
    (hord : Ordered g inputs outputs order) {p : Nat} {id : NodeId} {n : Node F}
    (hp : order[p]? = some id) (hn : g.nodes[id]? = some n) (hlate : inputs.length ≤ p)
    {parts : List Nat} {patterns : List Pattern} {instr : Instr F}
    (hparts : n.operands.mapM (positionOf (positions g.size order)) = .ok parts)
    (hpatterns : n.operands.mapM (fun d => (placedNode g d).map Node.pattern) = .ok patterns)
    (hinstr : instruction p n parts patterns = .ok instr) :
    n.kind.isSymbolic = false ∧ Lowers g order p n instr := by
  have hlisted := hord.listed_at hp hlate
  have hsym : n.kind.isSymbolic = false := by
    simpa [Search.isSymbolic, hn] using hlisted.symbolic
  obtain ⟨checked, hread, hlength, hchecked⟩ := Graph.checked_of_checkNode hn hlisted.check
  obtain rfl := patterns_eq_of_mapM hread hpatterns
  have hplaced : PlacedAll g order p n.operands parts checked :=
    placedAll_of_mapM hord hp hlate (by simp [Search.operandsOf, hn]) hparts hpatterns
  refine ⟨hsym, ?_⟩
  cases hkind : n.kind with
  | symbolic name => simp [hkind, NodeKind.isSymbolic] at hsym
  | constant values =>
      have hops := List.length_eq_zero_iff.1 (hlength 0 (by rw [hkind]; rfl))
      simp only [hkind, instruction] at hinstr hchecked
      rw [← Except.ok.inj hinstr]
      exact .constant hkind hops hchecked
  | unary op =>
      obtain ⟨a, na, q, hops, rfl, rfl, ha⟩ := hplaced.one (hlength 1 (by rw [hkind]; rfl))
      simp only [hkind, instruction] at hinstr hchecked
      rw [← Except.ok.inj hinstr]
      exact .unary hkind hops ha (shape_of_infer_unary hchecked)
  | binary op =>
      obtain ⟨a, b, na, nb, qa, qb, hops, rfl, rfl, ha, hb⟩ :=
        hplaced.two (hlength 2 (by rw [hkind]; rfl))
      simp only [hkind, instruction] at hinstr hchecked
      rw [← Except.ok.inj hinstr]
      obtain ⟨hshapea, hshapeb⟩ := shape_of_infer_binary hchecked
      exact .binary hkind hops ha hb hshapea hshapeb
  | scalarMatrix op =>
      obtain ⟨s, m, ns, nm, qs, qm, hops, rfl, rfl, hs, hm⟩ :=
        hplaced.two (hlength 2 (by rw [hkind]; rfl))
      simp only [hkind, instruction] at hinstr hchecked
      rw [← Except.ok.inj hinstr]
      obtain ⟨hscalar, hpattern⟩ := of_infer_scalarMatrix hchecked
      exact .scalarMatrix hkind hops hs hm hscalar hpattern
  | matrixScalar op =>
      obtain ⟨m, s, nm, ns, qm, qs, hops, rfl, rfl, hm, hs⟩ :=
        hplaced.two (hlength 2 (by rw [hkind]; rfl))
      simp only [hkind, instruction] at hinstr hchecked
      rw [← Except.ok.inj hinstr]
      obtain ⟨hscalar, hpattern⟩ := of_infer_matrixScalar hchecked
      exact .matrixScalar hkind hops hm hs hscalar hpattern
  | ifElse tol =>
      obtain ⟨c, a, nc, na, qc, qa, hops, rfl, rfl, hc, ha⟩ :=
        hplaced.two (hlength 2 (by rw [hkind]; rfl))
      simp only [hkind, instruction] at hinstr hchecked
      rw [← Except.ok.inj hinstr]
      obtain ⟨hscalar, hpattern⟩ := of_infer_ifElse hchecked
      exact .ifElse hkind hops hc ha hscalar hpattern
  | gather kind map =>
      simp only [hkind, instruction] at hinstr hchecked
      obtain ⟨moves, hmoves, hinstr⟩ := bind_eq_ok_iff.1 hinstr
      rw [← Except.ok.inj hinstr]
      exact lowers_of_gather hkind hplaced hchecked.1 hchecked.2 hmoves

/-- What compilation has made of a request: `order` lists the nodes by position. -/
structure Compiled
    (g : Graph F) (inputs outputs order : List NodeId) (config : Config) (f : Tape F) :
    Prop where
  ordered : Ordered g inputs outputs order
  size : f.elements.size = order.length
  element : ∀ p id, order[p]? = some id → ∃ n instr, g.nodes[id]? = some n ∧
    f.elements[p]? = some ⟨id, instr, n.pattern.nnz⟩ ∧ Lowers g order p n instr ∧
    (n.kind.isSymbolic = true ↔ p < inputs.length)
  placed : List.Forall₂ (fun id q => order[q]? = some id) outputs f.outputs
  inputPatterns : List.Forall₂
    (fun id p => ∃ n, g.nodes[id]? = some n ∧ n.pattern = p) inputs f.inputPatterns
  outputPatterns : List.Forall₂
    (fun id p => ∃ n, g.nodes[id]? = some n ∧ n.pattern = p) outputs f.outputPatterns
  full : f.full = Layout.ofLengths (f.elements.toList.map span)
  compact : f.compact = Layout.reusing (f.elements.toList.map span) f.outputs
  config : f.config = config

/-- The element of a node. -/
theorem lowers_of_element
    {g : Graph F} {inputs outputs order : List NodeId} (hbare : g.BareLeaves)
    (hord : Ordered g inputs outputs order) {p : Nat} {id : NodeId} {e : Element F}
    (hp : order[p]? = some id)
    (he : element g (positions g.size order) id p = .ok e) :
    ∃ n instr, g.nodes[id]? = some n ∧ e = ⟨id, instr, n.pattern.nnz⟩ ∧
      Lowers g order p n instr ∧ (n.kind.isSymbolic = true ↔ p < inputs.length) := by
  obtain ⟨n, parts, patterns, instr, hnode, hparts, hpatterns, hinstr, rfl⟩ :=
    element_eq_ok_iff.1 he
  refine ⟨n, instr, hnode, rfl, ?_⟩
  rcases Nat.lt_or_ge p inputs.length with hearly | hlate
  · obtain ⟨n', hn', hsym⟩ := hord.symbolic id (hord.mem_inputs_at hp hearly)
    rw [hnode] at hn'
    cases hn'
    exact ⟨lowers_of_input hbare hnode hsym hparts hinstr, iff_of_true hsym hearly⟩
  · obtain ⟨hsym, hlowers⟩ :=
      lowers_of_listed hord hp hnode hlate hparts hpatterns hinstr
    exact ⟨hlowers, iff_of_false (by simp [hsym]) (by omega)⟩

/-- With an order, compilation succeeds if all elements, positions and patterns are found. -/
theorem compile_eq_ok_iff
    {g : Graph F} {inputs outputs : List NodeId} {config : Config} {f : Tape F} :
    compile g inputs outputs config = .ok f ↔
      ∃ order elements places inputPatterns outputPatterns,
        Tape.order g inputs outputs = .ok order ∧
        (order.zipIdx.mapM fun (id, position) =>
          element g (positions g.size order) id position) = .ok elements ∧
        outputs.mapM (positionOf (positions g.size order)) = .ok places ∧
        (inputs.mapM fun id => (placedNode g id).map Node.pattern) = .ok inputPatterns ∧
        (outputs.mapM fun id => (placedNode g id).map Node.pattern) = .ok outputPatterns ∧
        ⟨g, elements.toArray, places, inputPatterns, outputPatterns,
          Layout.ofLengths (elements.map span), Layout.reusing (elements.map span) places,
          config⟩ = f := by
  constructor
  · intro h
    obtain ⟨order, horder, h⟩ := bind_eq_ok_iff.1 h
    obtain ⟨elements, helements, h⟩ := bind_eq_ok_iff.1 h
    obtain ⟨places, hplaces, h⟩ := bind_eq_ok_iff.1 h
    obtain ⟨inputPatterns, hin, h⟩ := bind_eq_ok_iff.1 h
    obtain ⟨outputPatterns, hout, h⟩ := bind_eq_ok_iff.1 h
    exact ⟨order, elements, places, inputPatterns, outputPatterns, orReject_eq_ok_iff.1 horder,
      helements, hplaces, hin, hout, Except.ok.inj h⟩
  · rintro ⟨order, elements, places, inputPatterns, outputPatterns, horder, helements, hplaces,
      hin, hout, rfl⟩
    exact bind_eq_ok_iff.2 ⟨order, orReject_eq_ok_iff.2 horder, bind_eq_ok_iff.2 ⟨elements,
      helements, bind_eq_ok_iff.2 ⟨places, hplaces, bind_eq_ok_iff.2 ⟨inputPatterns, hin,
        bind_eq_ok_iff.2 ⟨outputPatterns, hout, rfl⟩⟩⟩⟩⟩

/-- Compilation under another configuration differs in the configuration only. -/
theorem compile_config
    {g : Graph F} {inputs outputs : List NodeId} {config config' : Config} {f : Tape F}
    (h : compile g inputs outputs config = .ok f) :
    compile g inputs outputs config' = .ok { f with config := config' } := by
  obtain ⟨order, elements, places, inputPatterns, outputPatterns, horder, helements, hplaces, hin,
    hout, rfl⟩ := compile_eq_ok_iff.1 h
  exact compile_eq_ok_iff.2 ⟨order, elements, places, inputPatterns, outputPatterns, horder,
    helements, hplaces, hin, hout, rfl⟩

theorem graph_of_compile
    {g : Graph F} {inputs outputs : List NodeId} {config : Config} {f : Tape F}
    (h : compile g inputs outputs config = .ok f) :
    f.graph = g := by
  obtain ⟨_, _, _, _, _, -, -, -, -, -, rfl⟩ := compile_eq_ok_iff.1 h
  rfl

/-- Every element of a compiled tape is lowered from a node. -/
theorem compiled_of_compile
    {g : Graph F} {inputs outputs : List NodeId} {config : Config} {f : Tape F}
    (hbare : g.BareLeaves) (h : compile g inputs outputs config = .ok f) :
    ∃ order, Compiled g inputs outputs order config f := by
  obtain ⟨order, elements, positions, inputPatterns, outputPatterns, horder, helements, hpositions,
    hin, hout, rfl⟩ := compile_eq_ok_iff.1 h
  have hord := ordered_of_order horder
  have hpattern : ∀ {id : NodeId} {p : Pattern},
      (placedNode g id).map Node.pattern = .ok p → ∃ n, g.nodes[id]? = some n ∧ n.pattern = p :=
    placedNode_map_eq_ok_iff.1
  refine ⟨order, ?_⟩
  constructor
  case ordered => exact hord
  case size => simpa using length_of_mapM helements
  case element =>
    intro p id hp
    have hzip : order.zipIdx[p]? = some (id, p) := by simp [hp]
    obtain ⟨e, he, helement⟩ := getElem?_of_mapM helements hzip
    obtain ⟨n, instr, hn, rfl, hlowers⟩ := lowers_of_element hbare hord hp helement
    exact ⟨n, instr, hn, by simpa using he, hlowers⟩
  case placed =>
    exact (mapM_eq_ok_iff.1 hpositions).imp fun _ _ => getElem?_of_positionOf hord.nodup
  case inputPatterns => exact (mapM_eq_ok_iff.1 hin).imp fun _ _ => hpattern
  case outputPatterns => exact (mapM_eq_ok_iff.1 hout).imp fun _ _ => hpattern
  all_goals rfl

/-- The directions that a request asks for are the tape's. -/
theorem Compiled.one_le_maxDirections
    {g : Graph F} {inputs outputs order : List NodeId} {config : Config} {f : Tape F}
    (h : Compiled g inputs outputs order config f) (hmax : 1 ≤ config.maxDirections) :
    1 ≤ f.config.maxDirections := by
  rw [h.config]
  exact hmax

end Tape

end SparseDiff
