import SparseDiff.Proofs.Dense.Representation

/-!
# Sparse evaluation is dense evaluation

Every builder call without a broadcast adds a node that its dense matrix represents
(`meant_of_build`), so this holds of all nodes of a graph. A compiled tape returns the
values of the graph; filled with zeros they are therefore the matrices of dense evaluation
(`Tape.call_eq_dense`).
-/

namespace SparseDiff

section Shapes

variable {F : Type} {parts : List (DenseMatrix F)} {patterns : List Pattern}

theorem nrows_eq
    (h : parts.map DenseMatrix.shape = patterns.map Pattern.shape) :
    parts.map DenseMatrix.nrow = patterns.map Pattern.nrow := by
  simpa [Function.comp_def, DenseMatrix.shape, Pattern.shape] using congrArg (List.map Prod.fst) h

theorem ncols_eq
    (h : parts.map DenseMatrix.shape = patterns.map Pattern.shape) :
    parts.map DenseMatrix.ncol = patterns.map Pattern.ncol := by
  simpa [Function.comp_def, DenseMatrix.shape, Pattern.shape] using congrArg (List.map Prod.snd) h

theorem horzcat_eq_arranged
    [Zero F] (h : parts.map DenseMatrix.shape = patterns.map Pattern.shape) :
    DenseMatrix.horzcat parts = .arranged ((patterns.head?.map Pattern.nrow).getD 0)
      (total (patterns.map Pattern.ncol)) (.beside (patterns.map Pattern.ncol)) parts := by
  rw [DenseMatrix.horzcat, ← List.head?_map, nrows_eq h, ncols_eq h, List.head?_map]

theorem vertcat_eq_arranged
    [Zero F] (h : parts.map DenseMatrix.shape = patterns.map Pattern.shape) :
    DenseMatrix.vertcat parts = .arranged (total (patterns.map Pattern.nrow))
      ((patterns.head?.map Pattern.ncol).getD 0) (.stacked (patterns.map Pattern.nrow)) parts := by
  rw [DenseMatrix.vertcat, ← List.head?_map, nrows_eq h, ncols_eq h, List.head?_map]

theorem isBroadcast_of_pushNode
    {g g' : Graph F} {kind : NodeKind F} {operands : List NodeId} {id : NodeId}
    (h : g.pushNode kind operands = .ok (id, g'))
    (hbroadcast : ∀ n ∈ g'.nodes, n.kind.isBroadcast = false) :
    kind.isBroadcast = false := by
  obtain ⟨patterns, p, -, -, heq⟩ := Graph.pushNode_eq_ok h
  cases heq
  exact hbroadcast ⟨kind, operands, p⟩ Array.mem_push_self

/-- Without a broadcast a binary call is elementwise. -/
theorem binaryKind_eq_binary
    {op : BinaryOp} {a b : Pattern}
    (h : (Graph.binaryKind (F := F) op a b).isBroadcast = false) :
    Graph.binaryKind (F := F) op a b = .binary op := by
  unfold Graph.binaryKind at h ⊢
  split_ifs at h ⊢ <;> first | rfl | cases h

end Shapes

variable {F : Type} [Zero F] [Calculus F] {inputs : List NodeId} {xs : List (List F)} {g : Graph F}
  {matrix : NodeId → Option (DenseMatrix F)}

/-- One operand rearranged. -/
theorem represents_of_move
    (hd : g.Denotes inputs xs matrix) {a : NodeId} {p q : Pattern} (hp : g.pattern a = .ok p)
    {kind : GatherKind} {map : List (Nat × Nat)} {id : NodeId} {g' : Graph F}
    (h : g.gather kind [a] q map = .ok (id, g')) {origin : Origin}
    (harranges : p.WellFormed → Pattern.Arranges [p] q map origin) {nrow ncol : Nat}
    (hshape : q.shape = (nrow, ncol)) (values : List F) :
    ∃ m, matrix a = some m ∧ m.shape = p.shape ∧
      (id, g') = g.push ⟨.gather kind map, [a], q⟩ ∧ q.WellFormed ∧
      Represents g matrix values ⟨.gather kind map, [a], q⟩ (.arranged nrow ncol origin [m]) := by
  obtain ⟨n, m, ha, rfl⟩ := hd.exists_at hp
  have harranges := harranges (hd.wellFormedAt ha)
  have hparts : g.Parts matrix [a] [n.pattern] [m] := by
    refine ⟨by simp [ha.matrix], by simp [(hd.representsAt ha).shape], fun d ma hma => ?_⟩
    cases d with
    | zero =>
        cases hma
        exact ⟨a, n, rfl, ha, rfl⟩
    | succ d => cases hma
  obtain ⟨-, -, -, heq⟩ := Graph.gather_eq_ok h
  exact ⟨m, ha.matrix, (hd.representsAt ha).shape, heq, harranges.wellFormed,
    represents_gather hd hparts harranges hshape kind values⟩

/-- Joined operands. -/
theorem represents_of_join
    (hd : g.Denotes inputs xs matrix) {operands : List NodeId} {patterns : List Pattern}
    (hpatterns : operands.mapM g.pattern = .ok patterns) {kind : GatherKind} {q : Pattern}
    {map : List (Nat × Nat)} {id : NodeId} {g' : Graph F}
    (h : g.gather kind operands q map = .ok (id, g')) {origin : Origin}
    (harranges : (∀ p ∈ patterns, p.WellFormed) → Pattern.Arranges patterns q map origin)
    {nrow ncol : Nat} (hshape : q.shape = (nrow, ncol)) (values : List F) :
    ∃ parts, operands.mapM matrix = some parts ∧
      parts.map DenseMatrix.shape = patterns.map Pattern.shape ∧
      (id, g') = g.push ⟨.gather kind map, operands, q⟩ ∧ q.WellFormed ∧
      Represents g matrix values ⟨.gather kind map, operands, q⟩
        (.arranged nrow ncol origin parts) := by
  obtain ⟨hwf, parts, hparts⟩ := hd.exists_parts hpatterns
  have harranges := harranges hwf
  obtain ⟨-, -, -, heq⟩ := Graph.gather_eq_ok h
  exact ⟨parts, hparts.matrices, hparts.shapes, heq, harranges.wellFormed,
    represents_gather hd hparts harranges hshape kind values⟩

section Movement

variable [OfScientific F] [Elementary F] [ElementText F] {added : NodeId × Graph F}

/-- A call has added a node, and the node represents the matrix that the call means. -/
def Build.Meant (call : Build F) (g : Graph F) (matrix : NodeId → Option (DenseMatrix F))
    (values : List F) (added : NodeId × Graph F) : Prop :=
  ∃ n m, added = g.push n ∧ call.matrix? matrix n.pattern values = some m ∧
    n.pattern.WellFormed ∧ Represents g matrix values n m

theorem meant_of_reshape
    (hd : g.Denotes inputs xs matrix) {a : NodeId} {nrow ncol : Nat}
    (h : g.build (.reshape a nrow ncol) = .ok added) (values : List F) :
    (Build.reshape a nrow ncol).Meant g matrix values added := by
  obtain ⟨p, hp, h⟩ := bind_eq_ok_iff.1 h
  obtain ⟨q, hq, h⟩ := bind_eq_ok_iff.1 h
  obtain ⟨m, hm, hshape, heq, hwf, hrep⟩ := represents_of_move hd hp h
    (fun hp => Pattern.arranges_reshape hp hq) (Pattern.shape_reshape hq) values
  refine ⟨_, _, heq, ?_, hwf, hrep⟩
  have hncol : m.ncol = p.ncol := congrArg Prod.snd hshape
  simp [Build.matrix?, hm, DenseMatrix.reshape, hncol]

theorem meant_of_transpose
    (hd : g.Denotes inputs xs matrix) {a : NodeId} (h : g.build (.transpose a) = .ok added)
    (values : List F) :
    (Build.transpose a).Meant g matrix values added := by
  obtain ⟨p, hp, h⟩ := bind_eq_ok_iff.1 h
  obtain ⟨m, hm, hshape, heq, hwf, hrep⟩ := represents_of_move hd hp h
    Pattern.arranges_transpose (Pattern.shape_transpose p) values
  refine ⟨_, _, heq, ?_, hwf, hrep⟩
  have hnrow : m.nrow = p.nrow := congrArg Prod.fst hshape
  have hncol : m.ncol = p.ncol := congrArg Prod.snd hshape
  simp [Build.matrix?, hm, DenseMatrix.transpose, hnrow, hncol]

theorem meant_of_slice
    (hd : g.Denotes inputs xs matrix) {a : NodeId} {rows cols : List Nat}
    (h : g.build (.slice a rows cols) = .ok added) (values : List F) :
    (Build.slice a rows cols).Meant g matrix values added := by
  obtain ⟨p, hp, h⟩ := bind_eq_ok_iff.1 h
  obtain ⟨⟨q, map⟩, hq, h⟩ := bind_eq_ok_iff.1 h
  obtain ⟨m, hm, -, heq, hwf, hrep⟩ := represents_of_move hd hp h
    (fun hp => Pattern.arranges_sub hp hq) (Pattern.shape_sub hq) values
  refine ⟨_, _, heq, ?_, hwf, hrep⟩
  simp [Build.matrix?, hm, DenseMatrix.slice]

theorem meant_of_horzcat
    (hd : g.Denotes inputs xs matrix) {operands : List NodeId}
    (h : g.build (.horzcat operands) = .ok added) (values : List F) :
    (Build.horzcat operands).Meant g matrix values added := by
  obtain ⟨patterns, hpatterns, h⟩ := bind_eq_ok_iff.1 h
  obtain ⟨q, hq, h⟩ := bind_eq_ok_iff.1 h
  obtain ⟨parts, hparts, hshapes, heq, hwf, hrep⟩ := represents_of_join hd hpatterns h
    (fun hwf => Pattern.arranges_horzcat hwf hq) (Pattern.shape_horzcat hq) values
  refine ⟨_, _, heq, ?_, hwf, hrep⟩
  simp [Build.matrix?, hparts, horzcat_eq_arranged hshapes]

theorem meant_of_vertcat
    (hd : g.Denotes inputs xs matrix) {operands : List NodeId}
    (h : g.build (.vertcat operands) = .ok added) (values : List F) :
    (Build.vertcat operands).Meant g matrix values added := by
  obtain ⟨patterns, hpatterns, h⟩ := bind_eq_ok_iff.1 h
  obtain ⟨q, hq, h⟩ := bind_eq_ok_iff.1 h
  obtain ⟨parts, hparts, hshapes, heq, hwf, hrep⟩ := represents_of_join hd hpatterns h
    (fun hwf => Pattern.arranges_vertcat hwf hq) (Pattern.shape_vertcat hq) values
  refine ⟨_, _, heq, ?_, hwf, hrep⟩
  simp [Build.matrix?, hparts, vertcat_eq_arranged hshapes]

end Movement

variable [Calculus.PreservesZero F] [OfScientific F] [Elementary F] [ElementText F]

omit [Elementary F] [ElementText F] in
/-- A call that pushes an operation on its operands. -/
theorem meant_of_pushNode
    (hd : g.Denotes inputs xs matrix) {call : Build F} {kind : NodeKind F}
    {operands : List NodeId} {id : NodeId} {g' : Graph F}
    (h : g.pushNode kind operands = .ok (id, g'))
    (hbroadcast : ∀ n ∈ g'.nodes, n.kind.isBroadcast = false) {values : List F}
    (hmatrix : ∀ p, call.matrix? matrix p values = kind.matrix? matrix operands) :
    call.Meant g matrix values (id, g') := by
  obtain ⟨p, m, heq, hm, hp, hrep⟩ := represents_of_pushNode hd h
    (isBroadcast_of_pushNode h hbroadcast) values
  exact ⟨_, m, heq, (hmatrix p).trans hm, hp, hrep⟩

/-- Every call without a broadcast and without a map of its own adds a represented node. -/
theorem meant_of_build
    (hd : g.Denotes inputs xs matrix) {call : Build F} {id : NodeId} {g' : Graph F}
    (h : g.build call = .ok (id, g'))
    (hleaf : ∀ p, call.leafPattern? = some p → p.WellFormed) (hgather : call.isGather = false)
    (hbroadcast : ∀ n ∈ g'.nodes, n.kind.isBroadcast = false) (values : List F) :
    call.Meant g matrix values (id, g') := by
  cases call with
  | symbol name p =>
      cases h
      exact ⟨_, _, rfl, rfl, hleaf p rfl, represents_symbol (hleaf p rfl) values name⟩
  | scalarSymbol name =>
      cases h
      exact ⟨_, _, rfl, rfl, Pattern.wellFormed_scalar,
        represents_symbol Pattern.wellFormed_scalar values name⟩
  | vectorSymbol name n =>
      obtain ⟨p, hp, h⟩ := bind_eq_ok_iff.1 h
      obtain ⟨hp, -⟩ := Pattern.dense_eq_ok hp
      cases h
      exact ⟨_, _, rfl, rfl, hp, represents_symbol hp values name⟩
  | matrixSymbol name nrow ncol =>
      obtain ⟨p, hp, h⟩ := bind_eq_ok_iff.1 h
      obtain ⟨hp, -⟩ := Pattern.dense_eq_ok hp
      cases h
      exact ⟨_, _, rfl, rfl, hp, represents_symbol hp values name⟩
  | constant p stored =>
      obtain ⟨_, -, h⟩ := bind_eq_ok_iff.1 h
      cases h
      exact ⟨_, _, rfl, rfl, hleaf p rfl, represents_constant (hleaf p rfl) stored values⟩
  | scalar value =>
      cases h
      exact ⟨_, _, rfl, rfl, Pattern.wellFormed_scalar,
        represents_constant Pattern.wellFormed_scalar #[value] values⟩
  | denseConstant nrow ncol stored =>
      obtain ⟨p, hp, h⟩ := bind_eq_ok_iff.1 h
      obtain ⟨hp, -⟩ := Pattern.dense_eq_ok hp
      obtain ⟨_, -, h⟩ := bind_eq_ok_iff.1 h
      cases h
      exact ⟨_, _, rfl, rfl, hp, represents_constant hp stored values⟩
  | push kind operands => exact meant_of_pushNode hd h hbroadcast fun _ => rfl
  | unary op a => exact meant_of_pushNode hd h hbroadcast fun _ => rfl
  | binary op a b =>
      obtain ⟨pa, -, h⟩ := bind_eq_ok_iff.1 h
      obtain ⟨pb, -, h⟩ := bind_eq_ok_iff.1 h
      rw [binaryKind_eq_binary (isBroadcast_of_pushNode h hbroadcast)] at h
      exact meant_of_pushNode hd h hbroadcast fun _ => rfl
  | scalarMatrix op s m => cases isBroadcast_of_pushNode h hbroadcast
  | matrixScalar op m s => cases isBroadcast_of_pushNode h hbroadcast
  | ifElse c a =>
      exact meant_of_pushNode hd (Graph.pushNode_of_ifElse h) hbroadcast fun _ => rfl
  | ifElseWithin c a tol =>
      exact meant_of_pushNode hd (Graph.pushNode_of_ifElse h) hbroadcast fun _ => rfl
  | reshape a nrow ncol => exact meant_of_reshape hd h values
  | transpose a => exact meant_of_transpose hd h values
  | slice a rows cols => exact meant_of_slice hd h values
  | horzcat operands => exact meant_of_horzcat hd h values
  | vertcat operands => exact meant_of_vertcat hd h values
  | gather kind operands p map => cases hgather

namespace Graph

omit [Calculus.PreservesZero F] in
theorem fst_foldl_buildMatrix
    (inputs : List NodeId) (xs : List (List F)) (calls : List (Build F))
    (s : Graph F × (NodeId → Option (DenseMatrix F))) :
    (calls.foldl (buildMatrix inputs xs) s).1 = s.1.buildAll calls := by
  induction calls generalizing s with
  | nil => rfl
  | cons call calls ih =>
      have hstep : (buildMatrix inputs xs s call).1 = s.1.buildOrKeep call := by
        unfold buildMatrix buildOrKeep
        cases s.1.build call with
        | error e => rfl
        | ok result => rfl
      rw [List.foldl_cons, ih, hstep]
      rfl

/-- The matrices represent the nodes, call by call. -/
theorem denotes_buildAll
    (calls : List (Build F))
    (hleaf : ∀ call ∈ calls, ∀ p, call.leafPattern? = some p → p.WellFormed)
    (hgather : ∀ call ∈ calls, call.isGather = false)
    (hbroadcast : ∀ n ∈ (empty.buildAll calls).nodes, n.kind.isBroadcast = false) :
    (empty.buildAll calls).Denotes inputs xs (matrices inputs xs calls) := by
  induction calls using List.reverseRecOn with
  | nil => exact ⟨fun n hn => by simp [buildAll, empty] at hn, fun id n hn => by
      simp [buildAll, empty] at hn⟩
  | append_singleton calls call ih =>
      have hstate : calls.foldl (buildMatrix inputs xs) (empty, fun _ => none) =
          (empty.buildAll calls, matrices inputs xs calls) :=
        Prod.ext (fst_foldl_buildMatrix ..) rfl
      have hgraph : empty.buildAll (calls ++ [call]) = (empty.buildAll calls).buildOrKeep call := by
        rw [buildAll, List.foldl_append]
        rfl
      have hmatrices : matrices inputs xs (calls ++ [call]) =
          (buildMatrix inputs xs (empty.buildAll calls, matrices inputs xs calls) call).2 := by
        rw [matrices, List.foldl_append, hstate]
        rfl
      have ih := ih (fun call hmem => hleaf call (List.mem_append_left _ hmem))
        fun call hmem => hgather call (List.mem_append_left _ hmem)
      rw [hgraph] at hbroadcast ⊢
      rw [hmatrices]
      unfold buildOrKeep at hbroadcast ⊢
      unfold buildMatrix
      cases hbuild : (empty.buildAll calls).build call with
      | error e =>
          simp only [hbuild] at hbroadcast ⊢
          exact ih hbroadcast
      | ok result =>
          obtain ⟨id, g'⟩ := result
          simp only [hbuild] at hbroadcast ⊢
          obtain ⟨n', hpush, -⟩ := adds_of_build hbuild
          have hd := ih fun n hn => hbroadcast n (by
            cases hpush
            exact Array.mem_push.2 (.inl hn))
          obtain ⟨n, m, heq, hm, hn, hrep⟩ := meant_of_build hd hbuild
            (hleaf call (by simp)) (hgather call (by simp)) hbroadcast
            ((inputValues? inputs xs id).getD [])
          cases heq
          have hadded := hd.push hn hrep
          have hget : ((empty.buildAll calls).push n).2.nodes[(empty.buildAll calls).size]? =
              some n := getElem?_push_nodes.2 (.inr ⟨rfl, rfl⟩)
          rw [← hm, ← Option.bind_some n fun n => call.matrix? _ n.pattern _, ← hget] at hadded
          exact hadded

end Graph

namespace Tape

variable [Add F] [Mul F] {outputs : List NodeId} {config : Config} {f : Tape F}

/--
The outputs of a compiled graph, filled with zeros, are the matrices that its builder calls
mean on dense matrices. No call may broadcast a scalar or bring a map of its own.
-/
theorem call_eq_dense
    {calls : List (Build F)}
    (hleaf : ∀ call ∈ calls, ∀ p, call.leafPattern? = some p → p.WellFormed)
    (hgather : ∀ call ∈ calls, call.isGather = false)
    (hbroadcast : ∀ n ∈ (Graph.empty.buildAll calls).nodes, n.kind.isBroadcast = false)
    (hcompile : compile (Graph.empty.buildAll calls) inputs outputs config = .ok f)
    {outs : List (List F)} (hcall : f.call xs = .ok outs) :
    outputs.mapM (Graph.matrices inputs xs calls) =
      some (List.zipWith (fun p ys => .ofSparse ⟨p, ys.toArray⟩) f.outputPatterns outs) := by
  have hbare := Graph.bareLeaves_buildAll calls Graph.bareLeaves_empty
  have hd : (Graph.empty.buildAll calls).Denotes inputs xs (Graph.matrices inputs xs calls) :=
    Graph.denotes_buildAll calls hleaf hgather hbroadcast
  obtain ⟨e, heval, rfl⟩ := map_eq_ok_iff.1 hcall
  obtain ⟨houtputs, -⟩ := evaluate_preserves_meaning hbare hd.wellFormed hcompile
    (Memory.wellSized_new _) heval
  obtain ⟨hlength, hvalues⟩ := getElem?_of_mapM_eq_some houtputs
  obtain ⟨order, h⟩ := compiled_of_compile hbare hcompile
  refine mapM_eq_some_of_getElem? ?_ fun i id hid => ?_
  · rw [List.length_zipWith, ← hlength, ← h.outputPatterns.length_eq, Nat.min_self]
  · obtain ⟨ys, hys, hnonzeros⟩ := hvalues i id hid
    obtain ⟨p, hp, n, hn, rfl⟩ := getElem?_of_forall₂_left h.outputPatterns hid
    obtain ⟨m, hm, hrep⟩ := hd.represents id n hn
    refine ⟨_, List.getElem?_zipWith_eq_some.2 ⟨n.pattern, ys, hp, hys, rfl⟩, ?_⟩
    rw [hm, hd.filled_eq ⟨hn, hm⟩ hnonzeros]

end Tape

instance : Calculus.PreservesZero Int where
  unary op h := by
    cases op with
    | recip | exp | ln | cos | acos | cosh => cases h
    | _ => rfl
  binary op h := by
    cases op with
    | div | pow => cases h
    | _ => rfl

/-- The squares of a diagonal matrix, repeated, and what becomes of them. -/
def repeatedSquares : List (Build Int) :=
  [.symbol "x" ⟨2, #[[0], [1]]⟩, .unary .sq 0, .slice 1 [1, 0, 1] [0, 0, 1], .unary .cos 2,
    .binary .sub 3 2, .transpose 2, .horzcat [2, 5], .reshape 6 2 9, .vertcat [4, 5],
    .slice 0 [0] [1], .ifElseWithin 9 4 1]

namespace Tape

/-- The joined squares, the stacked ones, and a select on a structural zero. -/
def repeatedSquares : Tape Int :=
  match compile (Graph.empty.buildAll SparseDiff.repeatedSquares) [0] [7, 8, 10] {} with
  | .ok f => f
  | .error _ => ⟨Graph.empty, #[], [], [], [], ⟨#[], 0⟩, ⟨#[], 0⟩, {}⟩

theorem compile_repeatedSquares :
    compile (Graph.empty.buildAll SparseDiff.repeatedSquares) [0] [7, 8, 10] {} =
      .ok repeatedSquares := by
  cbv

theorem call_eq_dense_repeatedSquares :
    ∃ outs, repeatedSquares.call [[2, 3]] = .ok outs ∧
      [7, 8, 10].mapM (Graph.matrices [0] [[2, 3]] SparseDiff.repeatedSquares) =
        some (List.zipWith (fun p ys => .ofSparse ⟨p, ys.toArray⟩) repeatedSquares.outputPatterns
          outs) := by
  obtain ⟨outs, houts⟩ : ∃ outs, repeatedSquares.call [[2, 3]] = .ok outs :=
    exists_eq_ok_of_isOk (by cbv)
  have hleaf : ∀ call ∈ SparseDiff.repeatedSquares, ∀ p, call.leafPattern? = some p →
      p.WellFormed := by
    intro call hcall p hp
    have hdiagonal : p = ⟨2, #[[0], [1]]⟩ := by
      simp only [SparseDiff.repeatedSquares, List.mem_cons, List.not_mem_nil, or_false] at hcall
      rcases hcall with rfl | rfl | rfl | rfl | rfl | rfl | rfl | rfl | rfl | rfl | rfl <;> cases hp
      rfl
    rw [hdiagonal]
    exact ⟨by simp, by simp⟩
  have hkinds : ((Graph.empty.buildAll SparseDiff.repeatedSquares).nodes.all
      fun n => !n.kind.isBroadcast) = true := by
    cbv
  have hbroadcast : ∀ n ∈ (Graph.empty.buildAll SparseDiff.repeatedSquares).nodes,
      n.kind.isBroadcast = false := by
    simpa only [Array.all_eq_true_iff_forall_mem, Bool.not_eq_true'] using hkinds
  exact ⟨outs, houts, call_eq_dense hleaf (by decide) hbroadcast compile_repeatedSquares houts⟩

end Tape

end SparseDiff
