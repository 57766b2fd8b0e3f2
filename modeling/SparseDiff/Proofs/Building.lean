import SparseDiff.Graph.Arena
import SparseDiff.Proofs.Exact

/-!
# Graphs that builder calls make

An accepted call adds one node, whose operands are there already and which fits them
(`Graph.adds_of_build`). Later nodes do not change that, so every node of a graph that
grew from nothing fits its operands (`Graph.Sound.buildAll`). Done in place, a call is one look
at the graph after the other and at most one node at the end: whatever refuses it, nothing has
been added yet (`Arena.endsAs_perform`).
-/

namespace SparseDiff

variable {F : Type}

/--
What a node carries fits the patterns of its operands: an operation has the pattern that they
imply, a constant a value for each of its nonzeros, and a gather an entry for each, which names
an operand and one of its nonzeros.
-/
def Node.Fits (n : Node F) (operands : List Pattern) : Prop :=
  match n.kind with
  | .symbolic _ => True
  | .constant values => values.size = n.pattern.nnz
  | .gather _ map => map.length = n.pattern.nnz ∧
      ∀ move ∈ map, ∃ p, operands[move.1]? = some p ∧ move.2 < p.nnz
  | _ => inferPattern n.kind operands = .ok (some n.pattern)

/-- Node `id` reads earlier nodes, as many as its kind takes, and fits them. -/
structure Node.SoundAt (g : Graph F) (id : NodeId) (n : Node F) : Prop where
  operand_lt : ∀ d ∈ n.operands, d < id
  arity : ∀ k, n.kind.arity? = some k → n.operands.length = k
  fits : ∃ patterns, n.operands.mapM g.pattern = .ok patterns ∧ n.Fits patterns

/-- Every node of the graph is sound. -/
def Graph.Sound (g : Graph F) : Prop :=
  ∀ id (n : Node F), g.nodes[id]? = some n → n.SoundAt g id

/-- The tolerance of a select, if the check rejects it. -/
def NodeKind.rejectedTolerance? [Zero F] [Elementary F] : NodeKind F → Option F
  | ifElse tol => if Graph.isTolerance tol then none else some tol
  | _ => none

section Operations

variable {kind : NodeKind F} {patterns : List Pattern} {p : Pattern}

/-- Inference takes as many patterns as the kind has operands. -/
theorem arity_of_infer
    (h : inferPattern kind patterns = .ok (some p)) :
    kind.arity? = some patterns.length := by
  unfold inferPattern at h
  split at h
  all_goals first | rfl | cases h

/-- A node with an inferred pattern is an operation and fits. -/
theorem fits_of_infer
    (h : inferPattern kind patterns = .ok (some p)) (operands : List NodeId) :
    Node.Fits ⟨kind, operands, p⟩ patterns := by
  cases kind with
  | symbolic | constant | gather => simp [inferPattern] at h
  | unary | binary | scalarMatrix | matrixScalar | ifElse => exact h

end Operations

namespace Graph

variable {g g' : Graph F} {id : NodeId} {operands : List NodeId}

theorem getElem?_push_nodes
    {n n' : Node F} :
    (g.push n).2.nodes[id]? = some n' ↔ g.nodes[id]? = some n' ∨ id = g.size ∧ n = n' := by
  simp only [Graph.push, Graph.size, Array.getElem?_push]
  grind

/-- Nodes with patterns keep them. -/
theorem mapM_pattern_push
    {patterns : List Pattern} (h : operands.mapM g.pattern = .ok patterns) (n : Node F) :
    operands.mapM (g.push n).2.pattern = .ok patterns := by
  rw [mapM_eq_ok_iff] at h ⊢
  refine h.imp fun d p hp => ?_
  obtain ⟨old, hold, hpattern⟩ := pattern_eq_ok_iff.1 hp
  exact pattern_eq_ok_iff.2 ⟨old, getElem?_push_nodes.2 (.inl hold), hpattern⟩

/-- Nodes with patterns are in the graph. -/
theorem lt_size_of_mapM_pattern
    {patterns : List Pattern} (h : operands.mapM g.pattern = .ok patterns) :
    ∀ d ∈ operands, d < g.size := by
  intro d hd
  obtain ⟨j, hj⟩ := List.mem_iff_getElem?.1 hd
  obtain ⟨p, -, hp⟩ := getElem?_of_mapM h hj
  obtain ⟨n, hn, -⟩ := pattern_eq_ok_iff.1 hp
  exact (Array.getElem?_eq_some_iff.1 hn).1

end Graph

theorem Node.SoundAt.push
    {g : Graph F} {id : NodeId} {n : Node F} (h : n.SoundAt g id) (new : Node F) :
    n.SoundAt (g.push new).2 id := by
  obtain ⟨patterns, hpatterns, hfits⟩ := h.fits
  exact ⟨h.operand_lt, h.arity, patterns, Graph.mapM_pattern_push hpatterns new, hfits⟩

/-- No kind of leaf takes an operand. -/
theorem Node.SoundAt.bare
    {g : Graph F} {id : NodeId} {n : Node F} (h : n.SoundAt g id)
    (hsym : n.kind.isSymbolic = true) :
    n.operands = [] := by
  refine List.length_eq_zero_iff.1 (h.arity 0 ?_)
  cases hkind : n.kind with
  | symbolic name => rfl
  | _ => simp [hkind, NodeKind.isSymbolic] at hsym

namespace Graph

variable {g g' : Graph F} {id : NodeId} {operands : List NodeId}

theorem sound_empty :
    (empty : Graph F).Sound := by
  intro id n hn
  cases hn

/-- A sound node at the end leaves all nodes sound. -/
theorem Sound.push
    (h : g.Sound) {new : Node F} (hnew : new.SoundAt g g.size) :
    (g.push new).2.Sound := by
  intro id n hn
  rcases getElem?_push_nodes.1 hn with hold | ⟨rfl, rfl⟩
  · exact (h id n hold).push new
  · exact hnew.push new

theorem constant_eq_ok
    {p : Pattern} {values : Array F} (h : g.constant p values = .ok (id, g')) :
    values.size = p.nnz ∧ (id, g') = g.push ⟨.constant values, [], p⟩ := by
  obtain ⟨_, hcheck, h⟩ := bind_eq_ok_iff.1 h
  cases h
  unfold checkConstant at hcheck
  split at hcheck
  · cases hcheck
  · next hsize => exact ⟨not_not.1 hsize, rfl⟩

theorem pushNode_eq_ok
    {kind : NodeKind F} (h : g.pushNode kind operands = .ok (id, g')) :
    ∃ patterns p, operands.mapM g.pattern = .ok patterns ∧
      inferPattern kind patterns = .ok (some p) ∧ (id, g') = g.push ⟨kind, operands, p⟩ := by
  obtain ⟨_, -, h⟩ := bind_eq_ok_iff.1 h
  obtain ⟨patterns, hpatterns, h⟩ := bind_eq_ok_iff.1 h
  obtain ⟨inferred, hinfer, h⟩ := bind_eq_ok_iff.1 h
  cases inferred with
  | none => cases h
  | some p =>
      cases h
      exact ⟨patterns, p, hpatterns, hinfer, rfl⟩

theorem gather_eq_ok
    {kind : GatherKind} {p : Pattern} {map : List (Nat × Nat)}
    (h : g.gather kind operands p map = .ok (id, g')) :
    ∃ patterns, operands.mapM g.pattern = .ok patterns ∧
      Node.Fits (F := F) ⟨.gather kind map, operands, p⟩ patterns ∧
      (id, g') = g.push ⟨.gather kind map, operands, p⟩ := by
  obtain ⟨patterns, hpatterns, h⟩ := bind_eq_ok_iff.1 h
  obtain ⟨_, hcheck, h⟩ := bind_eq_ok_iff.1 h
  cases h
  unfold checkGather at hcheck
  split at hcheck
  · cases hcheck
  · next hlength =>
      exact ⟨patterns, hpatterns, ⟨not_not.1 hlength, mem_of_checkMoves hcheck⟩, rfl⟩

theorem pushNode_of_ifElse
    [Zero F] [Elementary F] [ElementText F] {c a : NodeId} {tol : F}
    (h : g.ifElse c a tol = .ok (id, g')) :
    g.pushNode (.ifElse tol) [c, a] = .ok (id, g') := by
  unfold Graph.ifElse at h
  split at h
  · exact h
  · cases h

variable [Zero F] [Elementary F]

/-- What an accepted call adds, by kind of node. -/
inductive Adds (g : Graph F) (call : Build F) : Node F → Prop
  | symbol (name : String) (p : Pattern) : g.Adds call ⟨.symbolic name, [], p⟩
  | constant {values : Array F} {p : Pattern} (hsize : values.size = p.nnz) :
      g.Adds call ⟨.constant values, [], p⟩
  /-- The tolerance of a select is looked at, unless the node is pushed as it is. -/
  | operation {kind : NodeKind F} {operands : List NodeId} {patterns : List Pattern} {p : Pattern}
      (hpatterns : operands.mapM g.pattern = .ok patterns)
      (hinfer : inferPattern kind patterns = .ok (some p))
      (htol : kind.rejectedTolerance? = none ∨ call = .push kind operands) :
      g.Adds call ⟨kind, operands, p⟩
  | gather {kind : GatherKind} {map : List (Nat × Nat)} {operands : List NodeId}
      {patterns : List Pattern} {p : Pattern} (hpatterns : operands.mapM g.pattern = .ok patterns)
      (hfits : Node.Fits (F := F) ⟨.gather kind map, operands, p⟩ patterns) :
      g.Adds call ⟨.gather kind map, operands, p⟩

variable {call : Build F} {n : Node F}

theorem Adds.soundAt
    (h : g.Adds call n) :
    n.SoundAt g g.size := by
  cases h with
  | symbol name p => exact ⟨by simp, fun k hk => Option.some.inj hk, [], rfl, trivial⟩
  | constant hsize => exact ⟨by simp, fun k hk => Option.some.inj hk, [], rfl, hsize⟩
  | operation hpatterns hinfer htol =>
      refine ⟨lt_size_of_mapM_pattern hpatterns, fun k hk => ?_, _, hpatterns,
        fits_of_infer hinfer _⟩
      cases (arity_of_infer hinfer).symm.trans hk
      exact (length_of_mapM hpatterns).symm
  | gather hpatterns hfits =>
      exact ⟨lt_size_of_mapM_pattern hpatterns, fun k hk => (by cases hk), _, hpatterns, hfits⟩

theorem Adds.rejectedTolerance
    (h : g.Adds call n) :
    n.kind.rejectedTolerance? = none ∨ ∃ operands, call = .push n.kind operands := by
  cases h with
  | symbol | constant | gather => exact .inl rfl
  | operation _ _ htol => exact htol.imp_right fun h => ⟨_, h⟩

theorem adds_of_constant
    {p : Pattern} {values : Array F} (h : g.constant p values = .ok (id, g')) :
    ∃ n, (id, g') = g.push n ∧ g.Adds call n := by
  obtain ⟨hsize, heq⟩ := constant_eq_ok h
  exact ⟨_, heq, .constant hsize⟩

theorem adds_of_pushNode
    {kind : NodeKind F} (h : g.pushNode kind operands = .ok (id, g'))
    (htol : kind.rejectedTolerance? = none ∨ call = .push kind operands) :
    ∃ n, (id, g') = g.push n ∧ g.Adds call n := by
  obtain ⟨patterns, p, hpatterns, hinfer, heq⟩ := pushNode_eq_ok h
  exact ⟨_, heq, .operation hpatterns hinfer htol⟩

theorem adds_of_gather
    {kind : GatherKind} {p : Pattern} {map : List (Nat × Nat)}
    (h : g.gather kind operands p map = .ok (id, g')) :
    ∃ n, (id, g') = g.push n ∧ g.Adds call n := by
  obtain ⟨patterns, hpatterns, hfits, heq⟩ := gather_eq_ok h
  exact ⟨_, heq, .gather hpatterns hfits⟩

theorem rejectedTolerance_binaryKind
    (op : BinaryOp) (a b : Pattern) :
    (binaryKind op a b : NodeKind F).rejectedTolerance? = none := by
  unfold binaryKind
  split_ifs <;> rfl

variable [ElementText F]

theorem adds_of_ifElse
    {c a : NodeId} {tol : F} (h : g.ifElse c a tol = .ok (id, g')) :
    ∃ n, (id, g') = g.push n ∧ g.Adds call n := by
  unfold Graph.ifElse at h
  split at h
  · next hpassed => exact adds_of_pushNode h (.inl (if_pos hpassed))
  · cases h

variable [OfScientific F]

/-- An accepted call adds one node at the end. -/
theorem adds_of_build
    (h : g.build call = .ok (id, g')) :
    ∃ n, (id, g') = g.push n ∧ g.Adds call n := by
  cases call with
  | symbol name p => exact ⟨_, (Except.ok.inj h).symm, .symbol name p⟩
  | scalarSymbol name => exact ⟨_, (Except.ok.inj h).symm, .symbol name _⟩
  | vectorSymbol name | matrixSymbol name =>
      obtain ⟨p, -, h⟩ := bind_eq_ok_iff.1 h
      exact ⟨_, (Except.ok.inj h).symm, .symbol name p⟩
  | scalar value => exact ⟨_, (Except.ok.inj h).symm, .constant rfl⟩
  | constant => exact adds_of_constant h
  | denseConstant =>
      obtain ⟨p, -, h⟩ := bind_eq_ok_iff.1 h
      exact adds_of_constant h
  | push => exact adds_of_pushNode h (.inr rfl)
  | unary | scalarMatrix | matrixScalar => exact adds_of_pushNode h (.inl rfl)
  | binary op a b =>
      obtain ⟨pa, -, h⟩ := bind_eq_ok_iff.1 h
      obtain ⟨pb, -, h⟩ := bind_eq_ok_iff.1 h
      exact adds_of_pushNode h (.inl (rejectedTolerance_binaryKind op pa pb))
  | ifElse | ifElseWithin => exact adds_of_ifElse h
  | transpose =>
      obtain ⟨p, -, h⟩ := bind_eq_ok_iff.1 h
      exact adds_of_gather h
  | reshape | slice | horzcat | vertcat =>
      obtain ⟨_, -, h⟩ := bind_eq_ok_iff.1 h
      obtain ⟨_, -, h⟩ := bind_eq_ok_iff.1 h
      exact adds_of_gather h
  | gather => exact adds_of_gather h

/-- A call keeps what the node that it adds keeps. -/
theorem buildOrKeep_induction
    {P : Graph F → Prop} (h : P g) (hpush : ∀ n, g.Adds call n → P (g.push n).2) :
    P (g.buildOrKeep call) := by
  unfold buildOrKeep
  cases hbuild : g.build call with
  | error e => exact h
  | ok result =>
      obtain ⟨id, g'⟩ := result
      obtain ⟨n, heq, hn⟩ := adds_of_build hbuild
      cases heq
      exact hpush n hn

/-- Builder calls keep all nodes sound. -/
theorem Sound.buildAll
    (h : g.Sound) (calls : List (Build F)) :
    (g.buildAll calls).Sound :=
  List.foldlRecOn calls _ h fun _ h _ _ =>
    buildOrKeep_induction h fun _ hn => h.push hn.soundAt

/-- Leaves are bare in every graph that builder calls make. -/
theorem bareLeaves_buildAll
    (calls : List (Build F)) (h : g.BareLeaves) :
    (g.buildAll calls).BareLeaves :=
  List.foldlRecOn calls _ h fun _ h _ _ =>
    buildOrKeep_induction h fun _ hn => h.push hn.soundAt.bare

end Graph

namespace Arena

variable {α β : Type} {g : Graph F}

/-- From `g` the computation ends like `y`: with its result and its graph, or refused with `g`. -/
def EndsAs (x : Arena F α) (g : Graph F) (y : Except Error (α × Graph F)) : Prop :=
  x.run.run g = match y with
    | .ok (a, g') => (.ok a, g')
    | .error e => (.error e, g)

theorem endsAs_append
    (n : Node F) :
    EndsAs (append n) g (.ok (g.push n)) :=
  rfl

theorem endsAs_refuse
    (reason : NodeId → Error) :
    EndsAs (refuse reason : Arena F α) g (.error (reason g.size)) :=
  rfl

/-- What only looks may refuse, and goes on from the same graph if it does not. -/
theorem EndsAs.after_look
    {read : Graph F → Except Error α} {next : α → Arena F β}
    {next' : α → Except Error (β × Graph F)} (h : ∀ a, EndsAs (next a) g (next' a)) :
    EndsAs (look read >>= next) g (read g >>= next') := by
  have hrun : (look read >>= next).run.run g = ((ofExcept (read g)) >>= next).run.run g := rfl
  unfold EndsAs
  rw [hrun]
  cases hread : read g with
  | error e => rfl
  | ok a => exact h a

theorem EndsAs.after_check
    {x : Except Error α} {next : α → Arena F β} {next' : α → Except Error (β × Graph F)}
    (h : ∀ a, EndsAs (next a) g (next' a)) :
    EndsAs (ofExcept x >>= next) g (x >>= next') := by
  have hlook : EndsAs (look (fun _ => x) >>= next) g (x >>= next') := EndsAs.after_look h
  exact hlook

theorem endsAs_constant
    (p : Pattern) (values : Array F) :
    EndsAs (constant p values) g (g.constant p values) :=
  EndsAs.after_check fun _ => endsAs_append _

theorem endsAs_pushNode
    (kind : NodeKind F) (operands : List NodeId) :
    EndsAs (pushNode kind operands) g (g.pushNode kind operands) := by
  refine EndsAs.after_check fun _ => EndsAs.after_look fun _ =>
    EndsAs.after_check fun inferred => ?_
  cases inferred with
  | none => exact endsAs_refuse _
  | some p => exact endsAs_append _

theorem endsAs_gather
    (kind : GatherKind) (operands : List NodeId) (p : Pattern) (map : List (Nat × Nat)) :
    EndsAs (gather kind operands p map) g (g.gather kind operands p map) :=
  EndsAs.after_look fun _ => EndsAs.after_look fun _ => endsAs_append _

theorem endsAs_ifElse
    [Zero F] [Elementary F] [ElementText F] (c a : NodeId) (tol : F) :
    EndsAs (ifElse c a tol) g (g.ifElse c a tol) := by
  unfold ifElse Graph.ifElse
  split
  · exact endsAs_pushNode ..
  · exact endsAs_refuse _

variable [Zero F] [OfScientific F] [Elementary F] [ElementText F]

/-- A call in place ends like the call on a graph of its own; a refused one has added nothing. -/
theorem endsAs_perform
    (call : Build F) (g : Graph F) :
    EndsAs (perform call) g (g.build call) := by
  cases call with
  | symbol | scalarSymbol | scalar => exact endsAs_append _
  | vectorSymbol | matrixSymbol => exact EndsAs.after_check fun _ => endsAs_append _
  | constant => exact endsAs_constant ..
  | denseConstant => exact EndsAs.after_check fun _ => endsAs_constant ..
  | push | unary | scalarMatrix | matrixScalar => exact endsAs_pushNode ..
  | binary => exact EndsAs.after_look fun _ => EndsAs.after_look fun _ => endsAs_pushNode ..
  | ifElse | ifElseWithin => exact endsAs_ifElse ..
  | reshape | slice => exact EndsAs.after_look fun _ => EndsAs.after_check fun _ => endsAs_gather ..
  | transpose => exact EndsAs.after_look fun _ => endsAs_gather ..
  | horzcat | vertcat =>
      exact EndsAs.after_look fun _ => EndsAs.after_check fun _ => endsAs_gather ..
  | gather => exact endsAs_gather ..

/-- A call in place is refused and has added nothing, or it adds one sound node at the end. -/
theorem perform_cases
    (call : Build F) (g : Graph F) :
    (∃ e, (perform call).run.run g = (.error e, g)) ∨
      ∃ n, (perform call).run.run g = (.ok g.size, (g.push n).2) ∧ n.SoundAt g g.size := by
  rw [endsAs_perform call g]
  cases hbuild : g.build call with
  | error e => exact .inl ⟨e, rfl⟩
  | ok result =>
      obtain ⟨id, g'⟩ := result
      obtain ⟨n, heq, hn⟩ := Graph.adds_of_build hbuild
      cases heq
      exact .inr ⟨n, rfl, hn.soundAt⟩

/-- One call after the other, in place, makes the graph that the calls make. -/
theorem performAll_eq_buildAll
    (calls : List (Build F)) (g : Graph F) :
    ((performAll calls).run g).2 = g.buildAll calls := by
  induction calls generalizing g with
  | nil => rfl
  | cons call calls ih =>
      have hstep : ((perform call).run.run g).2 = g.buildOrKeep call := by
        rw [endsAs_perform call g]
        unfold Graph.buildOrKeep
        cases g.build call <;> rfl
      calc ((performAll (call :: calls)).run g).2
          = ((performAll calls).run ((perform call).run.run g).2).2 := by
            rw [performAll, List.mapM_cons]
            rfl
        _ = (g.buildOrKeep call).buildAll calls := by rw [hstep, ih]
        _ = g.buildAll (call :: calls) := rfl

/--
Calls in place on a graph that was empty at first, refused ones included: all its nodes are
sound. The next call either is refused and leaves the graph exactly as it was, or it returns the
id of the one node that it has added at the end.
-/
theorem building_sound
    (calls : List (Build F)) (call : Build F) :
    let g := ((performAll calls).run Graph.empty).2
    g.Sound ∧
      (∀ e g', (perform call).run.run g = (.error e, g') → g' = g) ∧
      ∀ id g', (perform call).run.run g = (.ok id, g') →
        id = g.size ∧ g'.size = g.size + 1 ∧ ∀ i < g.size, g'.nodes[i]? = g.nodes[i]? := by
  intro g
  have hsound : g.Sound := by
    have hgrown := Graph.sound_empty.buildAll calls
    rwa [← performAll_eq_buildAll] at hgrown
  refine ⟨hsound, fun e g' h => ?_, fun id g' h => ?_⟩
  · rcases perform_cases call g with ⟨_, hrefused⟩ | ⟨n, hadded, -⟩
    · cases hrefused.symm.trans h
      rfl
    · cases hadded.symm.trans h
  · rcases perform_cases call g with ⟨_, hrefused⟩ | ⟨n, hadded, -⟩
    · cases hrefused.symm.trans h
    · cases hadded.symm.trans h
      refine ⟨rfl, Array.size_push n, fun i hi => ?_⟩
      exact (Array.getElem?_push ..).trans (if_neg (Nat.ne_of_lt hi))

/-- A leaf, an operand that is not there, and an operation that is accepted. -/
def attempts : List (Build Int) :=
  [.scalarSymbol "x", .unary .sin 7, .unary .sin 0]

theorem building_sound_attempts :
    let g := ((performAll attempts).run Graph.empty).2
    g.Sound ∧ g.size = 2 ∧
      ((perform (.reshape 0 2 2)).run.run g).2 = g ∧
      ((perform (.transpose 1)).run.run g).2.size = 3 := by
  intro g
  have hrefused : ((perform (.reshape 0 2 2)).run.run g).1 =
      .error (.dimension "Sparsity::reshape" (.mismatch .elementCount 1 4)) := by cbv
  have hadded : ((perform (.transpose 1)).run.run g).1 = .ok 2 := by cbv
  obtain ⟨hsound, hkept, -⟩ := building_sound attempts (.reshape 0 2 2)
  obtain ⟨-, -, hone⟩ := building_sound attempts (.transpose 1)
  have hsize : g.size = 2 := by cbv
  refine ⟨hsound, hsize, hkept _ _ (Prod.ext hrefused rfl), ?_⟩
  rw [(hone _ _ (Prod.ext hadded rfl)).2.1, show Graph.size _ = 2 from hsize]

end Arena

end SparseDiff
