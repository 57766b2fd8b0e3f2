import SparseDiff.Proofs.Kinks.Branches

/-!
# Signatures

Two recordings of one tape have the same kinks, so equal signatures say that every kink takes the
same side at both inputs. Then every absolute value, minimum, maximum and select follows one
formula at both, and one tape without these branches computes both outputs
(`Tape.signature_pieces`). Of a step the side tells less than its value: of a sign, whether the
operand is at least zero, and of a rounding, in which half of a unit the operand lies
(`Tape.signature_misses_steps`).
-/

namespace SparseDiff

variable {F : Type}

theorem Side.ofTest_inj
    {p q : Bool} :
    ofTest p = ofTest q ↔ p = q := by
  cases p <;> cases q <;> simp [ofTest]

namespace Cell

variable [Zero F] [One F] [Add F] [Sub F] [Div F] [Elementary F]

/-- The comparison that decides the side of a cell ends alike in two arrays. -/
def SamePiece (w w' : Array F) : Cell F → Prop
  | unary .abs a | unary .sign a =>
      Elementary.le 0 (readSlot w a) = Elementary.le 0 (readSlot w' a)
  | unary .floor a | unary .ceil a =>
      Elementary.lt (readSlot w a - Elementary.floor (readSlot w a)) (1 / (1 + 1)) =
        Elementary.lt (readSlot w' a - Elementary.floor (readSlot w' a)) (1 / (1 + 1))
  | binary .min a b =>
      Elementary.le (readSlot w a) (readSlot w b) = Elementary.le (readSlot w' a) (readSlot w' b)
  | binary .max a b =>
      Elementary.le (readSlot w b) (readSlot w a) = Elementary.le (readSlot w' b) (readSlot w' a)
  | select tol cond _ =>
      Elementary.lt (Elementary.abs (readSlot w cond)) tol =
        Elementary.lt (Elementary.abs (readSlot w' cond)) tol
  | _ => True

theorem samePiece_of_side_eq
    {w w' : Array F} {c : Cell F} (h : (c.taken w).2 = (c.taken w').2) :
    c.SamePiece w w' := by
  cases c with
  | unary op a =>
      cases op with
      | abs | sign | floor | ceil => exact Side.ofTest_inj.1 h
      | _ => exact trivial
  | binary op a b =>
      cases op with
      | min | max => exact Side.ofTest_inj.1 h
      | _ => exact trivial
  | select tol cond source => exact Side.ofTest_inj.1 h
  | _ => exact trivial

/-- Cells that take one side follow one formula. -/
theorem exists_replaces_of_side_eq
    [Neg F] [Mul F] [Elementary.Signed F] {w w' : Array F} {c : Cell F}
    (h : (c.taken w).2 = (c.taken w').2) :
    ∃ side, c.Replaces w (c.take side) ∧ c.Replaces w' (c.take side) :=
  ⟨(c.taken w).2, c.replaces_take w, h ▸ c.replaces_take w'⟩

end Cell

namespace Tape

section Pieces

variable [Zero F] [One F] [Add F] [Sub F] [Neg F] [Mul F] [Div F] [Elementary F]
variable {f : Tape F} {xs xs' : List (List F)} {ks ks' : Kinks F}

/-- Equal signatures are equal sides at every kink of the trace. -/
theorem Recorded.side_eq
    {m m' : Memory F} (h : f.Recorded xs ks m) (h' : f.Recorded xs' ks' m')
    (hsignature : ks.signature = ks'.signature) {c : Cell F} (hc : c ∈ f.trace)
    (hkink : c.kinkOp?.isSome = true) :
    (c.taken (f.valueArray xs)).2 = (c.taken (f.valueArray xs')).2 := by
  rw [h.signature_eq, h'.signature_eq] at hsignature
  exact List.map_inj_left.1 hsignature c (List.mem_filter.2 ⟨hc, hkink⟩)

/--
At two inputs with equal signatures, the comparisons at every kink end alike. So every kink follows
one formula at both, and one tape without branches but steps computes both outputs.
-/
theorem signature_pieces
    [ElementText F] {g : Graph F} {inputs outputs : List NodeId} {config : Config}
    (hbare : g.BareLeaves) (hcompile : compile g inputs outputs config = .ok f)
    (hks : f.kinks xs = .ok ks) (hks' : f.kinks xs' = .ok ks')
    (hsignature : ks.signature = ks'.signature) :
    (∀ c ∈ f.trace, c.kinkOp?.isSome = true →
      c.SamePiece (f.valueArray xs) (f.valueArray xs')) ∧
    ∀ [Elementary.Signed F],
      (∀ c ∈ f.trace, c.kinkOp?.isSome = true →
        ∃ side, c.Replaces (f.valueArray xs) (c.take side) ∧
          c.Replaces (f.valueArray xs') (c.take side)) ∧
      ∃ tape ys ys', f.smoothTape ks.signature = .ok tape ∧ BranchFree tape ∧
        f.callOn tape xs = .ok ys ∧ f.call xs = .ok ys ∧
        f.callOn tape xs' = .ok ys' ∧ f.call xs' = .ok ys' := by
  obtain ⟨_, h⟩ := compiled_of_compile hbare hcompile
  have hf := h.wellFormed
  obtain ⟨_, hrec⟩ := exists_recorded hf hks
  obtain ⟨_, hrec'⟩ := exists_recorded hf hks'
  have hside := fun c (hc : c ∈ f.trace) => hrec.side_eq hrec' hsignature hc
  constructor
  · intro c hc hkink
    exact Cell.samePiece_of_side_eq (hside c hc hkink)
  intro _
  constructor
  · intro c hc hkink
    exact Cell.exists_replaces_of_side_eq (hside c hc hkink)
  have htape := hrec.smoothTape_eq hf
  have htape' := hrec'.smoothTape_eq hf
  -- the tape is made from the signature, so both points have the same
  rw [← hsignature, htape] at htape'
  have hcall := hrec.call_eq hf
  have hcall' := hrec'.call_eq hf
  refine ⟨_, _, _, htape, branchFree_replace_take _ _, (hrec.callOn_smooth hf).trans hcall, hcall,
    ?_, hcall'⟩
  rw [Except.ok.inj htape', hrec'.callOn_smooth hf, hcall']

end Pieces

theorem signature_pieces_clipping :
    ∃ ks ks' tape, clipping.kinks [[-1 / 2, 3], [2]] = .ok ks ∧
      clipping.kinks [[-1, 7], [3 / 2]] = .ok ks' ∧ ks.signature = ks'.signature ∧
      BranchFree tape ∧ clipping.callOn tape [[-1 / 2, 3], [2]] = .ok [[1 / 2, 2], [-1, 1]] ∧
      clipping.callOn tape [[-1, 7], [3 / 2]] = .ok [[1, 3 / 2], [-1, 1]] := by
  obtain ⟨ks, hks⟩ := exists_eq_ok_of_isOk (x := clipping.kinks [[-1 / 2, 3], [2]])
    (by decide +kernel)
  obtain ⟨ks', hks'⟩ := exists_eq_ok_of_isOk (x := clipping.kinks [[-1, 7], [3 / 2]])
    (by decide +kernel)
  have hsame : (clipping.kinks [[-1 / 2, 3], [2]]).map Kinks.signature =
      (clipping.kinks [[-1, 7], [3 / 2]]).map Kinks.signature := by decide +kernel
  rw [hks, hks'] at hsame
  have hsignature : ks.signature = ks'.signature := Except.ok.inj hsame
  obtain ⟨-, hpieces⟩ :=
    signature_pieces bareLeaves_clippingGraph compile_clipping hks hks' hsignature
  obtain ⟨-, tape, ys, ys', -, hfree, hon, hcall, hon', hcall'⟩ := hpieces
  have houtputs : clipping.call [[-1 / 2, 3], [2]] = .ok [[1 / 2, 2], [-1, 1]] := by decide +kernel
  have houtputs' : clipping.call [[-1, 7], [3 / 2]] = .ok [[1, 3 / 2], [-1, 1]] := by decide +kernel
  exact ⟨ks, ks', tape, hks, hks', hsignature, hfree, hon.trans (hcall.symm.trans houtputs),
    hon'.trans (hcall'.symm.trans houtputs')⟩

/-- The graph of a sign and of a rounding. -/
def steppingGraph : Graph Fraction :=
  ⟨#[⟨.symbolic "x", [], ⟨1, #[[0]]⟩⟩, ⟨.symbolic "y", [], ⟨1, #[[0]]⟩⟩,
    ⟨.unary .sign, [0], ⟨1, #[[0]]⟩⟩, ⟨.unary .floor, [1], ⟨1, #[[0]]⟩⟩]⟩

/-- Its tape. -/
def stepping : Tape Fraction :=
  ⟨steppingGraph,
    #[⟨0, .input 0 [], 1⟩, ⟨1, .input 1 [], 1⟩, ⟨2, .unary .sign ⟨0, .same⟩, 1⟩,
      ⟨3, .unary .floor ⟨1, .same⟩, 1⟩],
    [2, 3], [⟨1, #[[0]]⟩, ⟨1, #[[0]]⟩], [⟨1, #[[0]]⟩, ⟨1, #[[0]]⟩],
    ⟨#[0, 1, 2, 3], 4⟩, ⟨#[0, 1, 2, 0], 3⟩, {}⟩

/-- Zero and one have one side, and so have numbers a unit apart; their steps differ. -/
theorem signature_misses_steps :
    steppingGraph.BareLeaves ∧ compile steppingGraph [0, 1] [2, 3] {} = .ok stepping ∧
      (stepping.kinks [[0], [1 / 4]]).map Kinks.signature = .ok [.upper, .upper] ∧
      (stepping.kinks [[1], [5 / 4]]).map Kinks.signature = .ok [.upper, .upper] ∧
      stepping.call [[0], [1 / 4]] = .ok [[0], [0]] ∧
      stepping.call [[1], [5 / 4]] = .ok [[1], [1]] := by
  refine ⟨by simp [Graph.BareLeaves, steppingGraph, NodeKind.isSymbolic], by cbv, ?_, ?_, ?_, ?_⟩
  · decide +kernel
  · decide +kernel
  · decide +kernel
  · decide +kernel

end Tape

end SparseDiff
