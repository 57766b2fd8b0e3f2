import SparseDiff.Proofs.Checked.Forward
import SparseDiff.Proofs.Meaning
import SparseDiff.Proofs.Seeds

/-!
# Checks under both layouts

All inputs are loaded before the first check. The compact layout releases an input that
nothing uses as soon as it is placed, so a later input of as many nonzeros takes its slots, and
the check of the first finds the numbers of the second. Where no input is in this position
(`Tape.InputsApart`), a checked evaluation finds the own numbers of every element in either
layout: it is refused for the same element, the first in tape order with a value or a tangent
that is not finite.
-/

namespace SparseDiff

variable {F : Type}

namespace Tape

/-- The element at `p` is an output, or an element reads it. -/
def Used (f : Tape F) (p : Nat) : Prop :=
  p ∈ f.outputs ∨ ∃ (r : Nat) (e : Element F), f.elements[r]? = some e ∧ p ∈ e.instr.reads

/-- Every input with nonzeros is used that stands before another of as many nonzeros. -/
def InputsApart (f : Tape F) : Prop :=
  ∀ i j : Nat, i < j → j < f.nIn → f.inputLength i = f.inputLength j → 0 < f.inputLength i →
    f.Used i

variable {f : Tape F}

/-- What is used is needed when the inputs are placed: no input reads another element. -/
theorem WellFormed.live_of_used
    (hf : f.WellFormed) {i j : Nat} (hj : j < f.nIn) (h : f.Used i) :
    Layout.Live f.spans (· ∈ f.outputs) j i := by
  rcases h with hout | ⟨r, e, he, hread⟩
  · exact .inl hout
  · refine .inr ⟨r, span e, Nat.not_lt.1 fun hr => ?_, getElem?_spans he, hread⟩
    have hinput := (hf.isInput_iff r e he).2 (by omega)
    have hfits := hf.fits r e he
    cases hinstr : e.instr with
    | input number listed =>
        rw [hinstr] at hfits hread
        cases hfits
        simp [Instr.reads] at hread
    | _ => simp [hinstr, Instr.isInput] at hinput

/-- Under layout `l` different inputs have different slots. -/
def ApartIn (f : Tape F) (l : Layout) : Prop :=
  ∀ i j : Nat, i < j → j < f.nIn → ∀ x < f.inputLength i, ∀ y < f.inputLength j,
    l.slot i x ≠ l.slot j y

theorem WellFormed.apartIn_full
    (hf : f.WellFormed) :
    f.ApartIn f.full :=
  fun _ _ hij hj _ hx _ hy => inputSlot_ne hf (Nat.ne_of_lt hij) (by omega) hj hx hy

theorem InputsApart.apartIn_compact
    (h : f.InputsApart) (hf : f.WellFormed) :
    f.ApartIn f.compact := by
  intro i j hij hj x hx y hy
  obtain ⟨e, he, hnnz⟩ := hf.element_of_input (show i < f.nIn by omega)
  obtain ⟨e', he', hnnz'⟩ := hf.element_of_input hj
  have hspan : (span e).length = f.inputLength i := hnnz
  have hspan' : (span e').length = f.inputLength j := hnnz'
  rw [← hspan] at hx
  rw [← hspan'] at hy
  by_cases hlength : f.inputLength i = f.inputLength j
  · exact hf.compact_sound.apart i j (span e) (span e') hij (getElem?_spans he)
      (getElem?_spans he') (hf.live_of_used hj (h i j hij hj hlength (by omega))) x hx y hy
  · rw [hf.compact]
    exact Layout.reusing_apart_of_length_ne f.outputs (fun _ _ hp _ => hf.lt_of_mem_reads hp)
      (getElem?_spans he) (getElem?_spans he')
      (by rwa [hspan, hspan']) x hx y hy

section Loading

variable [Zero F] {l : Layout} {keep : Nat → Prop}

/-- Slots that no list is written to keep their numbers. -/
theorem getD_writeLists_outside
    {lists : List (List F)} {first t : Nat} {w : Array F} (hw : l.size ≤ w.size)
    (hinside : ∀ i xs, (xs, i) ∈ lists.zipIdx first → l.slot i xs.length ≤ l.size)
    (ht : ∀ i xs, (xs, i) ∈ lists.zipIdx first → ∀ k < xs.length, t ≠ l.slot i k) :
    (writeLists l first lists w).getD t 0 = w.getD t 0 := by
  induction lists generalizing first w with
  | nil => rfl
  | cons xs lists ih =>
      rw [List.zipIdx_cons] at hinside ht
      have hroom := hinside first xs (List.mem_cons_self ..)
      rw [← Layout.slot_zero_add] at hroom
      have hwritten := written_writeAt xs (w := w) (by omega : l.slot first 0 + xs.length ≤ _)
      refine (ih (w := writeAt (l.slot first 0) xs w) (by simpa using hw)
        (fun i ys hmem => hinside i ys (List.mem_cons_of_mem _ hmem))
        fun i ys hmem => ht i ys (List.mem_cons_of_mem _ hmem)).trans
          (hwritten.outside t fun k hk => ?_)
      rw [Layout.slot_zero_add]
      exact ht first xs (List.mem_cons_self ..) k hk

/-- A list stays where it is written, if no later one is written there. -/
theorem getD_writeLists
    {lists : List (List F)} {first i k : Nat} {xs : List F} {w : Array F} (hw : l.size ≤ w.size)
    (hinside : ∀ j ys, (ys, j) ∈ lists.zipIdx first → l.slot j ys.length ≤ l.size)
    (hi : (xs, i) ∈ lists.zipIdx first) (hk : k < xs.length)
    (hlater : ∀ j ys, (ys, j) ∈ lists.zipIdx first → i < j →
      ∀ y < ys.length, l.slot i k ≠ l.slot j y) :
    (writeLists l first lists w).getD (l.slot i k) 0 = xs.getD k 0 := by
  induction lists generalizing first w with
  | nil => simp at hi
  | cons zs lists ih =>
      rw [List.zipIdx_cons] at hinside hi hlater
      have hroom := hinside first zs (List.mem_cons_self ..)
      rw [← Layout.slot_zero_add] at hroom
      have hwritten := written_writeAt zs (w := w) (by omega : l.slot first 0 + zs.length ≤ _)
      rcases List.mem_cons.1 hi with heq | hi
      · cases heq
        refine (getD_writeLists_outside (w := writeAt (l.slot i 0) xs w) (by simpa using hw)
          (fun j ys hmem => hinside j ys (List.mem_cons_of_mem _ hmem))
          fun j ys hmem => hlater j ys (List.mem_cons_of_mem _ hmem)
            (List.le_snd_of_mem_zipIdx hmem)).trans ?_
        rw [← Layout.slot_zero_add]
        exact hwritten.inside k hk
      · exact ih (w := writeAt (l.slot first 0) zs w) (by simpa using hw)
          (fun j ys hmem => hinside j ys (List.mem_cons_of_mem _ hmem)) hi
          fun j ys hmem => hlater j ys (List.mem_cons_of_mem _ hmem)

/-- Inputs that lie apart get the lists that are loaded, in whatever order. -/
theorem ApartIn.getD_writeLists
    (hf : f.WellFormed) (hsound : l.Sound f.spans keep) (h : f.ApartIn l)
    {lists : List (List F)} (hfit : FitLists f.inputPatterns lists) {w : Array F}
    (hw : l.size ≤ w.size) {p k : Nat} {xs : List F} (hp : lists[p]? = some xs)
    (hk : k < xs.length) :
    (writeLists l 0 lists w).getD (l.slot p k) 0 = xs.getD k 0 := by
  have hlength : ∀ {j : Nat} {ys : List F}, lists[j]? = some ys →
      j < f.nIn ∧ ys.length = f.inputLength j := by
    intro j ys hj
    obtain ⟨pattern, hpattern, hys⟩ := getElem?_of_forall₂ hfit hj
    refine ⟨(List.getElem?_eq_some_iff.1 hpattern).1, ?_⟩
    rw [inputLength, hpattern]
    exact hys
  refine Tape.getD_writeLists hw
    (fun j ys hmem => slot_length_le hf hsound hfit (List.mem_zipIdx_iff_getElem?.1 hmem))
    (List.mem_zipIdx_iff_getElem?.2 hp) hk fun j ys hmem hlt y hy => ?_
  obtain ⟨hj, hys⟩ := hlength (List.mem_zipIdx_iff_getElem?.1 hmem)
  exact h p j hlt hj k ((hlength hp).2 ▸ hk) y (hys ▸ hy)

/-- A sweep over inputs that lie apart finds every element's own number. -/
theorem ApartIn.found_eq
    (hf : f.WellFormed) (hsound : l.Sound f.spans keep) (h : f.ApartIn l)
    {lists : List (List F)} (hfit : FitLists f.inputPatterns lists) {v : Array F}
    (hv : f.Holds f.full (fun _ => True) f.nIn v
      (writeLists f.full 0 lists (Array.replicate f.full.size 0)))
    {p k : Nat} {e : Element F} (he : f.elements[p]? = some e) (hk : k < e.nnz) :
    f.found l lists v p k = v.getD (f.full.slot p k) 0 := by
  unfold found
  split
  · next hp =>
      obtain ⟨ys, hget, hlength⟩ := list_of_fitLists hf hfit hp he
      rw [← hv p hp (.inl trivial) e he k hk, h.getD_writeLists hf hsound hfit (by simp) hget
        (by omega), hf.apartIn_full.getD_writeLists hf (hf.full_sound fun _ => True) hfit (by simp)
        hget (by omega)]
  · rfl

end Loading

variable [Zero F] [Add F] [Mul F] [Calculus F]

/-- The value and all tangents of a nonzero are finite. -/
def OwnFinite (f : Tape F) (xs : List (List F)) (us : List (Nat → Nat → F)) (p k : Nat) : Prop :=
  Calculus.isFinite ((f.valueArray xs).getD (f.full.slot p k) 0) = true ∧
    ∀ u ∈ us, Calculus.isFinite ((f.tangentArray xs u).getD (f.full.slot p k) 0) = true

theorem ApartIn.passes_iff
    {l : Layout} {keep : Nat → Prop} (hf : f.WellFormed) (hsound : l.Sound f.spans keep)
    (h : f.ApartIn l) {xs : List (List F)} (hfit : FitLists f.inputPatterns xs)
    (us : List (Nat → Nat → F)) {p k : Nat} {e : Element F} (he : f.elements[p]? = some e)
    (hk : k < e.nnz) :
    f.Passes l xs us p k ↔ f.OwnFinite xs us p k := by
  have hfull := hf.full_sound fun _ => True
  have hvalue := h.found_eq hf hsound hfit
    (holds_writeLists_values hf hfull hfit (by simp)) he hk
  have htangent := fun u => h.found_eq hf hsound (f.fitLists_seedLists u)
    (holds_writeLists_tangents hf hfull xs u (by simp)) he hk
  simp only [Passes, FiniteValues, FiniteTangents, OwnFinite, hvalue, htangent]

/--
Where inputs lie apart, a checked evaluation without adjoints returns the outputs and their
tangents if all own numbers are finite, and names the first nonzero with one that is not.
-/
theorem ApartIn.ends_evaluate
    (hf : f.WellFormed) (h : f.ApartIn (f.layout 0)) (hon : f.config.checkFinite = true)
    {m : Memory F} (hm : m.WellSized) {xs : List (List F)} {seeds : List (List (List F))}
    (hcheck : f.checkEvaluation "evaluate" m.sizes xs seeds [] = .ok ()) :
    Run.Ends (f.evaluate xs seeds []) m
      (fun e _ => Everywhere f.elements (f.OwnFinite xs (seeds.map seedOf)) ∧
        e = ⟨(List.range f.nOut).map (f.outputOf (f.valueArray xs)), seeds.map fun seed =>
          (List.range f.nOut).map (f.outputOf (f.tangentArray xs (seedOf seed))), []⟩)
      (fun err => ∃ p e k, FirstRefused f.elements (f.OwnFinite xs (seeds.map seedOf)) p e k ∧
        err = .rejected (.numeric "evaluate" e.node k)) := by
  have hfit := (checkEvaluation_eq_ok_iff.1 hcheck).fitInputs
  have hiff : ∀ (p : Nat) (e : Element F), f.elements[p]? = some e → ∀ k < e.nnz,
      (f.Passes (f.layout 0) xs (seeds.map seedOf) p k ↔
        f.OwnFinite xs (seeds.map seedOf) p k) :=
    fun p e he k hk => h.passes_iff hf (layout_sound hf 0) hfit _ he hk
  refine (Tape.ends_evaluate hf hm hcheck (Q := fun adj _ => adj = [])
    (E := fun err => ∃ p e k, FirstRefused f.elements (f.OwnFinite xs (seeds.map seedOf)) p e k ∧
      err = .rejected (.numeric "evaluate" e.node k))
    (fun _ p e k hfirst => ⟨p, e, k, hfirst.congr hiff, rfl⟩) fun _ => rfl).imp
      (fun e _ h => ?_) fun _ h => h
  obtain ⟨hpassed, houtputs, hfwd, hadj⟩ := h
  refine ⟨fun p e he k hk => (hiff p e he k hk).1 (hpassed hon p e he k hk), ?_⟩
  obtain ⟨outputs, fwd, adj⟩ := e
  simp only at houtputs hfwd hadj
  rw [houtputs, hfwd, hadj]

end Tape

/-- A nonzero of a node has a finite value and, along every seed, a finite tangent. -/
def Graph.IsFiniteAt [Zero F] [Add F] [Mul F] [Calculus F] (g : Graph F) (inputs : List NodeId)
    (xs : List (List F)) (seeds : List (List (List F))) (id : NodeId) (k : Nat) : Prop :=
  (∃ v, g.value? inputs xs g.size id k = some v ∧ Calculus.isFinite v = true) ∧
    ∀ us ∈ seeds, ∃ t, g.tangent? inputs xs us g.size id k = some t ∧ Calculus.isFinite t = true

namespace Tape

variable [Zero F] [One F] [Add F] [Sub F] [Neg F] [Mul F] [Div F] [Elementary F] [ElementText F]

/-- The node of the element at `p` has finite numbers at nonzero `k`. -/
def NodeFinite (f : Tape F) (inputs : List NodeId) (xs : List (List F))
    (seeds : List (List (List F))) (p k : Nat) : Prop :=
  ∃ e, f.elements[p]? = some e ∧ f.graph.IsFiniteAt inputs xs seeds e.node k

variable {g : Graph F} {inputs outputs order : List NodeId} {config : Config} {f : Tape F}

/-- The trace has the numbers of the nodes. -/
theorem Compiled.ownFinite_iff
    (h : Compiled g inputs outputs order config f) (hgraph : f.graph = g)
    (hpatterns : ∀ n ∈ g.nodes, n.pattern.WellFormed) {xs : List (List F)}
    (hfit : FitLists f.inputPatterns xs) {seeds : List (List (List F))}
    (hseeds : ∀ seed ∈ seeds, FitLists f.inputPatterns seed) {p k : Nat} {e : Element F}
    (he : f.elements[p]? = some e) (hk : k < e.nnz) :
    f.OwnFinite xs (seeds.map seedOf) p k ↔ f.NodeFinite inputs xs seeds p k := by
  have hp : p < order.length := by
    rw [← h.size]
    exact (Array.getElem?_eq_some_iff.1 he).1
  have hid : order[p]? = some order[p] := List.getElem?_eq_getElem hp
  have hdepth : p < g.size := Nat.lt_of_lt_of_le hp h.length_le_size
  obtain ⟨n, instr, hn, he', -, -⟩ := h.element p _ hid
  rw [he] at he'
  cases he'
  have hvalue := h.value?_eq hpatterns hfit g.size p hdepth _ n hid hn k hk
  have htangent := fun us hus => h.tangent?_eq hpatterns hfit (hseeds us hus) g.size p hdepth _ n
    hid hn k hk
  unfold OwnFinite NodeFinite Graph.IsFiniteAt
  rw [he, hgraph]
  simp only [Option.some.injEq, exists_eq_left', hvalue, List.forall_mem_map]
  refine and_congr Iff.rfl (forall₂_congr fun us hus => ?_)
  rw [htangent us hus]
  simp

/--
With the check on, one request without adjoint seeds ends alike under both layouts, if every
unused input stands apart: with the same result, or refused for the same nonzero. It is refused
exactly for the first nonzero in tape order that has a value or a tangent that is not finite.
-/
theorem evaluate_refused_alike
    (hbare : g.BareLeaves) (hpatterns : ∀ n ∈ g.nodes, n.pattern.WellFormed)
    (hon : config.checkFinite = true) {f₁ f₂ : Tape F}
    (hcompact : compile g inputs outputs { config with reuseWork := true } = .ok f₁)
    (hfull : compile g inputs outputs { config with reuseWork := false } = .ok f₂)
    (hapart : f₁.InputsApart) {m₁ m₂ : Memory F} (hm₁ : m₁.WellSized) (hm₂ : m₂.WellSized)
    {xs : List (List F)} {seeds : List (List (List F))}
    (hcheck₁ : f₁.checkEvaluation "evaluate" m₁.sizes xs seeds [] = .ok ())
    (hcheck₂ : f₂.checkEvaluation "evaluate" m₂.sizes xs seeds [] = .ok ()) :
    (f₁.evaluate xs seeds []).alone m₁ = (f₂.evaluate xs seeds []).alone m₂ ∧
      ∀ err, (f₁.evaluate xs seeds []).alone m₁ = .error err ↔
        ∃ p e k, FirstRefused f₁.elements (f₁.NodeFinite inputs xs seeds) p e k ∧
          err = .rejected (.numeric "evaluate" e.node k) := by
  obtain ⟨order, h⟩ := compiled_of_compile hbare hcompact
  have hf := h.wellFormed
  -- the two tapes differ in their configuration only
  have hconfig := hfull.symm.trans (compile_config hcompact)
  obtain rfl := Except.ok.inj hconfig
  obtain ⟨order', h'⟩ := compiled_of_compile hbare hfull
  have haccepts := checkEvaluation_eq_ok_iff.1 hcheck₁
  have hlayout₁ : f₁.ApartIn (f₁.layout 0) := by
    have hreuse : f₁.layout 0 = f₁.compact := by simp [layout, h.config]
    rw [hreuse]
    exact hapart.apartIn_compact hf
  have hends₁ := hlayout₁.ends_evaluate hf (by rw [h.config]; exact hon) hm₁ hcheck₁
  have hends₂ := ApartIn.ends_evaluate h'.wellFormed
    (show ApartIn _ (layout _ 0) from hf.apartIn_full) hon hm₂ hcheck₂
  have hiff : ∀ (p : Nat) (e : Element F), f₁.elements[p]? = some e → ∀ k < e.nnz,
      (f₁.OwnFinite xs (seeds.map seedOf) p k ↔ f₁.NodeFinite inputs xs seeds p k) :=
    fun p e he k hk => h.ownFinite_iff (graph_of_compile hcompact) hpatterns haccepts.fitInputs
      haccepts.fitFwd he hk
  rcases hends₁.cases with ⟨e₁, m₁', hgives₁, hall, rfl⟩ | ⟨err₁, herr₁, p, e, k, hfirst, rfl⟩
  · have hok := Run.alone_eq_ok_iff.2 ⟨m₁', hgives₁⟩
    constructor
    · rcases hends₂.cases with ⟨e₂, m₂', hgives₂, -, rfl⟩ | ⟨err₂, -, p, e, k, hfirst, -⟩
      · exact hok.trans (Run.alone_eq_ok_iff.2 ⟨m₂', hgives₂⟩).symm
      · exact absurd hall hfirst.not_everywhere
    · intro err
      rw [hok]
      refine iff_of_false (by simp) ?_
      rintro ⟨p, e, k, hfirst, -⟩
      exact (hfirst.congr fun p e he k hk => (hiff p e he k hk).symm).not_everywhere hall
  · constructor
    · rcases hends₂.cases with ⟨e₂, m₂', -, hall, -⟩ | ⟨err₂, herr₂, q, e', i, hfirst', rfl⟩
      · exact absurd hall hfirst.not_everywhere
      · obtain ⟨rfl, rfl⟩ := hfirst.unique hfirst'
        have heq := hfirst.element.symm.trans hfirst'.element
        cases heq
        exact herr₁.trans herr₂.symm
    · intro err
      rw [herr₁]
      constructor
      · intro heq
        exact ⟨p, e, k, hfirst.congr hiff, (Except.error.inj heq).symm⟩
      · rintro ⟨q, e', i, hfirst', rfl⟩
        obtain ⟨rfl, rfl⟩ := (hfirst.congr hiff).unique hfirst'
        have heq := hfirst.element.symm.trans hfirst'.element
        cases heq
        rfl

end Tape

/-- Two scalar leaves of machine numbers. -/
def Graph.twoLeaves : Graph Float :=
  (Graph.symbol (Graph.empty.symbol "x" Pattern.scalar).2 "y" Pattern.scalar).2

theorem Graph.bareLeaves_twoLeaves :
    Graph.twoLeaves.BareLeaves := by
  simp [BareLeaves, twoLeaves, symbol, push, empty]

theorem Graph.wellFormed_twoLeaves :
    ∀ n ∈ Graph.twoLeaves.nodes, n.pattern.WellFormed := by
  have hscalar : Pattern.scalar.WellFormed := ⟨by decide, by decide⟩
  simpa [twoLeaves, symbol, push, empty] using hscalar

namespace Tape

/-- The leaves as inputs of a tape with a given compact layout. -/
def leaves (outputs : List Nat) (compact : Layout) (reuseWork : Bool) : Tape Float :=
  ⟨Graph.twoLeaves, #[⟨0, .input 0 [], 1⟩, ⟨1, .input 1 [], 1⟩], outputs,
    [Pattern.scalar, Pattern.scalar], outputs.map fun _ => Pattern.scalar, ⟨#[0, 1], 2⟩, compact,
    { reuseWork }⟩

/-- With both leaves as outputs, a second value that is not a number is named in both layouts. -/
theorem evaluate_refused_alike_leaves :
    let f₁ := leaves [0, 1] ⟨#[0, 1], 2⟩ true
    let f₂ := leaves [0, 1] ⟨#[0, 1], 2⟩ false
    (f₁.evaluate [[1], [0 / 0]] [[[1], [2]]] []).alone (f₁.memory 1 0) =
        (f₂.evaluate [[1], [0 / 0]] [[[1], [2]]] []).alone (f₂.memory 2 0) ∧
      ∃ p e, FirstRefused f₁.elements
        (f₁.NodeFinite [0, 1] [[1], [0 / 0]] [[[1], [2]]]) p e 0 ∧ e.node = 1 := by
  intro f₁ f₂
  have hapart : f₁.InputsApart := fun i j hij hj _ _ => .inl <| by
    have hj : j < 2 := hj
    obtain rfl : i = 0 := by omega
    decide
  have hcompile : ∀ r, compile Graph.twoLeaves [0, 1] [0, 1] { reuseWork := r } =
      .ok (leaves [0, 1] ⟨#[0, 1], 2⟩ r) := fun r => by cbv
  obtain ⟨halike, herror⟩ := evaluate_refused_alike Graph.bareLeaves_twoLeaves
    Graph.wellFormed_twoLeaves (show ({} : Config).checkFinite = true from rfl) (hcompile true)
    (hcompile false) hapart
    (Memory.wellSized_new (f₁.requiredMemory 1 0)) (Memory.wellSized_new (f₂.requiredMemory 2 0))
    (show f₁.checkEvaluation "evaluate" _ [[1], [0 / 0]] [[[1], [2]]] [] = .ok () by decide)
    (show f₂.checkEvaluation "evaluate" _ [[1], [0 / 0]] [[[1], [2]]] [] = .ok () by decide)
  have hrefused : ((f₁.evaluate [[1], [0 / 0]] [[[1], [2]]] []).alone (f₁.memory 1 0)).map
      (fun _ => ()) = .error (.rejected (.numeric "evaluate" 1 0)) := by
    decide +kernel
  refine ⟨halike, ?_⟩
  cases hrun : (f₁.evaluate [[1], [0 / 0]] [[[1], [2]]] []).alone (f₁.memory 1 0) with
  | ok e =>
      rw [hrun] at hrefused
      cases hrefused
  | error err =>
      rw [hrun] at hrefused
      cases hrefused
      obtain ⟨p, e, k, hfirst, heq⟩ := (herror _).1 hrun
      simp only [Failure.rejected.injEq, Error.numeric.injEq, true_and] at heq
      obtain ⟨hnode, rfl⟩ := heq
      exact ⟨p, e, hfirst, hnode.symm⟩

/--
A leaf that nothing reads gives up its slot to the next one, so under the compact layout a value
of it that is not a number passes unseen; under the full layout it is refused.
-/
theorem evaluate_unread_leaf :
    let f₁ := leaves [1] ⟨#[0, 0], 1⟩ true
    let f₂ := leaves [1] ⟨#[0, 0], 1⟩ false
    compile Graph.twoLeaves [0, 1] [1] { reuseWork := true } = .ok f₁ ∧
      compile Graph.twoLeaves [0, 1] [1] { reuseWork := false } = .ok f₂ ∧
      f₁.config.checkFinite = true ∧
      ((f₁.evaluate [[0 / 0], [1]] [] []).alone (f₁.memory 0 0)).map Evaluation.outputs =
        .ok [[1]] ∧
      ((f₂.evaluate [[0 / 0], [1]] [] []).alone (f₂.memory 0 0)).map Evaluation.outputs =
        .error (.rejected (.numeric "evaluate" 0 0)) := by
  exact ⟨by cbv, by cbv, rfl, by decide +kernel, by decide +kernel⟩

end Tape

end SparseDiff
