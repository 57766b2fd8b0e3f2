import SparseDiff.Proofs.Duality

/-!
# Adjoint directions

The walk of an adjoint direction depends on the values and the seeds in the slots of the full
layout only, not on the memory and not on the other directions. So a sweep over seeded outputs
leaves in every direction the walk over the trace (`Tape.pushed`), and refuses exactly where
the walk of some direction does (`Tape.guarded_pushed`).
-/

namespace SparseDiff

variable {F : Type}

/-- Two arrays have the slots below `n` and the same numbers there. -/
structure AgreeBelow [Zero F] (n : Nat) (a b : Array F) : Prop where
  left : n ≤ a.size
  right : n ≤ b.size
  eq : ∀ p < n, a.getD p 0 = b.getD p 0

section Agreement

variable [Zero F] {n : Nat} {a b : Array F}

/-- Arrays that agree with one array agree. -/
theorem AgreeBelow.of_common
    {c : Array F} (h : AgreeBelow n a c) (h' : AgreeBelow n b c) :
    AgreeBelow n a b :=
  ⟨h.left, h'.left, fun p hp => (h.eq p hp).trans (h'.eq p hp).symm⟩

theorem AgreeBelow.setIfInBounds
    (h : AgreeBelow n a b) (s : Nat) (x : F) :
    AgreeBelow n (a.setIfInBounds s x) (b.setIfInBounds s x) := by
  refine ⟨by simpa using h.left, by simpa using h.right, fun p hp => ?_⟩
  have hleft := h.left
  have hright := h.right
  by_cases hps : p = s
  · subst hps
    rw [getD_setIfInBounds_self (by omega), getD_setIfInBounds_self (by omega)]
  · rw [getD_setIfInBounds_ne hps, getD_setIfInBounds_ne hps, h.eq p hp]

theorem AgreeBelow.modify
    (h : AgreeBelow n a b) (s : Nat) (g : F → F) :
    AgreeBelow n (a.modify s g) (b.modify s g) := by
  refine ⟨by simpa using h.left, by simpa using h.right, fun p hp => ?_⟩
  have hleft := h.left
  have hright := h.right
  by_cases hps : p = s
  · subst hps
    rw [getD_modify_self (by omega), getD_modify_self (by omega), h.eq p hp]
  · rw [getD_modify_ne hps, getD_modify_ne hps, h.eq p hp]

theorem AgreeBelow.modifySlot
    (h : AgreeBelow n a b) (slot : Option Nat) (g : F → F) :
    AgreeBelow n (modifySlot a slot g) (modifySlot b slot g) := by
  cases slot with
  | none => exact h
  | some s => exact h.modify s g

theorem AgreeBelow.readSlot_eq
    (h : AgreeBelow n a b) {slot : Option Nat} (hslot : ∀ s ∈ slot.toList, s < n) :
    readSlot a slot = readSlot b slot := by
  cases slot with
  | none => rfl
  | some s => exact h.eq s (hslot s (by simp))

theorem AgreeBelow.addAt
    [Add F] (h : AgreeBelow n a b) (start count : Nat) (g : Nat → F) :
    AgreeBelow n (addAt start count g a) (addAt start count g b) := by
  induction count with
  | zero => exact h
  | succ count ih =>
      rw [addAt_succ, addAt_succ]
      exact ih.modify _ _

theorem getD_clear
    (w : Array F) (p : Nat) :
    (w.map fun _ => (0 : F)).getD p 0 = 0 := by
  rw [Array.getD_eq_getD_getElem?, Array.getElem?_map]
  cases w[p]? <;> rfl

/-- Cleared arrays agree. -/
theorem agreeBelow_clear
    (hleft : n ≤ a.size) (hright : n ≤ b.size) :
    AgreeBelow n (a.map fun _ => (0 : F)) (b.map fun _ => 0) :=
  ⟨by simpa using hleft, by simpa using hright, fun p _ => by rw [getD_clear, getD_clear]⟩

/-- Seeding does not depend on what was in an array. -/
theorem Tape.agreeBelow_seededArray
    [Add F] (f : Tape F) (os : List Nat) (v : Nat → Nat → F) (hleft : n ≤ a.size)
    (hright : n ≤ b.size) :
    AgreeBelow n (f.seededArray os v a) (f.seededArray os v b) := by
  have hadd : ∀ (os : List Nat) (a b : Array F), AgreeBelow n a b →
      AgreeBelow n
        (os.foldl (fun w o => addAt (f.outputSlot o 0) (f.outputLength o) (v o) w) a)
        (os.foldl (fun w o => addAt (f.outputSlot o 0) (f.outputLength o) (v o) w) b) := by
    intro os
    induction os with
    | nil => exact fun a b h => h
    | cons o os ih => exact fun a b h => ih _ _ (h.addAt _ _ _)
  exact hadd os _ _ (agreeBelow_clear hleft hright)

/-- A memory with the values of the trace agrees with the trace. -/
theorem Tape.agreeBelow_valueArray
    [Calculus F] {f : Tape F} (hf : f.WellFormed) {m : Memory F}
    (hroom : f.full.size ≤ m.values.size) {xs : List (List F)}
    (hvalues : ∀ s < f.full.size, m.values.getD s 0 = (f.valueArray xs).getD s 0) :
    AgreeBelow f.full.size m.values (f.valueArray xs) :=
  ⟨hroom, by rw [valueArray, Trace.values, Trace.size_record, length_trace hf], hvalues⟩

end Agreement

section Walks

variable [Zero F] [Add F] [Mul F] [Calculus F] {n : Nat} {a b w w' : Array F}

theorem AgreeBelow.backward
    (h : AgreeBelow n a b) (hw : AgreeBelow n w w') {c : Cell F} (hslots : ∀ r ∈ c.slots, r < n)
    (r lam : F) :
    AgreeBelow n (c.backward w r lam a) (c.backward w' r lam b) := by
  cases c with
  | input i k => exact h
  | constant v => exact h
  | unary op x =>
      simp only [Cell.backward, hw.readSlot_eq hslots]
      exact h.modifySlot _ _
  | binary op x y =>
      simp only [Cell.backward, hw.readSlot_eq fun s hs => hslots s (List.mem_append_left _ hs),
        hw.readSlot_eq fun s hs => hslots s (List.mem_append_right _ hs)]
      exact (h.modifySlot _ _).modifySlot _ _
  | select tol cond source =>
      simp only [Cell.backward, hw.readSlot_eq fun s hs => hslots s (List.mem_append_left _ hs)]
      split
      · exact h.modify _ _
      · exact h
  | copy source => exact h.modify _ _

theorem AgreeBelow.adjointStep
    (h : AgreeBelow n a b) (hw : AgreeBelow n w w') {s : Nat} {c : Cell F} (hs : s < n)
    (hslots : ∀ r ∈ c.slots, r < n) :
    AgreeBelow n (c.adjointStep w s a) (c.adjointStep w' s b) := by
  unfold Cell.adjointStep
  split
  · exact h
  · rw [hw.eq s hs, h.eq s hs]
    exact (h.setIfInBounds s 0).backward hw hslots _ _

variable {visits : List (Nat × Cell F)}

/-- A walk inside the slots below `n` depends on the numbers there only. -/
theorem AgreeBelow.pushAll
    (hw : AgreeBelow n w w') (hvisits : ∀ v ∈ visits, v.1 < n ∧ ∀ r ∈ v.2.slots, r < n)
    {a b : Array F} (h : AgreeBelow n a b) :
    AgreeBelow n (pushAll w visits a) (pushAll w' visits b) := by
  induction visits generalizing a b with
  | nil => exact h
  | cons v visits ih =>
      obtain ⟨hs, hslots⟩ := hvisits v (List.mem_cons_self ..)
      exact ih (fun u hu => hvisits u (List.mem_cons_of_mem _ hu)) (h.adjointStep hw hs hslots)

theorem AgreeBelow.finiteWalk_iff
    (hw : AgreeBelow n w w') (hvisits : ∀ v ∈ visits, v.1 < n ∧ ∀ r ∈ v.2.slots, r < n)
    {a b : Array F} (h : AgreeBelow n a b) :
    FiniteWalk w visits a ↔ FiniteWalk w' visits b := by
  induction visits generalizing a b with
  | nil => exact Iff.rfl
  | cons v visits ih =>
      obtain ⟨hs, hslots⟩ := hvisits v (List.mem_cons_self ..)
      unfold FiniteWalk
      rw [h.eq v.1 hs, ih (fun u hu => hvisits u (List.mem_cons_of_mem _ hu))
        (h.adjointStep hw hs hslots)]

end Walks

namespace Tape

variable [Zero F] [Add F] [Mul F] [Calculus F] {f : Tape F}

/-- The walk of the seeds `v` of the listed outputs over the values of the trace. -/
def pushed (f : Tape F) (xs : List (List F)) (os : List Nat) (v : Nat → Nat → F) : Array F :=
  pushAll (f.valueArray xs) f.visits (f.seededArray os v (Array.replicate f.full.size 0))

/-- This walk meets finite adjoints only. -/
def FinitePushed (f : Tape F) (xs : List (List F)) (os : List Nat) (v : Nat → Nat → F) : Prop :=
  FiniteWalk (f.valueArray xs) f.visits (f.seededArray os v (Array.replicate f.full.size 0))

/-- In every direction, a sweep over seeded outputs walks over the trace. -/
theorem guarded_pushed
    [Calculus.NeutralZero F] (hf : f.WellFormed) {m : Memory F} (hm : m.WellSized)
    (hwork : f.full.size ≤ m.sizes.work) {xs : List (List F)}
    (hvalues : ∀ s < f.full.size, m.values.getD s 0 = (f.valueArray xs).getD s 0)
    {α : Type} (os : α → List Nat) (v : α → Nat → Nat → F) {items : List α}
    (hnadj : items.length ≤ m.sizes.nadj) (check : Bool) (op : String) :
    Run.Guarded check (∀ x ∈ items, f.FinitePushed xs (os x) (v x))
      (adjointSweep check op items.length (f.segmentsAt f.full)) (f.withSeeds os v items m)
      fun _ m' => m'.WellSized ∧ m'.sizes = m.sizes ∧ m'.values = m.values ∧
        ∀ (d : Nat) (x : α), items[d]? = some x → ∀ p < f.full.size,
          m'.adjoint d p = (f.pushed xs (os x) (v x)).getD p 0 := by
  have hroom : f.full.size ≤ m.values.size := by
    rw [hm.values]
    exact hwork
  have hsized := wellSized_withSeeds (f := f) os v items hm
  have hadj : items.length ≤ (f.withSeeds os v items m).adj.size := by
    rw [hsized.adj.1]
    exact hnadj
  have hw := agreeBelow_valueArray hf hroom hvalues
  have hseed : ∀ (d : Nat) (x : α), items[d]? = some x →
      AgreeBelow f.full.size ((f.withSeeds os v items m).adj.getD d #[])
        (f.seededArray (os x) (v x) (Array.replicate f.full.size 0)) := by
    intro d x hd
    have hlt := (List.getElem?_eq_some_iff.1 hd).1
    rw [withSeeds, getD_modifyEach _ (by rw [hm.adj.1]; exact hnadj) hd]
    exact f.agreeBelow_seededArray _ _
      (by rw [hm.adj.size_getD (by omega)]; exact hwork) (by simp)
  have hswept := guarded_adjointSweep hf (m := f.withSeeds os v items m) hroom hadj check op
  refine (hswept.imp fun _ m' hm' => ?_).congr ?_
  · subst hm'
    refine ⟨⟨hsized.values, hsized.fwd, ?_, hsized.adjFwd⟩, rfl, rfl, fun d x hd p hp => ?_⟩
    · exact hsized.adj.updateFirst _ fun _ _ => size_pushAll ..
    · have hlt := (List.getElem?_eq_some_iff.1 hd).1
      rw [Memory.adjoint, getD_updateFirst hlt (by omega)]
      exact (hw.pushAll (visits_inside hf) (hseed d x hd)).eq p hp
  · constructor
    · intro hall x hx
      obtain ⟨d, hd⟩ := List.mem_iff_getElem?.1 hx
      exact (hw.finiteWalk_iff (visits_inside hf) (hseed d x hd)).1
        (hall d (List.getElem?_eq_some_iff.1 hd).1)
    · intro hall d hd
      have hget := List.getElem?_eq_getElem hd
      exact (hw.finiteWalk_iff (visits_inside hf) (hseed d _ hget)).2
        (hall _ (List.mem_of_getElem? hget))

/-- The adjoint sensitivities of an output seed, at every input. -/
def pushedInputs (f : Tape F) (xs : List (List F)) (seed : List (List F)) : List (List F) :=
  (List.range f.nIn).map
    (f.inputOf ((f.pushed xs (List.range f.nOut) (seedOf seed)).getD · 0))

variable [Calculus.NeutralZero F]

/-- The adjoint sensitivities of an evaluation, direction by direction. -/
theorem guarded_adjointSensitivities
    (hf : f.WellFormed) {m : Memory F} (hm : m.WellSized) (hwork : f.full.size ≤ m.sizes.work)
    {xs : List (List F)}
    (hvalues : ∀ s < f.full.size, m.values.getD s 0 = (f.valueArray xs).getD s 0)
    {seeds : List (List (List F))} (hnadj : seeds.length ≤ m.sizes.nadj) (op : String) :
    Run.Guarded f.config.checkFinite
      (∀ seed ∈ seeds, f.FinitePushed xs (List.range f.nOut) (seedOf seed))
      (f.adjointSensitivities op (f.segmentsAt f.full) seeds) m
      fun adj _ => adj = seeds.map (f.pushedInputs xs) := by
  have hinside : ∀ seed ∈ seeds, ∀ o ∈ List.range f.nOut, o < f.nOut := fun _ _ _ ho =>
    List.mem_range.1 ho
  have hseeded := gives_withSeeds hf hinside seedOf hm hwork
  refine (Run.guarded_bind_of_gives hseeded).2 ?_
  refine (guarded_pushed hf hm hwork hvalues (fun _ => List.range f.nOut) seedOf hnadj
    f.config.checkFinite op).bind_gives fun _ m' h => ?_
  obtain ⟨hsized, hsizes, -, hadjoint⟩ := h
  obtain ⟨m'', htaken⟩ := gives_takeAll hf hsized (by rw [hsizes]; exact hwork)
    (n := seeds.length) (by rw [hsizes]; exact hnadj)
  refine ⟨_, m'', htaken, List.ext_getElem? fun d => ?_⟩
  rw [List.getElem?_map, List.getElem?_map]
  rcases Nat.lt_or_ge d seeds.length with hd | hd
  · have hget := List.getElem?_eq_getElem hd
    rw [List.getElem?_range hd, hget, Option.map_some, Option.map_some, pushedInputs]
    congr 1
    exact List.map_congr_left fun i hi =>
      inputOf_congr hf (hadjoint d _ hget) (List.mem_range.1 hi)
  · rw [List.getElem?_eq_none (by simpa using hd), List.getElem?_eq_none hd]
    rfl

/-- Every direction of an evaluation has the sensitivities that its own seed gives it. -/
theorem eq_of_evaluate
    (hf : f.WellFormed) {m : Memory F} (hm : m.WellSized) {xs : List (List F)}
    {fwdSeeds adjSeeds : List (List (List F))} {e : Evaluation F}
    (h : (f.evaluate xs fwdSeeds adjSeeds).alone m = .ok e) :
    e = ⟨(List.range f.nOut).map (f.outputOf (f.valueArray xs)),
      fwdSeeds.map fun seed =>
        (List.range f.nOut).map (f.outputOf (f.tangentArray xs (seedOf seed))),
      adjSeeds.map (f.pushedInputs xs)⟩ := by
  obtain ⟨m', hgives⟩ := Run.alone_eq_ok_iff.1 h
  obtain ⟨hcheck, -, houtputs, hfwd, hadj⟩ := (gives_evaluate_iff hf hm).1 hgives
  have haccepts := checkEvaluation_eq_ok_iff.1 hcheck
  obtain ⟨outputs, fwd, adj⟩ := e
  simp only at houtputs hfwd hadj
  rw [houtputs, hfwd, Evaluation.mk.injEq]
  refine ⟨rfl, rfl, ?_⟩
  by_cases hnone : adjSeeds.length = 0
  · rw [if_pos hnone, Run.gives_pure] at hadj
    rw [← hadj.1, List.length_eq_zero_iff.1 hnone]
    rfl
  · rw [if_neg hnone] at hadj
    have hlayout : f.layout adjSeeds.length = f.full := by simp [layout, hnone]
    have hwork := haccepts.work
    rw [hlayout] at hadj hwork
    have hreached := reached_afterForward hf (hf.full_sound fun _ => True) hm hwork
      (show (fwdSeeds.map seedOf).length ≤ m.sizes.nfwd by
        rw [List.length_map]
        exact haccepts.nfwd) haccepts.fitInputs
    have hguarded := guarded_adjointSensitivities hf hreached.wellSized
      (by rw [hreached.sizes]; exact hwork)
      (fun s => getD_of_holds_full hf hreached.values)
      (show adjSeeds.length ≤ _ by rw [hreached.sizes]; exact haccepts.nadj) "evaluate"
    exact (Run.Ends.of_gives hguarded hadj).1

/-- An evaluation gives every direction what the direction gets alone. -/
theorem evaluate_directions
    (hf : f.WellFormed) {m m' : Memory F} (hm : m.WellSized) (hm' : m'.WellSized)
    {xs : List (List F)} {fwdSeeds adjSeeds : List (List (List F))} {e e' : Evaluation F}
    (h : (f.evaluate xs fwdSeeds adjSeeds).alone m = .ok e) :
    (∀ (d : Nat) seed, fwdSeeds[d]? = some seed → (f.evaluate xs [seed] []).alone m' = .ok e' →
      e'.outputs = e.outputs ∧ ∃ outs, e.fwd[d]? = some outs ∧ e'.fwd = [outs]) ∧
    (∀ (d : Nat) seed, adjSeeds[d]? = some seed → (f.evaluate xs [] [seed]).alone m' = .ok e' →
      e'.outputs = e.outputs ∧ ∃ ins, e.adj[d]? = some ins ∧ e'.adj = [ins]) := by
  rw [eq_of_evaluate hf hm h]
  constructor
  · intro d seed hseed hsingle
    rw [eq_of_evaluate hf hm' hsingle]
    exact ⟨rfl, _, by rw [List.getElem?_map, hseed]; rfl, rfl⟩
  · intro d seed hseed hsingle
    rw [eq_of_evaluate hf hm' hsingle]
    exact ⟨rfl, _, by rw [List.getElem?_map, hseed]; rfl, rfl⟩

end Tape

end SparseDiff
