import SparseDiff.Proofs.Bounds.Strict
import SparseDiff.Proofs.Checked.Results
import SparseDiff.Proofs.Isolation.Shape

/-!
# Checks without effect

`Run.Same x y m Q` says that two computations do the same from one memory, and what is known if
they return. A step whose checks pass is the same as the step without them; what a later check
looks at is known from what the steps before it return. The sweeps here only ask for arrays of
known sizes (`Memory.HasSizes`), which every step leaves.
-/

namespace SparseDiff

variable {F : Type}

namespace Run

variable {α β : Type} {x y : Run F α} {m : Memory F} {Q : α → Memory F → Prop}

/-- From `m` the two computations end in the same way, and if they return then as `Q` says. -/
structure Same (x y : Run F α) (m : Memory F) (Q : α → Memory F → Prop) : Prop where
  run_eq : x.run.run m = y.run.run m
  ends : Ends y m Q fun _ => True

theorem same_refl
    (h : Ends x m Q fun _ => True) :
    Same x x m Q :=
  ⟨rfl, h⟩

theorem Same.imp
    {Q' : α → Memory F → Prop} (h : Same x y m Q) (hpost : ∀ a m', Q a m' → Q' a m') :
    Same x y m Q' :=
  ⟨h.run_eq, h.ends.imp hpost fun _ he => he⟩

theorem Same.bind
    {f g : α → Run F β} {R : β → Memory F → Prop} (h : Same x y m Q)
    (hf : ∀ a m', Q a m' → Same (f a) (g a) m' R) :
    Same (x >>= f) (y >>= g) m R := by
  refine ⟨?_, ends_bind.2 (h.ends.imp (fun a m' ha => (hf a m' ha).ends) fun _ he => he)⟩
  rw [run_bind, run_bind, h.run_eq]
  cases hrun : y.run.run m with
  | mk r m' =>
      cases r with
      | error e => rfl
      | ok a => exact (hf a m' (h.ends.of_gives hrun)).run_eq

/-- A check that passes. -/
theorem Same.after
    {c : Run F β} {f : β → Run F α} {b : β} (hc : Gives c m b m) (h : Same (f b) y m Q) :
    Same (c >>= f) y m Q := by
  refine ⟨?_, h.ends⟩
  unfold Gives at hc
  rw [run_bind, hc]
  exact h.run_eq

theorem same_get :
    Same (get : Run F (Memory F)) get m fun a m' => m = a ∧ m = m' :=
  same_refl (ends_get.2 ⟨rfl, rfl⟩)

theorem same_ofExcept
    {e e' : Except Failure α} (h : e = e') :
    Same (ofExcept e : Run F α) (ofExcept e') m fun a m' => e' = .ok a ∧ m = m' := by
  subst h
  refine same_refl ?_
  cases e with
  | ok a => exact ⟨rfl, rfl⟩
  | error e => exact trivial

theorem same_check
    (e : Except Error α) :
    Same (check e : Run F α) (check e) m fun a m' => e = .ok a ∧ m = m' :=
  (same_ofExcept rfl).imp fun _ _ h => ⟨orReject_eq_ok_iff.1 h.1, h.2⟩

theorem same_forM
    {f g : α → Run F Unit} {I : Memory F → Prop} {xs : List α}
    (hstep : ∀ x ∈ xs, ∀ m, I m → Same (f x) (g x) m fun _ m' => I m') {m : Memory F} (h : I m) :
    Same (xs.forM f) (xs.forM g) m fun _ m' => I m' := by
  induction xs generalizing m with
  | nil => exact same_refl h
  | cons x xs ih =>
      exact (hstep x (List.mem_cons_self ..) m h).bind fun _ m' h' =>
        ih (fun y hy => hstep y (List.mem_cons_of_mem _ hy)) h'

theorem same_mapM
    {f g : α → Run F β} {R : α → β → Prop} {I : Memory F → Prop} {xs : List α}
    (hstep : ∀ x ∈ xs, ∀ m, I m → Same (f x) (g x) m fun y m' => R x y ∧ I m') {m : Memory F}
    (h : I m) :
    Same (xs.mapM f) (xs.mapM g) m fun ys m' => List.Forall₂ R xs ys ∧ I m' := by
  induction xs generalizing m with
  | nil =>
      rw [List.mapM_nil, List.mapM_nil]
      exact same_refl (ends_pure.2 ⟨.nil, h⟩)
  | cons x xs ih =>
      rw [List.mapM_cons, List.mapM_cons]
      refine (hstep x (List.mem_cons_self ..) m h).bind fun y m' hy => ?_
      refine (ih (fun z hz => hstep z (List.mem_cons_of_mem _ hz)) hy.2).bind fun ys m'' hys => ?_
      exact same_refl (ends_pure.2 ⟨.cons hy.1 hys.1, hys.2⟩)

theorem same_foldlM
    {f g : β → α → Run F β} {I : β → Memory F → Prop} {xs : List α}
    (hstep : ∀ x ∈ xs, ∀ b m, I b m → Same (f b x) (g b x) m I) {b : β} {m : Memory F}
    (h : I b m) :
    Same (xs.foldlM f b) (xs.foldlM g b) m I := by
  induction xs generalizing b m with
  | nil => exact same_refl h
  | cons x xs ih =>
      rw [List.foldlM_cons, List.foldlM_cons]
      exact (hstep x (List.mem_cons_self ..) b m h).bind fun b' m' h' =>
        ih (fun y hy => hstep y (List.mem_cons_of_mem _ hy)) h'

end Run

/-- The memory has arrays of these sizes. -/
structure Memory.HasSizes (s : MemorySizes) (m : Memory F) : Prop where
  wellSized : m.WellSized
  sizes : m.sizes = s

variable {m : Memory F} {s : MemorySizes}

theorem Memory.HasSizes.values
    (hm : m.HasSizes s) :
    m.values.size = s.work := by
  rw [hm.wellSized.values, hm.sizes]

theorem Run.KeepsShape.ends
    {α : Type} {y : Run F α} (hy : y.KeepsShape) (hm : m.HasSizes s) :
    Run.Ends y m (fun _ m' => m'.HasSizes s) fun _ => True := by
  obtain ⟨hsized, hsizes⟩ := hy.after m hm.wellSized
  unfold Run.Ends
  generalize y.run.run m = outcome at hsized hsizes
  obtain ⟨r, m'⟩ := outcome
  cases r with
  | ok a => exact ⟨hsized, hsizes.trans hm.sizes⟩
  | error e => exact trivial

/-- A step that keeps the sizes, after a check that passes. -/
theorem Run.KeepsShape.same
    {α : Type} {y : Run F α} {c : Run F Unit} (hy : y.KeepsShape) (hm : m.HasSizes s)
    (hc : Run.Gives c m () m) :
    Run.Same (c >>= fun _ => y) y m fun _ m' => m'.HasSizes s :=
  (Run.same_refl (hy.ends hm)).after hc

namespace Strict

open Run

theorem inRange_eq
    {p : Prop} [Decidable p] (h : p) :
    inRange p = .ok () :=
  if_pos h

theorem gives_inRange
    {p : Prop} [Decidable p] (h : p) :
    Gives (Run.ofExcept (inRange p) : Run F Unit) m () m :=
  gives_ofExcept.2 ⟨inRange_eq h, rfl⟩

theorem gives_slice
    {start n : Nat} (h : start + n ≤ m.values.size) :
    Gives (slice start n) m () m :=
  gives_get_bind.2 (gives_inRange h)

theorem gives_arrays
    {kind : Memory F → Array (Array F)} {count n : Nat} (hm : m.WellSized)
    (hkind : Sized count m.sizes.work (kind m)) (hn : n ≤ count) :
    Gives (arrays kind n) m () m := by
  refine gives_get_bind.2 (gives_inRange ⟨hn.trans hkind.1.ge, fun w hw => ?_⟩)
  obtain ⟨d, hd⟩ := List.mem_iff_getElem?.1 (List.mem_of_mem_take hw)
  rw [hkind.2 d w (by simpa using hd), hm.values]

theorem gives_arrays_fwd
    (hm : m.HasSizes s) {n : Nat} (hn : n ≤ s.nfwd) :
    Gives (arrays Memory.fwd n) m () m :=
  gives_arrays hm.wellSized hm.wellSized.fwd (hm.sizes ▸ hn)

theorem gives_arrays_adj
    (hm : m.HasSizes s) {n : Nat} (hn : n ≤ s.nadj) :
    Gives (arrays Memory.adj n) m () m :=
  gives_arrays hm.wellSized hm.wellSized.adj (hm.sizes ▸ hn)

theorem gives_arrays_adjFwd
    (hm : m.HasSizes s) {n : Nat} (hn : n ≤ s.second) :
    Gives (arrays Memory.adjFwd n) m () m :=
  gives_arrays hm.wellSized hm.wellSized.adjFwd (hm.sizes ▸ hn)

/-- A loop of checks that pass. -/
theorem gives_checks
    {α : Type} {c : α → Run F Unit} {xs : List α} (h : ∀ x ∈ xs, Gives (c x) m () m) :
    Gives (xs.forM c) m () m := by
  induction xs with
  | nil => exact gives_forM_nil.2 rfl
  | cons x xs ih =>
      exact gives_forM_cons.2 ⟨m, h x (List.mem_cons_self ..),
        ih fun y hy => h y (List.mem_cons_of_mem _ hy)⟩

variable {f : Tape F} {l : Layout} {keep : Nat → Prop}

/-- The slots of an element are a slice. -/
theorem slot_add_le
    (hsound : l.Sound f.spans keep) {p : Nat} {e : Element F} (he : f.elements[p]? = some e) :
    l.offset p = .ok (l.slot p 0) ∧ l.slot p 0 + e.nnz ≤ l.size := by
  have hspan := Tape.getElem?_spans he
  refine ⟨Layout.offset_eq ?_, ?_⟩
  · rw [hsound.size]
    exact (List.getElem?_eq_some_iff.1 hspan).1
  · rw [Layout.slot_zero_add]
    exact hsound.inside p _ hspan

theorem same_loadInputs
    (hf : f.WellFormed) (hsound : l.Sound f.spans keep) (hm : m.HasSizes s)
    (hwork : l.size ≤ s.work) {xs : List (List F)} (hfit : FitLists f.inputPatterns xs) :
    Same (loadInputs f l xs) (f.loadInputs l xs) m fun _ m' => m'.HasSizes s := by
  refine (f.keepsShape_loadInputs l xs).same hm (gives_checks fun (ys, i) hmem => ?_)
  have hi : xs[i]? = some ys := by
    have hget := List.mem_zipIdx_iff_getElem?.1 hmem
    rw [List.getElem?_take] at hget
    split at hget
    · exact hget
    · cases hget
  obtain ⟨e, he, hnnz⟩ := Tape.element_of_fitLists hf hfit hi
  obtain ⟨hoffset, hle⟩ := slot_add_le hsound he
  refine gives_bind.2 ⟨_, m, gives_ofExcept.2 ⟨hoffset, rfl⟩, gives_slice ?_⟩
  rw [hm.values, ← hnnz]
  exact hle.trans hwork

theorem same_loadTangent
    (hm : m.HasSizes s) {d : Nat} (hd : d < s.nfwd) (l : Layout) (seed : Nat → Nat → F) :
    Same (loadTangent f l d seed) (f.loadTangent l d seed) m fun _ m' => m'.HasSizes s :=
  (f.keepsShape_loadTangent l d seed).same hm (gives_arrays_fwd hm hd)

theorem same_seedAdjoint
    [Add F] (hm : m.HasSizes s) {d : Nat} (hd : d < s.nadj) (o : Nat) (seed : Nat → F) :
    Same (seedAdjoint f d o seed) (f.seedAdjoint d o seed) m fun _ m' => m'.HasSizes s :=
  (f.keepsShape_seedAdjoint d o seed).same hm (gives_arrays_adj hm hd)

theorem gives_inputSlice
    (hf : f.WellFormed) (hm : m.HasSizes s) (hwork : f.full.size ≤ s.work) {i : Nat}
    (hi : i < f.nIn) :
    Gives (inputSlice f i) m () m := by
  refine gives_bind.2 ⟨_, m, gives_ofExcept.2 ⟨Tape.inputRange_eq hf hi, rfl⟩, gives_slice ?_⟩
  rw [hm.values]
  exact (Tape.inputSlot_add_length_le hf hi).trans hwork

section Reading

variable [Zero F]

/-- An output is a slice of every array that holds the layout. -/
theorem readOutput_eq
    (hf : f.WellFormed) (hsound : l.Sound f.spans keep) {w : Array F} (hw : l.size ≤ w.size)
    {o : Nat} (ho : o < f.nOut) :
    readOutput f l w o = f.readOutput l w o := by
  obtain ⟨q, p, e, hq, hp, he, hnnz⟩ := hf.exists_output ho
  obtain ⟨hoffset, hle⟩ := slot_add_le hsound he
  have hlength : f.outputLength o = e.nnz := by
    rw [Tape.outputLength, hp, hnnz]
    rfl
  unfold readOutput
  simp only [hq, hoffset, bind, Except.bind, hlength, inRange_eq (hle.trans hw)]

theorem readOutputs_eq
    (hf : f.WellFormed) (hsound : l.Sound f.spans keep) {w : Array F} (hw : l.size ≤ w.size) :
    readOutputs f l w = f.readOutputs l w := by
  have hcongr : ∀ os : List Nat, (∀ o ∈ os, o < f.nOut) →
      os.mapM (readOutput f l w) = os.mapM (f.readOutput l w) := by
    intro os hos
    induction os with
    | nil => rfl
    | cons o os ih =>
        rw [List.mapM_cons, List.mapM_cons, readOutput_eq hf hsound hw (hos o (by simp)),
          ih fun o' ho' => hos o' (List.mem_cons_of_mem _ ho')]
  exact hcongr _ fun o ho => List.mem_range.1 ho

theorem same_clearAdjoint
    (hm : m.HasSizes s) {d : Nat} (hd : d < s.nadj) :
    Same (clearAdjoint d) (Tape.clearAdjoint d) m fun _ m' => m'.HasSizes s :=
  (Tape.keepsShape_clearAdjoint d).same hm (gives_arrays_adj hm hd)

theorem same_clearAdjointTangent
    (hm : m.HasSizes s) {d : Nat} (hd : d < s.second) :
    Same (clearAdjointTangent d) (Tape.clearAdjointTangent d) m fun _ m' => m'.HasSizes s :=
  (Tape.keepsShape_clearAdjointTangent d).same hm (gives_arrays_adjFwd hm hd)

/-- What is read at an input has the length of the input. -/
theorem same_takeInputAdjoint
    (hf : f.WellFormed) (hm : m.HasSizes s) (hwork : f.full.size ≤ s.work) {d i : Nat}
    (hd : d < s.nadj) (hi : i < f.nIn) :
    Same (takeInputAdjoint f d i) (f.takeInputAdjoint d i) m fun row m' =>
      row.length = f.inputLength i ∧ m'.HasSizes s := by
  refine Same.after (gives_arrays_adj hm hd) (Same.after (gives_inputSlice hf hm hwork hi) ?_)
  have htaken := Tape.gives_takeInputAdjoint hf hi (m := m) (by rw [hm.values]; exact hwork) d
  refine same_refl ((ends_iff_of_gives htaken).2 ⟨by simp [Tape.inputOf], ?_⟩)
  exact (ends_iff_of_gives htaken).1 ((f.keepsShape_takeInputAdjoint d i).ends hm)

theorem same_takeInputAdjointTangent
    (hf : f.WellFormed) (hm : m.HasSizes s) (hwork : f.full.size ≤ s.work) {d i : Nat}
    (hd : d < s.second) (hi : i < f.nIn) :
    Same (takeInputAdjointTangent f d i) (f.takeInputAdjointTangent d i) m fun row m' =>
      row.length = f.inputLength i ∧ m'.HasSizes s := by
  refine Same.after (gives_arrays_adjFwd hm hd) (Same.after (gives_inputSlice hf hm hwork hi) ?_)
  have htaken := Tape.gives_takeInputAdjointTangent hf hi (m := m)
    (by rw [hm.values]; exact hwork) d
  refine same_refl ((ends_iff_of_gives htaken).2 ⟨by simp [Tape.inputOf], ?_⟩)
  exact (ends_iff_of_gives htaken).1 ((f.keepsShape_takeInputAdjointTangent d i).ends hm)

end Reading

/-- What an element looks up ahead is there, and lies inside the layout. -/
theorem ahead_eq_ok
    (hf : f.WellFormed) (hsound : l.Sound f.spans keep) {p : Nat} {e : Element F}
    (he : f.elements[p]? = some e) :
    ∃ slots, ahead l e.instr = .ok slots ∧ ∀ r ∈ slots, r < l.size := by
  have hoffset : ∀ {q : Nat} {e' : Element F}, f.elements[q]? = some e' →
      l.offset q = .ok (l.slot q 0) := fun he' => (slot_add_le hsound he').1
  have hfits := hf.fits p e he
  generalize e.instr = instr at hfits
  cases hfits with
  | input | constant | gather => exact ⟨[], rfl, nofun⟩
  | unary ha =>
      obtain ⟨-, ea, hea, -⟩ := ha
      exact ⟨[], by rw [ahead, hoffset hea]; rfl, nofun⟩
  | binary ha hb =>
      obtain ⟨-, ea, hea, -⟩ := ha
      obtain ⟨-, eb, heb, -⟩ := hb
      exact ⟨[], by rw [ahead, hoffset hea, hoffset heb]; rfl, nofun⟩
  | @ifElse tol cond branch hcond hbefore hbranch =>
      obtain ⟨eb, heb, -⟩ := hbranch
      have hslot := Tape.operandSlot_eq (l := l) (by simpa [Tape.spans] using hsound.size) hcond
        Nat.zero_lt_one
      refine ⟨(cond.slotAt l.slot 0).toList, by rw [ahead, hoffset heb, hslot]; rfl, ?_⟩
      intro r hr
      obtain ⟨-, ec, hec, hfits⟩ := hcond
      obtain ⟨j, hj, rfl⟩ := Option.map_eq_some_iff.1 (Option.mem_toList.1 hr)
      have hjlt := hfits.index 0 Nat.zero_lt_one j hj
      have hle := (slot_add_le hsound hec).2
      have hslotj := l.slot_zero_add cond.position j
      omega

section Sweeps

variable [Zero F] [Add F] [Mul F] [Calculus F]

/-- The slots of a segment, and those that its cells read, lie inside the values. -/
theorem same_segment
    (hf : f.WellFormed) (hsound : l.Sound f.spans keep) (hm : m.HasSizes s)
    (hwork : l.size ≤ s.work) {part : Segment F} (hpart : part ∈ f.segmentsAt l) (check : Bool)
    (op : String) (nfwd : Nat) :
    Same (segment check op nfwd part) (part.forward check op nfwd) m
      fun _ m' => m'.HasSizes s := by
  obtain ⟨p, hp⟩ := List.mem_iff_getElem?.1 hpart
  rw [Tape.getElem?_segmentsAt] at hp
  obtain ⟨e, he, rfl⟩ := Option.map_eq_some_iff.1 hp
  refine Same.after (gives_slice ?_) ((keepsShape_segment check op nfwd _).same hm
    (gives_requireSlots.2 ⟨fun r hr => ?_, rfl⟩))
  · rw [hm.values]
    have hle := (slot_add_le hsound he).2
    simpa [Tape.segmentAt] using hle.trans hwork
  · obtain ⟨c, hc, hr⟩ := List.mem_flatMap.1 hr
    obtain ⟨k, hk⟩ := List.mem_iff_getElem?.1 hc
    have hlt := Tape.slots_numbered_segmentAt hf hsound he (k := k)
      (List.mem_zipIdx_iff_getElem?.2 hk) (List.mem_cons_of_mem _ hr)
    rw [hm.values]
    omega

theorem same_forwardSweep
    (hf : f.WellFormed) (hsound : l.Sound f.spans keep) (hm : m.HasSizes s)
    (hwork : l.size ≤ s.work) {nfwd : Nat} (hnfwd : nfwd ≤ s.nfwd) (op : String) :
    Same (forwardSweep f l op nfwd (f.segmentsAt l))
      (SparseDiff.forwardSweep f.config.checkFinite op nfwd (f.segmentsAt l)) m
      fun _ m' => m'.HasSizes s := by
  refine Same.after (gives_arrays_fwd hm hnfwd) (Same.after (gives_checks fun e hmem => ?_) ?_)
  · obtain ⟨p, hp⟩ := List.mem_iff_getElem?.1 hmem
    obtain ⟨slots, hslots, hinside⟩ := ahead_eq_ok hf hsound (by simpa using hp)
    refine gives_bind.2 ⟨slots, m, gives_ofExcept.2 ⟨hslots, rfl⟩, ?_⟩
    refine gives_requireSlots.2 ⟨fun r hr => ?_, rfl⟩
    have hlt := hinside r hr
    rw [hm.values]
    omega
  · exact same_forM
      (fun _ hpart _ hm' => same_segment hf hsound hm' hwork hpart f.config.checkFinite op nfwd) hm

theorem same_adjointSweep
    (hm : m.HasSizes s) {nadj : Nat} (hnadj : nadj ≤ s.nadj) (check : Bool) (op : String)
    (tape : List (Segment F)) :
    Same (adjointSweep check op nadj tape) (SparseDiff.adjointSweep check op nadj tape) m
      fun _ m' => m'.HasSizes s :=
  (keepsShape_adjointSweep ..).same hm (gives_arrays_adj hm hnadj)

theorem same_secondOrderSweep
    (hm : m.HasSizes s) {nfwd : Nat} (hnfwd : nfwd ≤ s.nfwd) (hnadj : 1 ≤ s.nadj) (check : Bool)
    (op : String) (tape : List (Segment F)) :
    Same (secondOrderSweep check op nfwd tape) (SparseDiff.secondOrderSweep check op nfwd tape) m
      fun _ m' => m'.HasSizes s := by
  have hsecond : s.second = s.nfwd := if_pos hnadj
  refine Same.after (gives_arrays_fwd hm hnfwd) (Same.after (gives_arrays_adj hm hnadj) ?_)
  exact (keepsShape_secondOrderSweep ..).same hm (gives_arrays_adjFwd hm (hsecond ▸ hnfwd))

end Sweeps

end Strict

end SparseDiff
