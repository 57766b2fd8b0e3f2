import SparseDiff.Proofs.Run
import SparseDiff.Tape.Compile
import Mathlib.Data.List.Infix

/-!
# The order of evaluation

A successful search lists the declared inputs and then nodes that passed their check, each
after all its operands. The invariant `Search.Inv` relates the marks, the order and the stack
of open frames; `Search.Inv.enter`, `Search.Inv.skip` and `Search.Inv.leave` say that the three
moves of the search keep it, and `Tape.ordered_of_order` reads the result off at the end.
-/

namespace SparseDiff

namespace Tape

variable {F : Type}

/-- The declaration is accepted if all inputs are symbolic, distinct and not yet seen. -/
theorem checkInputs_eq_ok_iff
    {g : Graph F} {inputs seen : List NodeId} :
    checkInputs g seen inputs = .ok () ↔
      (∀ id ∈ inputs, (∃ n, g.nodes[id]? = some n ∧ n.kind.isSymbolic = true) ∧ id ∉ seen) ∧
        inputs.Nodup := by
  induction inputs generalizing seen with
  | nil => simp [checkInputs]
  | cons id rest ih =>
      have hstep : checkInputs g seen (id :: rest) = .ok () ↔
          ((∃ n, g.nodes[id]? = some n ∧ n.kind.isSymbolic = true) ∧ id ∉ seen) ∧
            checkInputs g (id :: seen) rest = .ok () := by
        cases hn : g.nodes[id]? with
        | none => simp [checkInputs, hn]
        | some n =>
            by_cases hsym : n.kind.isSymbolic
            · by_cases hseen : id ∈ seen <;> simp [checkInputs, hn, hsym, hseen]
            · simp [checkInputs, hn, hsym]
      rw [hstep, ih, List.forall_mem_cons, List.nodup_cons]
      constructor
      · rintro ⟨hid, hrest, hnodup⟩
        refine ⟨⟨hid, fun d hd => ⟨(hrest d hd).1, ?_⟩⟩, fun hmem => ?_, hnodup⟩
        · exact fun hseen => (hrest d hd).2 (List.mem_cons_of_mem _ hseen)
        · exact (hrest id hmem).2 (List.mem_cons_self ..)
      · rintro ⟨⟨hid, hrest⟩, hnot, hnodup⟩
        refine ⟨hid, fun d hd => ⟨(hrest d hd).1, fun hmem => ?_⟩, hnodup⟩
        rcases List.mem_cons.1 hmem with rfl | hseen
        · exact hnot hd
        · exact (hrest d hd).2 hseen

/-- Declared inputs are nodes of the graph. -/
theorem lt_size_of_declared
    {g : Graph F} {inputs : List NodeId}
    (h : ∀ id ∈ inputs, ∃ n, g.nodes[id]? = some n ∧ n.kind.isSymbolic = true) :
    ∀ id ∈ inputs, id < g.size := by
  intro id hid
  obtain ⟨n, hn, -⟩ := h id hid
  exact (Array.getElem?_eq_some_iff.1 hn).1

theorem checkOutputs_eq_ok_iff
    {g : Graph F} {outputs : List NodeId} :
    checkOutputs g outputs = .ok () ↔ ∀ id ∈ outputs, id < g.size := by
  induction outputs with
  | nil => simp [checkOutputs]
  | cons id rest ih => by_cases hid : id < g.size <;> simp [checkOutputs, hid, ih]

end Tape

namespace Search

section Marks

variable {F : Type}

/-- The node is being visited. -/
def Open (s : Search) (id : NodeId) : Prop := s.marks[id]? = some Mark.visiting

/-- The node and all that it needs have been visited. -/
def Done (s : Search) (id : NodeId) : Prop := s.marks[id]? = some Mark.done

/-- A node has one mark. -/
theorem Open.not_done
    {s : Search} {id : NodeId} (h : s.Open id) :
    ¬ s.Done id := by
  intro hdone
  unfold Open at h
  unfold Done at hdone
  rw [h] at hdone
  cases hdone

theorem getElem?_marks_enter
    {s : Search} {id : NodeId} (hnew : s.marks[id]? = some Mark.new) (d : NodeId) :
    (s.enter id).marks[d]? = if d = id then some Mark.visiting else s.marks[d]? := by
  have hlt := (Array.getElem?_eq_some_iff.1 hnew).1
  by_cases hd : d = id
  · subst hd
    simp [enter, hlt]
  · simp [enter, hd, Array.getElem?_setIfInBounds_ne (Ne.symm hd)]

/-- Entering a node finishes none. -/
theorem done_enter_iff
    {s : Search} {id d : NodeId} (hnew : s.marks[id]? = some Mark.new) :
    (s.enter id).Done d ↔ s.Done d := by
  unfold Done
  rw [getElem?_marks_enter hnew]
  by_cases hd : d = id
  · subst hd
    simp [hnew]
  · rw [if_neg hd]

theorem open_enter_iff
    {s : Search} {id d : NodeId} (hnew : s.marks[id]? = some Mark.new) :
    (s.enter id).Open d ↔ d = id ∨ s.Open d := by
  unfold Open
  rw [getElem?_marks_enter hnew]
  by_cases hd : d = id
  · simp [hd]
  · simp [hd]

theorem getElem?_marks_leave
    {s : Search} {id : NodeId} (hopen : s.Open id) (symbolic : Bool) (d : NodeId) :
    (s.leave id symbolic).marks[d]? = if d = id then some Mark.done else s.marks[d]? := by
  have hlt := (Array.getElem?_eq_some_iff.1 hopen).1
  by_cases hd : d = id
  · subst hd
    cases symbolic <;> simp [leave, hlt]
  · cases symbolic <;> simp [leave, hd, Array.getElem?_setIfInBounds_ne (Ne.symm hd)]

/-- Leaving a node finishes it and no other. -/
theorem done_leave_iff
    {s : Search} {id d : NodeId} (hopen : s.Open id) (symbolic : Bool) :
    (s.leave id symbolic).Done d ↔ d = id ∨ s.Done d := by
  unfold Done
  rw [getElem?_marks_leave hopen]
  by_cases hd : d = id
  · simp [hd]
  · simp [hd]

theorem open_leave_iff
    {s : Search} {id d : NodeId} (hopen : s.Open id) (symbolic : Bool) (hd : d ≠ id) :
    (s.leave id symbolic).Open d ↔ s.Open d := by
  unfold Open
  rw [getElem?_marks_leave hopen, if_neg hd]

@[simp] theorem size_marks_enter
    (s : Search) (id : NodeId) :
    (s.enter id).marks.size = s.marks.size := by
  simp [enter]

@[simp] theorem size_marks_leave
    (s : Search) (id : NodeId) (symbolic : Bool) :
    (s.leave id symbolic).marks.size = s.marks.size := by
  cases symbolic <;> simp [leave]

/-- Leaving lists the node unless it is symbolic. -/
theorem order_leave
    (s : Search) (id : NodeId) (symbolic : Bool) :
    (s.leave id symbolic).order.toList =
      s.order.toList ++ if symbolic then [] else [id] := by
  cases symbolic <;> simp [leave]

/-- Leaving notes a symbolic node as free. -/
theorem free_leave
    (s : Search) (id : NodeId) (symbolic : Bool) :
    (s.leave id symbolic).free.toList =
      s.free.toList ++ if symbolic then [id] else [] := by
  cases symbolic <;> simp [leave]

/--
Every open frame has met its operands up to the pending ones, and those are done; only the
node of the frame above may still be open.
-/
def Waiting (g : Graph F) (s : Search) : Option NodeId → List Frame → Prop
  | _, [] => True
  | above, ⟨id, pending⟩ :: stack =>
      (∃ met, operandsOf g id = met ++ pending ∧ ∀ d ∈ met, s.Done d ∨ above = some d) ∧
      Waiting g s (some id) stack

/-- Frames wait for no more when more nodes are done. -/
theorem Waiting.mono
    {g : Graph F} {s s' : Search} {above above' : Option NodeId}
    (h : ∀ d, s.Done d → s'.Done d)
    (habove : ∀ d, above = some d → s'.Done d ∨ above' = some d) :
    ∀ {stack : List Frame}, Waiting g s above stack → Waiting g s' above' stack
  | [], _ => trivial
  | ⟨id, pending⟩ :: stack, ⟨⟨met, hmet, hdone⟩, hrest⟩ => by
      refine ⟨⟨met, hmet, fun d hd => ?_⟩, Waiting.mono h (fun d hd => .inr hd) hrest⟩
      rcases hdone d hd with hd | hd
      · exact .inl (h d hd)
      · exact habove d hd

end Marks

variable {F : Type} [Zero F] [Elementary F] [ElementText F]

/-- A node is listed after its check, and after its operands unless they are free leaves. -/
structure Listed (g : Graph F) (free before : List NodeId) (id : NodeId) : Prop where
  check : g.checkNode id = .ok ()
  symbolic : isSymbolic g id = false
  operands : ∀ d ∈ operandsOf g id, d ∈ before ∨ d ∈ free

/-- What the search keeps true: of its marks, of what it has listed and of its stack. -/
structure Inv (g : Graph F) (inputs : List NodeId) (s : Search) (stack : List Frame) :
    Prop where
  size : s.marks.size = g.size
  done_iff : ∀ id, s.Done id ↔ id ∈ s.order.toList ∨ id ∈ s.free.toList
  nodup : s.order.toList.Nodup
  declared : inputs <+: s.order.toList
  listed : ∀ before id after, s.order.toList = before ++ id :: after →
    inputs.length ≤ before.length → Listed g s.free.toList before id
  opened : ∀ id, s.Open id ↔ id ∈ stack.map Frame.node
  frames : (stack.map Frame.node).Nodup
  waiting : Waiting g s none stack

section Moves

variable {g : Graph F} {inputs : List NodeId} {s : Search} {stack : List Frame}

/-- A new node goes on top of the stack, whose frames may have moved on to wait for it. -/
theorem Inv.enter
    {id : NodeId} (hinv : Inv g inputs s stack) (hnew : s.marks[id]? = some Mark.new)
    {stack' : List Frame} (hnodes : stack'.map Frame.node = stack.map Frame.node)
    (hwaiting : Waiting g (s.enter id) (some id) stack') :
    Inv g inputs (s.enter id) (⟨id, operandsOf g id⟩ :: stack') := by
  have hfresh : id ∉ stack.map Frame.node := by
    intro hmem
    have hopen := (hinv.opened id).2 hmem
    unfold Open at hopen
    rw [hnew] at hopen
    cases hopen
  refine ⟨?_, fun d => ?_, hinv.nodup, hinv.declared, hinv.listed, fun d => ?_, ?_, ?_⟩
  · rw [size_marks_enter]
    exact hinv.size
  · rw [done_enter_iff hnew]
    exact hinv.done_iff d
  · rw [open_enter_iff hnew, hinv.opened d, List.map_cons, hnodes, List.mem_cons]
  · rw [List.map_cons, hnodes]
    exact List.nodup_cons.2 ⟨hfresh, hinv.frames⟩
  · exact ⟨⟨[], rfl, by simp⟩, hwaiting⟩

/-- The next root is entered from an empty stack. -/
theorem Inv.enter_root
    {root : NodeId} (hinv : Inv g inputs s []) (hnew : s.marks[root]? = some Mark.new) :
    Inv g inputs (s.enter root) [⟨root, operandsOf g root⟩] :=
  hinv.enter hnew rfl trivial

/-- A new operand is entered, and its reader waits for it. -/
theorem Inv.enter_operand
    {id d : NodeId} {pending : List NodeId}
    (hinv : Inv g inputs s (⟨id, d :: pending⟩ :: stack))
    (hnew : s.marks[d]? = some Mark.new) :
    Inv g inputs (s.enter d) (⟨d, operandsOf g d⟩ :: ⟨id, pending⟩ :: stack) := by
  obtain ⟨⟨met, hmet, hdone⟩, hrest⟩ := hinv.waiting
  have hkeep : ∀ e, s.Done e → (s.enter d).Done e := fun e he => (done_enter_iff hnew).2 he
  have hwaiting : Waiting g (s.enter d) (some d) (⟨id, pending⟩ :: stack) := by
    refine ⟨⟨met ++ [d], by simp [hmet], fun e he => ?_⟩, hrest.mono hkeep fun e he => .inr he⟩
    rcases List.mem_append.1 he with he | he
    · rcases hdone e he with he | he
      · exact .inl (hkeep e he)
      · cases he
    · exact .inr (by simp [List.mem_singleton.1 he])
  exact hinv.enter hnew rfl hwaiting

/-- An operand that is done is passed over. -/
theorem Inv.skip
    {id d : NodeId} {pending : List NodeId}
    (hinv : Inv g inputs s (⟨id, d :: pending⟩ :: stack)) (hd : s.Done d) :
    Inv g inputs s (⟨id, pending⟩ :: stack) := by
  obtain ⟨⟨met, hmet, hdone⟩, hrest⟩ := hinv.waiting
  refine ⟨hinv.size, hinv.done_iff, hinv.nodup, hinv.declared, hinv.listed, hinv.opened,
    hinv.frames, ⟨⟨met ++ [d], by simp [hmet], fun e he => ?_⟩, hrest⟩⟩
  rcases List.mem_append.1 he with he | he
  · exact hdone e he
  · rw [List.mem_singleton.1 he]
    exact .inl hd

/-- What is listed after its operands stays so when one more node follows. -/
theorem listed_append
    {before : List NodeId} {free free' : List NodeId} {id : NodeId} {symbolic : Bool}
    (hold : ∀ pre d post, before = pre ++ d :: post → inputs.length ≤ pre.length →
      Listed g free pre d)
    (hid : symbolic = false → Listed g free before id)
    (hfree : ∀ d ∈ free, d ∈ free') :
    ∀ pre d post, (before ++ if symbolic then [] else [id]) = pre ++ d :: post →
      inputs.length ≤ pre.length → Listed g free' pre d := by
  have hmono : ∀ pre d, Listed g free pre d → Listed g free' pre d := by
    intro pre d h
    refine ⟨h.check, h.symbolic, fun e he => ?_⟩
    rcases h.operands e he with he | he
    · exact .inl he
    · exact .inr (hfree e he)
  intro pre d post hsplit hlen
  cases symbolic with
  | true =>
      have hsplit' : before = pre ++ d :: post := by simpa using hsplit
      exact hmono pre d (hold pre d post hsplit' hlen)
  | false =>
      rcases List.eq_nil_or_concat post with rfl | ⟨post', e, rfl⟩
      · obtain ⟨hpre, hd⟩ := List.append_inj' hsplit rfl
        cases hd
        rw [← hpre]
        exact hmono before id (hid rfl)
      · have hsplit' : before ++ [id] = (pre ++ d :: post') ++ [e] := by simpa using hsplit
        obtain ⟨hpre, _⟩ := List.append_inj' hsplit' rfl
        exact hmono pre d (hold pre d post' hpre hlen)

/-- A node without pending operands is listed, or noted as free. -/
theorem Inv.leave
    {id : NodeId} (hinv : Inv g inputs s (⟨id, []⟩ :: stack))
    (hcheck : g.checkNode id = .ok ()) :
    Inv g inputs (s.leave id (isSymbolic g id)) stack := by
  obtain ⟨⟨met, hmet, hdone⟩, hrest⟩ := hinv.waiting
  have hopen : s.Open id := (hinv.opened id).2 (by simp)
  have hnot : ¬ (id ∈ s.order.toList ∨ id ∈ s.free.toList) := by
    rw [← hinv.done_iff]
    exact hopen.not_done
  have hframes := List.nodup_cons.1 hinv.frames
  have hlisted : isSymbolic g id = false → Listed g s.free.toList s.order.toList id := by
    intro hsym
    refine ⟨hcheck, hsym, fun d hd => ?_⟩
    rw [hmet, List.append_nil] at hd
    rcases hdone d hd with hd | hd
    · exact (hinv.done_iff d).1 hd
    · cases hd
  refine ⟨?_, fun d => ?_, ?_, ?_, ?_, fun d => ?_, hframes.2, ?_⟩
  · rw [size_marks_leave]
    exact hinv.size
  · rw [done_leave_iff hopen, hinv.done_iff d, order_leave, free_leave]
    cases isSymbolic g id <;> simp <;> tauto
  · rw [order_leave]
    cases isSymbolic g id with
    | true => simpa using hinv.nodup
    | false =>
        refine List.nodup_append.2 ⟨hinv.nodup, by simp, fun a ha b hb heq => ?_⟩
        have hbid : b = id := by simpa using hb
        exact hnot (.inl (hbid ▸ heq ▸ ha))
  · rw [order_leave]
    exact hinv.declared.trans (List.prefix_append _ _)
  · rw [order_leave]
    refine listed_append hinv.listed hlisted fun d hd => ?_
    rw [free_leave]
    exact List.mem_append_left _ hd
  · by_cases hd : d = id
    · subst hd
      have hdone' : (s.leave d (isSymbolic g d)).Done d :=
        (done_leave_iff hopen _).2 (.inl rfl)
      exact ⟨fun h => absurd hdone' h.not_done, fun h => absurd h hframes.1⟩
    · rw [open_leave_iff hopen _ hd, hinv.opened d]
      simp [hd]
  · refine hrest.mono (fun d hd => (done_leave_iff hopen _).2 (.inr hd)) fun d hd => ?_
    cases hd
    exact .inl ((done_leave_iff hopen _).2 (.inl rfl))

end Moves

/-- With an empty stack nothing is open, so a node that is not new is done. -/
theorem Inv.done_of_not_new
    {g : Graph F} {inputs : List NodeId} {s : Search} (hinv : Inv g inputs s []) {id : NodeId}
    (hid : id < g.size) (hold : s.marks[id]? ≠ some Mark.new) :
    s.Done id := by
  have hclosed : ¬ s.Open id := by simp [hinv.opened id]
  have hin : id < s.marks.size := by rwa [hinv.size]
  unfold Done
  unfold Open at hclosed
  rw [Array.getElem?_eq_getElem hin] at hold hclosed ⊢
  cases hmark : s.marks[id] with
  | new => exact absurd (by rw [hmark]) hold
  | visiting => exact absurd (by rw [hmark]) hclosed
  | done => rfl

/-- At the end of a search the invariant holds, and all frames and roots are done. -/
theorem run_spec
    {g : Graph F} {inputs : List NodeId} {s s' : Search} {stack : List Frame}
    {roots : List NodeId}
    (hrun : run g s stack roots = .ok s') (hinv : Inv g inputs s stack) :
    Inv g inputs s' [] ∧
      (∀ d, s.Done d → s'.Done d) ∧
      (∀ f ∈ stack, s'.Done f.node) ∧
      (∀ r ∈ roots, r < g.size → s'.Done r) := by
  fun_induction run g s stack roots with
  | case1 s =>
      cases hrun
      exact ⟨hinv, fun _ h => h, by simp, by simp⟩
  | case2 s root roots hnew ih =>
      obtain ⟨h, hdone, hframes, hroots⟩ := ih hrun (hinv.enter_root hnew)
      refine ⟨h, fun d hd => hdone d ((done_enter_iff hnew).2 hd), by simp, fun r hr hlt => ?_⟩
      rcases List.mem_cons.1 hr with rfl | hr
      · exact hframes ⟨r, operandsOf g r⟩ (by simp)
      · exact hroots r hr hlt
  | case3 s root roots hold ih =>
      obtain ⟨h, hdone, _, hroots⟩ := ih hrun hinv
      refine ⟨h, hdone, by simp, fun r hr hlt => ?_⟩
      rcases List.mem_cons.1 hr with rfl | hr
      · exact hdone r (hinv.done_of_not_new hlt hold)
      · exact hroots r hr hlt
  | case4 s id stack roots e he =>
      cases hrun
  | case5 s id stack roots hcheck ih =>
      have hopen : s.Open id := (hinv.opened id).2 (by simp)
      obtain ⟨h, hdone, hframes, hroots⟩ := ih hrun (hinv.leave hcheck)
      refine ⟨h, fun d hd => hdone d ((done_leave_iff hopen _).2 (.inr hd)), ?_, hroots⟩
      intro f hf
      rcases List.mem_cons.1 hf with rfl | hf
      · exact hdone id ((done_leave_iff hopen _).2 (.inl rfl))
      · exact hframes f hf
  | case6 s id d pending stack roots hd =>
      cases hrun
  | case7 s id d pending stack roots hnew ih =>
      obtain ⟨h, hdone, hframes, hroots⟩ := ih hrun (hinv.enter_operand hnew)
      refine ⟨h, fun e he => hdone e ((done_enter_iff hnew).2 he), ?_, hroots⟩
      intro f hf
      rcases List.mem_cons.1 hf with rfl | hf
      · exact hframes ⟨id, pending⟩ (by simp)
      · exact hframes f (by simp [hf])
  | case8 s id d pending stack roots hd =>
      cases hrun
  | case9 s id d pending stack roots hd ih =>
      obtain ⟨h, hdone, hframes, hroots⟩ := ih hrun (hinv.skip hd)
      refine ⟨h, hdone, ?_, hroots⟩
      intro f hf
      rcases List.mem_cons.1 hf with rfl | hf
      · exact hframes ⟨id, pending⟩ (by simp)
      · exact hframes f (by simp [hf])

/-- Marking a list of nodes as done adds them to those that are done. -/
theorem getElem?_foldl_done
    (inputs : List NodeId) (marks : Array Mark) {d : NodeId} {mark : Mark}
    (hd : (inputs.foldl (fun marks id => marks.setIfInBounds id .done) marks)[d]? =
      some mark) :
    marks[d]? = some mark ∧ d ∉ inputs ∨ mark = .done ∧ d ∈ inputs := by
  induction inputs generalizing marks with
  | nil => exact .inl ⟨hd, by simp⟩
  | cons id inputs ih =>
      rcases ih (marks.setIfInBounds id .done) hd with ⟨hget, hnot⟩ | ⟨hmark, hmem⟩
      · by_cases hid : id = d
        · subst hid
          have hlt : id < marks.size := by
            have := (Array.getElem?_eq_some_iff.1 hget).1
            simpa using this
          have hmark : Mark.done = mark := by simpa [hlt] using hget
          exact .inr ⟨hmark.symm, by simp⟩
        · rw [Array.getElem?_setIfInBounds_ne hid] at hget
          exact .inl ⟨hget, by simp [Ne.symm hid, hnot]⟩
      · exact .inr ⟨hmark, List.mem_cons_of_mem _ hmem⟩

@[simp] theorem size_foldl_done
    (inputs : List NodeId) (marks : Array Mark) :
    (inputs.foldl (fun marks id => marks.setIfInBounds id .done) marks).size =
      marks.size := by
  induction inputs generalizing marks with
  | nil => rfl
  | cons id inputs ih => simp [ih]

/-- Before the search a node is done if it is declared, and new otherwise. -/
theorem getElem?_marks_start
    {size : Nat} {inputs : List NodeId} {d : NodeId} (hd : d < size) :
    (start size inputs).marks[d]? = some (if d ∈ inputs then Mark.done else Mark.new) := by
  have hlt : d < (start size inputs).marks.size := by simpa [start] using hd
  have hget := Array.getElem?_eq_getElem hlt
  rcases getElem?_foldl_done inputs _ hget with ⟨hmark, hnot⟩ | ⟨hmark, hmem⟩
  · have hnew : (start size inputs).marks[d] = Mark.new := by
      simpa [hd] using hmark.symm
    rw [hget, hnew, if_neg hnot]
  · rw [hget, hmark, if_pos hmem]

/-- The invariant holds before the search. -/
theorem inv_start
    {g : Graph F} {inputs : List NodeId}
    (hnodup : inputs.Nodup) (hlt : ∀ id ∈ inputs, id < g.size) :
    Inv g inputs (start g.size inputs) [] := by
  refine ⟨by simp [start], fun d => ?_, by simpa [start] using hnodup, by simp [start],
    fun before id after hsplit hlen => ?_, fun d => ?_, List.nodup_nil, trivial⟩
  · have hfree : ¬ d ∈ (start g.size inputs).free.toList := by simp [start]
    have horder : d ∈ (start g.size inputs).order.toList ↔ d ∈ inputs := by simp [start]
    rw [horder]
    unfold Done
    constructor
    · intro hdone
      have hin : d < g.size := by
        have := (Array.getElem?_eq_some_iff.1 hdone).1
        simpa [start] using this
      rw [getElem?_marks_start hin] at hdone
      by_cases hmem : d ∈ inputs
      · exact .inl hmem
      · simp [hmem] at hdone
    · rintro (hmem | hmem)
      · rw [getElem?_marks_start (hlt d hmem), if_pos hmem]
      · exact absurd hmem hfree
  · have heq : inputs = before ++ id :: after := by simpa [start] using hsplit
    have hlen' := congrArg List.length heq
    simp only [List.length_append, List.length_cons] at hlen'
    omega
  · simp only [List.map_nil, List.not_mem_nil, iff_false]
    intro hopen
    unfold Open at hopen
    have hin : d < g.size := by
      have := (Array.getElem?_eq_some_iff.1 hopen).1
      simpa [start] using this
    rw [getElem?_marks_start hin] at hopen
    by_cases hmem : d ∈ inputs
    · simp [hmem] at hopen
    · simp [hmem] at hopen

end Search

namespace Tape

variable {F : Type} [Zero F] [Elementary F] [ElementText F]

/--
An order of evaluation: the declared inputs, then nodes that passed their check and whose
operands stand before them; every output is there.
-/
structure Ordered (g : Graph F) (inputs outputs order : List NodeId) : Prop where
  nodup : order.Nodup
  declared : inputs <+: order
  symbolic : ∀ id ∈ inputs, ∃ n, g.nodes[id]? = some n ∧ n.kind.isSymbolic = true
  listed : ∀ before id after, order = before ++ id :: after → inputs.length ≤ before.length →
    Search.Listed g [] before id
  placed : ∀ id ∈ outputs, id ∈ order

/-- What stands behind the declared inputs is listed. -/
theorem Ordered.listed_at
    {g : Graph F} {inputs outputs order : List NodeId} (h : Ordered g inputs outputs order)
    {p : Nat} {id : NodeId} (hp : order[p]? = some id) (hlate : inputs.length ≤ p) :
    Search.Listed g [] (order.take p) id := by
  have hlt : p < order.length := (List.getElem?_eq_some_iff.1 hp).1
  have hsplit : order = order.take p ++ id :: order.drop (p + 1) := by
    rw [← (List.getElem?_eq_some_iff.1 hp).2, List.getElem_cons_drop, List.take_append_drop]
  exact h.listed _ id _ hsplit (by rw [List.length_take]; omega)

/-- Behind the declared inputs, operands stand before their readers. -/
theorem Ordered.operand_before
    {g : Graph F} {inputs outputs order : List NodeId} (h : Ordered g inputs outputs order)
    {p : Nat} {id d : NodeId} (hp : order[p]? = some id) (hlate : inputs.length ≤ p)
    (hd : d ∈ Search.operandsOf g id) :
    ∃ q < p, order[q]? = some d := by
  have hbefore := (h.listed_at hp hlate).operands d hd
  obtain ⟨q, hq⟩ := List.mem_iff_getElem?.1 (by simpa using hbefore : d ∈ order.take p)
  rw [List.getElem?_take] at hq
  split at hq
  · next hlt => exact ⟨q, hlt, hq⟩
  · cases hq

/-- A node has one place. -/
theorem Ordered.place_unique
    {g : Graph F} {inputs outputs order : List NodeId} (h : Ordered g inputs outputs order)
    {p q : Nat} {id : NodeId} (hp : order[p]? = some id) (hq : order[q]? = some id) :
    p = q :=
  (List.getElem?_inj (List.getElem?_eq_some_iff.1 hp).1 h.nodup).1 (hp.trans hq.symm)

/-- What stands before is a declared input. -/
theorem Ordered.mem_inputs_at
    {g : Graph F} {inputs outputs order : List NodeId} (h : Ordered g inputs outputs order)
    {p : Nat} {id : NodeId} (hp : order[p]? = some id) (hearly : p < inputs.length) :
    id ∈ inputs := by
  obtain ⟨rest, hrest⟩ := h.declared
  rw [← hrest, List.getElem?_append_left hearly] at hp
  exact List.mem_of_getElem? hp

/-- There is an order if both lists pass and the search ends without free leaves. -/
theorem order_eq_ok_iff
    {g : Graph F} {inputs outputs order : List NodeId} :
    Tape.order g inputs outputs = .ok order ↔
      checkInputs g [] inputs = .ok () ∧ checkOutputs g outputs = .ok () ∧
        ∃ s, Search.run g (Search.start g.size inputs) [] outputs = .ok s ∧
          s.free.toList = [] ∧ s.order.toList = order := by
  have hfree : ∀ s : Search, checkFree g s.free.toList = .ok () ↔ s.free.toList = [] := by
    simp [checkFree]
  constructor
  · intro h
    obtain ⟨_, hin, h⟩ := bind_eq_ok_iff.1 h
    obtain ⟨_, hout, h⟩ := bind_eq_ok_iff.1 h
    obtain ⟨s, hrun, h⟩ := bind_eq_ok_iff.1 h
    obtain ⟨_, hnone, h⟩ := bind_eq_ok_iff.1 h
    exact ⟨hin, hout, s, hrun, (hfree s).1 hnone, Except.ok.inj h⟩
  · rintro ⟨hin, hout, s, hrun, hnone, rfl⟩
    exact bind_eq_ok_iff.2 ⟨(), hin, bind_eq_ok_iff.2 ⟨(), hout, bind_eq_ok_iff.2 ⟨s, hrun,
      bind_eq_ok_iff.2 ⟨(), (hfree s).2 hnone, rfl⟩⟩⟩⟩

/-- The order that compilation computes is an order of evaluation. -/
theorem ordered_of_order
    {g : Graph F} {inputs outputs order : List NodeId}
    (h : Tape.order g inputs outputs = .ok order) :
    Ordered g inputs outputs order := by
  obtain ⟨hin, hout, found, hrun, hnone, rfl⟩ := order_eq_ok_iff.1 h
  obtain ⟨hdeclared, hnodup⟩ := checkInputs_eq_ok_iff.1 hin
  have hsym : ∀ id ∈ inputs, ∃ n, g.nodes[id]? = some n ∧ n.kind.isSymbolic = true :=
    fun id hid => (hdeclared id hid).1
  obtain ⟨hinv, _, _, hroots⟩ :=
    Search.run_spec hrun (Search.inv_start hnodup (lt_size_of_declared hsym))
  refine ⟨hinv.nodup, hinv.declared, hsym, ?_, fun id hid => ?_⟩
  · intro before id after hsplit hlen
    rw [← hnone]
    exact hinv.listed before id after hsplit hlen
  · have hdone := hroots id hid (checkOutputs_eq_ok_iff.1 hout id hid)
    rcases (hinv.done_iff id).1 hdone with hmem | hmem
    · exact hmem
    · rw [hnone] at hmem
      cases hmem

end Tape

end SparseDiff
