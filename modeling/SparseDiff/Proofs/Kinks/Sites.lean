import SparseDiff.Kinks
import SparseDiff.Proofs.Checked.Layouts

/-!
# Sites of kinks

A recording reads the operands of all elements after the whole sweep, where it finds the values
of the trace (`Tape.exists_recorded`). Which elements have kinks does not depend on values: nodes,
nonzeros and operations are those of `Tape.kinkSites`, and only the sides are of the inputs. Where
a recording is accepted, so is a call, whatever the layout of its sweep (`Tape.Recorded.call_eq`).
-/

namespace SparseDiff

variable {F : Type}

/-- The operation behind the kink of a cell, whatever the values are. -/
def Cell.kinkOp? : Cell F → Option KinkOp
  | unary op _ => if op.isNonsmooth then some (.unary op) else none
  | binary op _ _ => if op.isNonsmooth then some (.binary op) else none
  | select _ _ _ => some .ifElse
  | _ => none

/-- The seven operations with kinks. -/
def Instr.kinkOp? : Instr F → Option KinkOp
  | unary .abs _ => some (.unary .abs)
  | unary .sign _ => some (.unary .sign)
  | unary .floor _ => some (.unary .floor)
  | unary .ceil _ => some (.unary .ceil)
  | binary .min _ _ => some (.binary .min)
  | binary .max _ _ => some (.binary .max)
  | ifElse _ _ _ => some .ifElse
  | _ => none

theorem kinkOp?_cellAt
    [Zero F] (slot : Nat → Nat → Nat) (k : Nat) (instr : Instr F) :
    (instr.cellAt slot k).kinkOp? = instr.kinkOp? := by
  cases instr with
  | unary op a => cases op <;> rfl
  | binary op a b => cases op <;> rfl
  | _ => rfl

/-- Node, nonzero and operation of every nonzero of every element with a kink, in tape order. -/
def Tape.kinkSites (f : Tape F) : List (NodeId × Nat × KinkOp) :=
  f.elements.toList.flatMap fun e =>
    match e.instr.kinkOp? with
    | some op => (List.range e.nnz).map fun k => (e.node, k, op)
    | none => []

section Sides

variable [Zero F] [One F] [Add F] [Sub F] [Div F] [Elementary F]

/-- Distance and side of a cell, from the values in `w`. -/
def Cell.taken (w : Array F) : Cell F → F × Side
  | unary op a => unaryKink op (readSlot w a)
  | binary op a b => binaryKink op (readSlot w a) (readSlot w b)
  | select tol cond _ => selectKink tol (readSlot w cond)
  | _ => (0, .upper)

theorem Cell.kink?_eq
    (w : Array F) (c : Cell F) :
    c.kink? w = c.kinkOp?.map fun op => (op, c.taken w) := by
  cases c with
  | unary op a =>
      rw [kink?, kinkOp?]
      split <;> rfl
  | binary op a b =>
      rw [kink?, kinkOp?]
      split <;> rfl
  | _ => rfl

/-- The side depends on the slots that the cell reads. -/
theorem Cell.taken_congr
    {c : Cell F} {w w' : Array F} (h : ∀ s ∈ c.slots, w.getD s 0 = w'.getD s 0) :
    c.taken w = c.taken w' := by
  have hread : ∀ a : Option Nat, (∀ s ∈ a.toList, w.getD s 0 = w'.getD s 0) →
      readSlot w a = readSlot w' a := by
    intro a ha
    cases a with
    | none => rfl
    | some s => exact ha s (by simp)
  cases c with
  | unary op a => simp only [taken, hread a h]
  | binary op a b =>
      simp only [taken, hread a fun s hs => h s (List.mem_append_left _ hs),
        hread b fun s hs => h s (List.mem_append_right _ hs)]
  | select tol cond source =>
      simp only [taken, hread cond fun s hs => h s (List.mem_append_left _ hs)]
  | _ => rfl

/-- Kinks of a segment, with what depends on values apart from what does not. -/
theorem Segment.kinks_eq
    (w : Array F) (s : Segment F) :
    s.kinks w = s.numbered.filterMap fun item => item.1.kinkOp?.map fun op =>
      ⟨s.node, item.2, op, (item.1.taken w).1, (item.1.taken w).2⟩ := by
  refine List.filterMap_congr fun (c, k) _ => ?_
  simp only [Cell.kink?_eq, Option.map_map]
  rfl

/-- The sides of a segment, in the order of its cells. -/
theorem Segment.map_side_kinks
    (w : Array F) (s : Segment F) :
    (s.kinks w).map Kink.side =
      (s.cells.filter (·.kinkOp?.isSome)).map fun c => (c.taken w).2 := by
  have hcells : s.cells = s.numbered.map Prod.fst := by simp [numbered]
  rw [hcells, kinks_eq]
  generalize s.numbered = items
  induction items with
  | nil => rfl
  | cons item items ih =>
      rw [List.filterMap_cons, List.map_cons, List.filter_cons]
      cases hop : item.1.kinkOp? with
      | none => simpa using ih
      | some op => simpa using ih

/-- The kinks of a segment are those of its element. -/
theorem Segment.map_site_kinks
    (w : Array F) (l : Layout) (e : Element F) (p : Nat) :
    ((Tape.segmentAt l e p).kinks w).map (fun kink => (kink.node, kink.nonzero, kink.op)) =
      match e.instr.kinkOp? with
      | some op => (List.range e.nnz).map fun k => (e.node, k, op)
      | none => [] := by
  rw [kinks_eq, Tape.numbered_segmentAt, List.filterMap_map]
  simp only [Function.comp_def, kinkOp?_cellAt]
  cases e.instr.kinkOp? with
  | none => simp
  | some op => simp [Tape.segmentAt, Function.comp_def]

end Sides

namespace Tape

section Recording

variable [Zero F] [One F] [Add F] [Sub F] [Div F] [Elementary F] {f : Tape F}

/-- Arrays that agree in the full layout have the same kinks. -/
theorem flatMap_kinks_congr
    (hf : f.WellFormed) {w w' : Array F} (h : ∀ s < f.full.size, w.getD s 0 = w'.getD s 0) :
    (f.segmentsAt f.full).flatMap (Segment.kinks w) =
      (f.segmentsAt f.full).flatMap (Segment.kinks w') := by
  refine List.flatMap_congr fun s hs => ?_
  obtain ⟨p, hp⟩ := List.mem_iff_getElem?.1 hs
  rw [getElem?_segmentsAt] at hp
  obtain ⟨e, he, rfl⟩ := Option.map_eq_some_iff.1 hp
  rw [Segment.kinks_eq, Segment.kinks_eq]
  refine List.filterMap_congr fun (c, k) hmem => ?_
  have htaken : c.taken w = c.taken w' := Cell.taken_congr fun r hr =>
    h r (slots_numbered_segmentAt hf (hf.full_sound fun _ => True) he hmem
      (List.mem_cons_of_mem _ hr))
  simp only [htaken]

variable [Neg F] [Mul F] {xs : List (List F)} {ks : Kinks F}

/-- A memory for values under the full layout. -/
def valueMemory (f : Tape F) : Memory F := .new ⟨f.full.size, 0, 0⟩

/--
A recording that is accepted has swept finite values into memory, and its kinks are those of the
trace.
-/
structure Recorded (f : Tape F) (xs : List (List F)) (ks : Kinks F) (m : Memory F) : Prop where
  fit : FitLists f.inputPatterns xs
  finite : f.config.checkFinite = true → Everywhere f.elements (f.FiniteValues f.full xs)
  swept : Run.Gives (f.loadValues "nonsmooth" (f.segmentsAt f.full) xs) f.valueMemory () m
  size : f.full.size = m.values.size
  values : ∀ s < f.full.size, m.values.getD s 0 = (f.valueArray xs).getD s 0
  list_eq : ks.list = (f.segmentsAt f.full).flatMap (Segment.kinks (f.valueArray xs))

theorem exists_recorded
    (hf : f.WellFormed) (h : f.kinks xs = .ok ks) :
    ∃ m, f.Recorded xs ks m := by
  obtain ⟨_, hcheck, h⟩ := bind_eq_ok_iff.1 h
  have hfit : FitLists f.inputPatterns xs := checkLists_eq_ok_iff.1 (orReject_eq_ok_iff.1 hcheck)
  rw [segments_full hf, ok_bind] at h
  obtain ⟨m, hm, h⟩ := bind_eq_ok_iff.1 h
  cases h
  have hload := guarded_loadValues (m := f.valueMemory) hf (Memory.wellSized_new _)
    (Nat.le_refl _) hfit "nonsmooth"
  obtain ⟨m', hgives⟩ := Run.alone_eq_ok_iff.1 hm
  obtain ⟨_, m₁, hsweep, hget⟩ := Run.gives_bind.1 hgives
  obtain ⟨rfl, rfl⟩ := Run.gives_get.1 hget
  obtain ⟨⟨hsized, hsizes, hvalues⟩, hfinite⟩ := hload.ends.of_gives hsweep
  refine ⟨_, hfit, hfinite, hsweep, ?_, hvalues, flatMap_kinks_congr hf hvalues⟩
  rw [hsized.values, hsizes]
  rfl

variable {m : Memory F}

/-- The sides of a recording, over the cells of the trace. -/
theorem Recorded.signature_eq
    (h : f.Recorded xs ks m) :
    ks.signature = (f.trace.filter (·.kinkOp?.isSome)).map fun c =>
      (c.taken (f.valueArray xs)).2 := by
  rw [Kinks.signature, h.list_eq, trace, List.map_flatMap, List.filter_flatMap, List.map_flatMap]
  exact List.flatMap_congr fun s _ => s.map_side_kinks _

/-- The nonzeros and operations of a recording are those of the tape. -/
theorem Recorded.sites_eq
    (h : f.Recorded xs ks m) :
    ks.list.map (fun kink => (kink.node, kink.nonzero, kink.op)) = f.kinkSites := by
  have helements : f.elements.toList = f.elements.toList.zipIdx.map Prod.fst := by simp
  rw [h.list_eq, List.map_flatMap, segmentsAt, List.flatMap_map, kinkSites, helements,
    List.flatMap_map, ← helements]
  exact List.flatMap_congr fun item _ => Segment.map_site_kinks _ f.full item.1 item.2

/-- Values that pass under the full layout pass under every layout of the tape. -/
theorem finiteValues_of_full
    (hf : f.WellFormed) {l : Layout} {keep : Nat → Prop} (hsound : l.Sound f.spans keep)
    (hfit : FitLists f.inputPatterns xs)
    (h : Everywhere f.elements (f.FiniteValues f.full xs)) :
    Everywhere f.elements (f.FiniteValues l xs) := by
  have hfull := hf.full_sound fun _ => True
  have htrace : ∀ s < f.full.size, Calculus.isFinite ((f.valueArray xs).getD s 0) = true := by
    intro s hs
    obtain ⟨p, e, k, he, hk, rfl⟩ := exists_of_lt_full hf hs
    rw [← hf.apartIn_full.found_eq hf hfull hfit (holds_writeLists_values hf hfull hfit (by simp))
      he hk]
    exact h p e he k hk
  intro p e he k hk
  rcases Nat.lt_or_ge p f.nIn with hin | hlate
  · -- what a sweep finds at an input was given, if not for this input then for a later one
    rw [FiniteValues, found, if_pos hin]
    obtain ⟨zs, hget, hlength⟩ := list_of_fitLists hf hfit hin he
    obtain ⟨ys, hys, hy⟩ := exists_mem_getD_writeLists (w := Array.replicate l.size 0) (by simp)
      (fun i zs hmem => slot_length_le hf hsound hfit (List.mem_zipIdx_iff_getElem?.1 hmem))
      hget (hlength ▸ hk)
    obtain ⟨s, hs, heq⟩ := exists_slot_of_mem hf hfit hys hy
    rw [← heq]
    exact htrace s hs
  · rw [FiniteValues, found, if_neg (Nat.not_lt.2 hlate)]
    exact htrace _ (full_slot_lt hf he hk)

/-- A call is accepted wherever a recording is, and returns the values of the trace. -/
theorem Recorded.call_eq
    (hf : f.WellFormed) (h : f.Recorded xs ks m) :
    f.call xs = .ok ((List.range f.nOut).map (f.outputOf (f.valueArray xs))) :=
  call_eq_ok hf h.fit fun hon => finiteValues_of_full hf (layout_sound hf 0) h.fit (h.finite hon)

end Recording

end Tape

end SparseDiff
