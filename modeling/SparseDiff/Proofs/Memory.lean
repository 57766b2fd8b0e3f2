import SparseDiff.Evaluate
import SparseDiff.Proofs.Run
import Mathlib.Data.List.Induction

/-!
# Arrays of a memory

What the sweeps do to an array, slot by slot, and what they leave as it is: no operation
changes the length of an array or their number. `Memory.WellSized` says that the arrays are
as long as the sizes of the memory promise, as in every memory that `Memory.new` makes.
-/

namespace SparseDiff

section Slots

variable {F : Type}

theorem size_foldl_set
    (start : Nat) (items : List (F × Nat)) (w : Array F) :
    (items.foldl (fun w (x, k) => w.setIfInBounds (start + k) x) w).size = w.size := by
  induction items generalizing w with
  | nil => rfl
  | cons item items ih => rw [List.foldl_cons, ih, Array.size_setIfInBounds]

@[simp] theorem size_writeAt
    (start : Nat) (xs : List F) (w : Array F) :
    (writeAt start xs w).size = w.size :=
  size_foldl_set start xs.zipIdx w

variable [Zero F]

@[simp] theorem getD_setIfInBounds_self
    {w : Array F} {s : Nat} (h : s < w.size) (v : F) :
    (w.setIfInBounds s v).getD s 0 = v := by
  simp [Array.getD_eq_getD_getElem?, h]

theorem getD_setIfInBounds_ne
    {w : Array F} {s t : Nat} (h : t ≠ s) (v : F) :
    (w.setIfInBounds s v).getD t 0 = w.getD t 0 := by
  simp [Array.getD_eq_getD_getElem?, Array.getElem?_setIfInBounds_ne (Ne.symm h)]

theorem getD_modify_self
    {w : Array F} {s : Nat} (h : s < w.size) (g : F → F) :
    (w.modify s g).getD s 0 = g (w.getD s 0) := by
  rw [Array.getD_eq_getD_getElem?, Array.getElem?_modify, if_pos rfl]
  simp [h]

theorem getD_modify_ne
    {w : Array F} {s t : Nat} (h : t ≠ s) (g : F → F) :
    (w.modify s g).getD t 0 = w.getD t 0 := by
  simp [Array.getD_eq_getD_getElem?, Array.getElem?_modify, Ne.symm h]

/--
Slots `start`, …, `start + n - 1` have got the numbers `g 0`, …, `g (n - 1)`, and no other
slot has changed.
-/
structure Written (start n : Nat) (g : Nat → F) (before after : Array F) : Prop where
  inside : ∀ k < n, after.getD (start + k) 0 = g k
  outside : ∀ t, (∀ k < n, t ≠ start + k) → after.getD t 0 = before.getD t 0

theorem written_zero
    (start : Nat) (g : Nat → F) (w : Array F) :
    Written start 0 g w w :=
  ⟨fun k hk => absurd hk (Nat.not_lt_zero k), fun _ _ => rfl⟩

theorem Written.step
    {start n : Nat} {g : Nat → F} {before after : Array F} (h : Written start n g before after)
    (hn : start + n < after.size) :
    Written start (n + 1) g before (after.setIfInBounds (start + n) (g n)) := by
  refine ⟨fun k hk => ?_, fun t ht => ?_⟩
  · rcases Nat.lt_succ_iff_lt_or_eq.1 hk with hk | rfl
    · rw [getD_setIfInBounds_ne (by omega)]
      exact h.inside k hk
    · exact getD_setIfInBounds_self hn _
  · rw [getD_setIfInBounds_ne (ht n (Nat.lt_succ_self n))]
    exact h.outside t fun k hk => ht k (Nat.lt_succ_of_lt hk)

omit [Zero F] in
theorem writeAt_concat
    (start : Nat) (xs : List F) (x : F) (w : Array F) :
    writeAt start (xs ++ [x]) w = (writeAt start xs w).setIfInBounds (start + xs.length) x := by
  simp [writeAt, List.zipIdx_append]

/-- A list is written to consecutive slots. -/
theorem written_writeAt
    {start : Nat} (xs : List F) {w : Array F} (hw : start + xs.length ≤ w.size) :
    Written start xs.length (xs.getD · 0) w (writeAt start xs w) := by
  induction xs using List.reverseRecOn with
  | nil => exact written_zero start _ w
  | append_singleton xs x ih =>
      rw [List.length_append, List.length_singleton] at hw ⊢
      have hcongr : Written start xs.length ((xs ++ [x]).getD · 0) w (writeAt start xs w) := by
        have h := ih (by omega)
        refine ⟨fun k hk => ?_, h.outside⟩
        rw [h.inside k hk]
        simp [List.getElem?_append_left hk]
      have hlast := hcongr.step (by rw [size_writeAt]; omega)
      rw [writeAt_concat]
      simpa using hlast

/-- What holds of a slot and of all numbers in a list holds of the slot once the list is written. -/
theorem forall_getD_writeAt
    {P : F → Prop} {start s : Nat} {ys : List F} {w : Array F} (hw : P (w.getD s 0))
    (hys : ∀ y ∈ ys, P y) :
    P ((writeAt start ys w).getD s 0) := by
  induction ys using List.reverseRecOn with
  | nil => exact hw
  | append_singleton ys y ih =>
      have hrest := ih fun y' hy' => hys y' (List.mem_append_left _ hy')
      rw [writeAt_concat]
      by_cases hs : s = start + ys.length
      · subst hs
        rcases Nat.lt_or_ge (start + ys.length) (writeAt start ys w).size with hlt | hge
        · rw [getD_setIfInBounds_self hlt]
          exact hys y (by simp)
        · rw [Array.setIfInBounds_eq_of_size_le hge]
          exact hrest
      · rw [getD_setIfInBounds_ne hs]
        exact hrest

end Slots

/-- There are `count` arrays, each with `n` slots. -/
def Sized {F : Type} (count n : Nat) (arrays : Array (Array F)) : Prop :=
  arrays.size = count ∧ ∀ (d : Nat) (w : Array F), arrays[d]? = some w → w.size = n

section Sized

variable {F : Type} {count n : Nat} {arrays : Array (Array F)}

theorem Sized.size_getD
    (h : Sized count n arrays) {d : Nat} (hd : d < count) :
    (arrays.getD d #[]).size = n := by
  have hlt : d < arrays.size := by
    rw [h.1]
    exact hd
  refine h.2 d _ ?_
  simp [hlt]

theorem sized_replicate
    (count : Nat) (w : Array F) :
    Sized count w.size (Array.replicate count w) := by
  refine ⟨by simp, fun d w' hw' => ?_⟩
  rw [Array.getElem?_replicate] at hw'
  split at hw'
  · rw [Option.some.inj hw']
  · cases hw'

theorem Sized.modify
    (h : Sized count n arrays) (d : Nat) {g : Array F → Array F}
    (hg : ∀ w, (g w).size = w.size) :
    Sized count n (arrays.modify d g) := by
  refine ⟨by simpa using h.1, fun d' w hw => ?_⟩
  rw [Array.getElem?_modify] at hw
  split at hw
  · obtain ⟨w', hw', rfl⟩ := Option.map_eq_some_iff.1 hw
    rw [hg, h.2 d' w' hw']
  · exact h.2 d' w hw

theorem getD_modify_array
    (arrays : Array (Array F)) {d : Nat} (hd : d < arrays.size) (g : Array F → Array F) :
    (arrays.modify d g).getD d #[] = g (arrays.getD d #[]) := by
  rw [Array.getD_eq_getD_getElem?, Array.getElem?_modify, if_pos rfl]
  simp [hd]

theorem modify_modify
    (arrays : Array (Array F)) (d : Nat) (g h : Array F → Array F) :
    (arrays.modify d g).modify d h = arrays.modify d fun w => h (g w) := by
  refine Array.ext_getElem? fun i => ?_
  simp only [Array.getElem?_modify]
  split
  · rw [Option.map_map]
    rfl
  · rfl

@[simp] theorem modify_id
    {α : Type} (items : Array α) (i : Nat) :
    (items.modify i fun x => x) = items := by
  refine Array.ext_getElem? fun j => ?_
  rw [Array.getElem?_modify]
  split <;> simp

theorem getD_modify_array_ne
    (arrays : Array (Array F)) {d d' : Nat} (h : d' ≠ d) (g : Array F → Array F) :
    (arrays.modify d g).getD d' #[] = arrays.getD d' #[] := by
  simp [Array.getD_eq_getD_getElem?, Array.getElem?_modify, Ne.symm h]

/-- The first arrays are replaced, each by a function of its index and itself. -/
theorem getElem?_updateFirst
    {α : Type} (count : Nat) (g : Nat → α → α) (items : Array α) (d : Nat) :
    (updateFirst count g items)[d]? = if d < count then items[d]?.map (g d) else items[d]? := by
  unfold updateFirst
  induction count with
  | zero => simp
  | succ count ih =>
      rw [List.range_succ, List.foldl_concat, Array.getElem?_modify, ih]
      rcases Nat.lt_trichotomy d count with hlt | heq | hgt
      · simp [Nat.ne_of_gt hlt, hlt, Nat.lt_succ_of_lt hlt]
      · simp [heq]
      · have hne : ¬ count = d := by omega
        have hlt : ¬ d < count := by omega
        have hlt' : ¬ d < count + 1 := by omega
        simp [hne, hlt, hlt']

@[simp] theorem size_updateFirst
    {α : Type} (count : Nat) (g : Nat → α → α) (items : Array α) :
    (updateFirst count g items).size = items.size := by
  unfold updateFirst
  induction count with
  | zero => rfl
  | succ count ih => rw [List.range_succ, List.foldl_concat, Array.size_modify, ih]

theorem updateFirst_congr
    {α : Type} {count : Nat} {g h : Nat → α → α} {items : Array α}
    (heq : ∀ d < count, ∀ x, items[d]? = some x → g d x = h d x) :
    updateFirst count g items = updateFirst count h items := by
  refine Array.ext_getElem? fun d => ?_
  rw [getElem?_updateFirst, getElem?_updateFirst]
  split
  · next hd =>
      cases hx : items[d]? with
      | none => rfl
      | some x => simp only [Option.map_some, heq d hd x hx]
  · rfl

theorem updateFirst_updateFirst
    {α : Type} (count : Nat) (g h : Nat → α → α) (items : Array α) :
    updateFirst count h (updateFirst count g items) =
      updateFirst count (fun d x => h d (g d x)) items := by
  refine Array.ext_getElem? fun d => ?_
  simp only [getElem?_updateFirst]
  split
  · rw [Option.map_map]
    rfl
  · rfl

theorem updateFirst_id
    {α : Type} (count : Nat) (items : Array α) :
    updateFirst count (fun _ x => x) items = items := by
  refine Array.ext_getElem? fun d => ?_
  rw [getElem?_updateFirst]
  split <;> simp

theorem getD_updateFirst
    {count : Nat} {arrays : Array (Array F)} {d : Nat} (hd : d < count)
    (hsize : d < arrays.size) (g : Nat → Array F → Array F) :
    (updateFirst count g arrays).getD d #[] = g d (arrays.getD d #[]) := by
  rw [Array.getD_eq_getD_getElem?, getElem?_updateFirst, if_pos hd]
  simp [hsize]

theorem Sized.updateFirst
    (h : Sized count n arrays) (k : Nat) {g : Nat → Array F → Array F}
    (hg : ∀ d w, (g d w).size = w.size) :
    Sized count n (updateFirst k g arrays) := by
  refine ⟨by simpa using h.1, fun d w hw => ?_⟩
  rw [getElem?_updateFirst] at hw
  split at hw
  · obtain ⟨w', hw', rfl⟩ := Option.map_eq_some_iff.1 hw
    rw [hg, h.2 d w' hw']
  · exact h.2 d w hw

/-- The first arrays are changed by the items of a list, one by one. -/
def modifyEach {α : Type} (g : α → Array F → Array F) (items : List α)
    (arrays : Array (Array F)) : Array (Array F) :=
  items.zipIdx.foldl (fun arrays (x, d) => arrays.modify d (g x)) arrays

theorem modifyEach_concat
    {α : Type} (g : α → Array F → Array F) (items : List α) (x : α)
    (arrays : Array (Array F)) :
    modifyEach g (items ++ [x]) arrays = (modifyEach g items arrays).modify items.length (g x) := by
  simp [modifyEach, List.zipIdx_append]

@[simp] theorem size_modifyEach
    {α : Type} (g : α → Array F → Array F) (items : List α) (arrays : Array (Array F)) :
    (modifyEach g items arrays).size = arrays.size := by
  induction items using List.reverseRecOn with
  | nil => rfl
  | append_singleton items x ih => rw [modifyEach_concat, Array.size_modify, ih]

theorem getD_modifyEach_of_length_le
    {α : Type} (g : α → Array F → Array F) (items : List α) (arrays : Array (Array F)) {d : Nat}
    (hd : items.length ≤ d) :
    (modifyEach g items arrays).getD d #[] = arrays.getD d #[] := by
  induction items using List.reverseRecOn with
  | nil => rfl
  | append_singleton items x ih =>
      rw [List.length_append, List.length_singleton] at hd
      rw [modifyEach_concat, getD_modify_array_ne _ (by omega)]
      exact ih (by omega)

/-- Every array is changed by its own item only. -/
theorem getD_modifyEach
    {α : Type} (g : α → Array F → Array F) {items : List α} {arrays : Array (Array F)}
    (hroom : items.length ≤ arrays.size) {d : Nat} {x : α} (hd : items[d]? = some x) :
    (modifyEach g items arrays).getD d #[] = g x (arrays.getD d #[]) := by
  induction items using List.reverseRecOn with
  | nil => simp at hd
  | append_singleton items y ih =>
      rw [List.length_append, List.length_singleton] at hroom
      have hlt := (List.getElem?_eq_some_iff.1 hd).1
      rw [List.length_append, List.length_singleton] at hlt
      rw [modifyEach_concat]
      rcases Nat.lt_or_ge d items.length with hin | hend
      · rw [List.getElem?_append_left hin] at hd
        rw [getD_modify_array_ne _ (by omega)]
        exact ih (by omega) hd
      · have heq : d = items.length := by omega
        subst heq
        rw [List.getElem?_concat_length] at hd
        cases hd
        rw [getD_modify_array _ (by rw [size_modifyEach]; omega),
          getD_modifyEach_of_length_le g items arrays (Nat.le_refl _)]

theorem Sized.modifyEach
    {α : Type} (h : Sized count n arrays) {g : α → Array F → Array F}
    (hg : ∀ x w, (g x w).size = w.size) (items : List α) :
    Sized count n (modifyEach g items arrays) := by
  induction items using List.reverseRecOn with
  | nil => exact h
  | append_singleton items x ih =>
      rw [modifyEach_concat]
      exact ih.modify _ (hg x)

end Sized

section Memories

variable {F : Type}

/-- The arrays of a memory are what its sizes promise. -/
structure Memory.WellSized (m : Memory F) : Prop where
  values : m.values.size = m.sizes.work
  fwd : Sized m.sizes.nfwd m.sizes.work m.fwd
  adj : Sized m.sizes.nadj m.sizes.work m.adj
  adjFwd : Sized m.sizes.second m.sizes.work m.adjFwd

theorem Memory.wellSized_new
    [Zero F] (sizes : MemorySizes) :
    (Memory.new sizes : Memory F).WellSized := by
  have hzeros : (Array.replicate sizes.work (0 : F)).size = sizes.work := by simp
  refine ⟨hzeros, ?_, ?_, ?_⟩
  · have h := sized_replicate sizes.nfwd (Array.replicate sizes.work (0 : F))
    rwa [hzeros] at h
  · have h := sized_replicate sizes.nadj (Array.replicate sizes.work (0 : F))
    rwa [hzeros] at h
  · have h := sized_replicate sizes.second (Array.replicate sizes.work (0 : F))
    rwa [hzeros] at h

/-- A memory is accepted when it is large enough in every respect. -/
theorem MemorySizes.check_eq_ok_iff
    {op : String} {held needed : MemorySizes} :
    held.check op needed = .ok () ↔
      needed.work ≤ held.work ∧ needed.nfwd ≤ held.nfwd ∧ needed.nadj ≤ held.nadj ∧
        needed.second ≤ held.second := by
  unfold MemorySizes.check
  split
  · next h => exact iff_of_false (by simp) (by omega)
  · split
    · next h => exact iff_of_false (by simp) (by omega)
    · split
      · next h => exact iff_of_false (by simp) (by omega)
      · split
        · next h => exact iff_of_false (by simp) (by omega)
        · exact iff_of_true rfl (by omega)

end Memories

section Lists

variable {F : Type}

/-- The lists that fit the patterns, one by one. -/
def FitLists (patterns : List Pattern) (lists : List (List F)) : Prop :=
  List.Forall₂ (fun p xs => xs.length = p.nnz) patterns lists

theorem checkNonzeros_eq_ok_iff
    {op : String} {what : Nat → Quantity} {index : Nat} {patterns : List Pattern}
    {lists : List (List F)} (hlength : lists.length = patterns.length) :
    checkNonzeros op what index patterns lists = .ok () ↔ FitLists patterns lists := by
  unfold FitLists
  induction patterns generalizing index lists with
  | nil =>
      have hnil : lists = [] := List.length_eq_zero_iff.1 hlength
      simp [hnil, checkNonzeros]
  | cons p patterns ih =>
      cases lists with
      | nil => simp at hlength
      | cons xs lists =>
          have hlength' : lists.length = patterns.length := by simpa using hlength
          rw [checkNonzeros, List.forall₂_cons]
          split
          · next hne => exact iff_of_false (by simp) fun h => hne h.1
          · next heq =>
              rw [ih hlength']
              exact ⟨fun h => ⟨not_not.1 heq, h⟩, fun h => h.2⟩

theorem checkLists_eq_ok_iff
    {op : String} {count : Quantity} {what : Nat → Quantity} {patterns : List Pattern}
    {lists : List (List F)} :
    checkLists op count what patterns lists = .ok () ↔ FitLists patterns lists := by
  unfold checkLists
  split
  · next hne => exact iff_of_false (by simp) fun h => hne h.length_eq.symm
  · next heq => exact checkNonzeros_eq_ok_iff (not_not.1 heq)

theorem checkSeeds_eq_ok_iff
    {op : String} {count : Nat → Quantity} {what : Nat → Nat → Quantity}
    {patterns : List Pattern} {d : Nat} {seeds : List (List (List F))} :
    Tape.checkSeeds op count what patterns d seeds = .ok () ↔
      ∀ seed ∈ seeds, FitLists patterns seed := by
  induction seeds generalizing d with
  | nil => simp [Tape.checkSeeds]
  | cons seed seeds ih =>
      rw [Tape.checkSeeds, bind_eq_ok_iff, List.forall_mem_cons]
      constructor
      · rintro ⟨_, hseed, hseeds⟩
        exact ⟨checkLists_eq_ok_iff.1 hseed, ih.1 hseeds⟩
      · rintro ⟨hseed, hseeds⟩
        exact ⟨(), checkLists_eq_ok_iff.2 hseed, ih.2 hseeds⟩

end Lists

end SparseDiff
