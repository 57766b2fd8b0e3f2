import SparseDiff.Proofs.Evaluate
import SparseDiff.Proofs.Outcome

/-!
# Forward sweeps that check

A checked forward sweep looks at every element right after it was swept. Behind the inputs it
finds the numbers of the trace, in any sound layout; at an input it finds what the loading has
left in its slots (`Tape.found`), which no earlier content of the memory decides. So whether a
sweep ends well, and which nonzero it names if it does not, depends on the layout, the inputs
and the seeds only (`Tape.ends_forwardSweep`).
-/

namespace SparseDiff

variable {F : Type}

variable {elements : Array (Element F)}

/-- A test of nonzeros passes at every nonzero of every element. -/
def Everywhere (elements : Array (Element F)) (good : Nat → Nat → Prop) : Prop :=
  ∀ (p : Nat) (e : Element F), elements[p]? = some e → ∀ k < e.nnz, good p k

/-- Nonzero `k` of the element `e` at `p` is the first in tape order that a test refuses. -/
structure FirstRefused (elements : Array (Element F)) (good : Nat → Nat → Prop) (p : Nat)
    (e : Element F) (k : Nat) : Prop where
  element : elements[p]? = some e
  lt : k < e.nnz
  refused : ¬ good p k
  before : ∀ i < k, good p i
  earlier : ∀ q < p, ∀ e' : Element F, elements[q]? = some e' → ∀ i < e'.nnz, good q i

theorem FirstRefused.not_everywhere
    {good : Nat → Nat → Prop} {p k : Nat} {e : Element F} (h : FirstRefused elements good p e k) :
    ¬ Everywhere elements good :=
  fun hall => h.refused (hall p e h.element k h.lt)

/-- Tests that agree at every nonzero refuse the same one first. -/
theorem FirstRefused.congr
    {good good' : Nat → Nat → Prop} {p k : Nat} {e : Element F}
    (h : FirstRefused elements good p e k)
    (hiff : ∀ (q : Nat) (e' : Element F), elements[q]? = some e' → ∀ i < e'.nnz,
      (good q i ↔ good' q i)) :
    FirstRefused elements good' p e k where
  element := h.element
  lt := h.lt
  refused hgood := h.refused ((hiff p e h.element k h.lt).2 hgood)
  before i hi := (hiff p e h.element i (hi.trans h.lt)).1 (h.before i hi)
  earlier q hq e' he' i hi := (hiff q e' he' i hi).1 (h.earlier q hq e' he' i hi)

/-- There is one first refusal. -/
theorem FirstRefused.unique
    {good : Nat → Nat → Prop} {p q k i : Nat} {e e' : Element F}
    (h : FirstRefused elements good p e k) (h' : FirstRefused elements good q e' i) :
    p = q ∧ k = i := by
  have hpq : p = q := by
    rcases Nat.lt_trichotomy p q with hlt | heq | hgt
    · exact absurd (h'.earlier p hlt e h.element k h.lt) h.refused
    · exact heq
    · exact absurd (h.earlier q hgt e' h'.element i h'.lt) h'.refused
  subst hpq
  refine ⟨rfl, ?_⟩
  rcases Nat.lt_trichotomy k i with hlt | heq | hgt
  · exact absurd (h'.before k hlt) h.refused
  · exact heq
  · exact absurd (h.before i hgt) h'.refused

namespace Tape

variable [Zero F] {l : Layout}

/--
Two arrays that get the same lists hold the same in a slot that some list is written to, and
in every slot where they did so before.
-/
theorem getD_writeLists_congr
    {lists : List (List F)} {first t : Nat} {w w' : Array F} (hw : l.size ≤ w.size)
    (hw' : l.size ≤ w'.size)
    (hinside : ∀ i xs, (xs, i) ∈ lists.zipIdx first → l.slot i xs.length ≤ l.size)
    (ht : w.getD t 0 = w'.getD t 0 ∨
      ∃ i xs k, (xs, i) ∈ lists.zipIdx first ∧ k < xs.length ∧ t = l.slot i k) :
    (writeLists l first lists w).getD t 0 = (writeLists l first lists w').getD t 0 := by
  induction lists generalizing first w w' with
  | nil =>
      rcases ht with ht | ⟨i, xs, k, hmem, -⟩
      · exact ht
      · simp at hmem
  | cons xs lists ih =>
      have hmem : (xs, first) ∈ (xs :: lists).zipIdx first := by simp
      have hroom := hinside first xs hmem
      rw [← Layout.slot_zero_add] at hroom
      have hwritten := written_writeAt xs (w := w) (by omega : l.slot first 0 + xs.length ≤ _)
      have hwritten' := written_writeAt xs (w := w') (by omega : l.slot first 0 + xs.length ≤ _)
      have hrest : (writeAt (l.slot first 0) xs w).getD t 0 =
          (writeAt (l.slot first 0) xs w').getD t 0 ∨
            ∃ i ys k, (ys, i) ∈ lists.zipIdx (first + 1) ∧ k < ys.length ∧ t = l.slot i k := by
        by_cases hin : ∃ k < xs.length, t = l.slot first 0 + k
        · obtain ⟨k, hk, rfl⟩ := hin
          exact .inl ((hwritten.inside k hk).trans (hwritten'.inside k hk).symm)
        · have hout : ∀ k < xs.length, t ≠ l.slot first 0 + k := fun k hk heq =>
            hin ⟨k, hk, heq⟩
          rcases ht with ht | ⟨i, ys, k, hmem, hk, rfl⟩
          · left
            rw [hwritten.outside t hout, hwritten'.outside t hout, ht]
          · rcases List.mem_cons.1 (List.zipIdx_cons ▸ hmem) with heq | hmem
            · cases heq
              exact absurd (Layout.slot_zero_add l first k).symm (hout k hk)
            · exact .inr ⟨i, ys, k, hmem, hk, rfl⟩
      exact ih (by simpa using hw) (by simpa using hw')
        (fun i ys hmem => hinside i ys (by
          rw [List.zipIdx_cons]
          exact List.mem_cons_of_mem _ hmem)) hrest

/-- Loaded lists leave in a slot what was there, or one of their entries. -/
theorem forall_getD_writeLists
    {P : F → Prop} {first s : Nat} {lists : List (List F)} {w : Array F} (hw : P (w.getD s 0))
    (hlists : ∀ ys ∈ lists, ∀ y ∈ ys, P y) :
    P ((writeLists l first lists w).getD s 0) := by
  induction lists generalizing first w with
  | nil => exact hw
  | cons ys lists ih =>
      exact ih (forall_getD_writeAt hw (hlists ys (List.mem_cons_self ..)))
        fun zs hzs => hlists zs (List.mem_cons_of_mem _ hzs)

/-- In a slot that some list is written to, they leave one of their entries. -/
theorem exists_mem_getD_writeLists
    {lists : List (List F)} {w : Array F} (hw : l.size ≤ w.size)
    (hinside : ∀ i xs, (xs, i) ∈ lists.zipIdx 0 → l.slot i xs.length ≤ l.size)
    {i k : Nat} {xs : List F} (hi : lists[i]? = some xs) (hk : k < xs.length) :
    ∃ ys ∈ lists, (writeLists l 0 lists w).getD (l.slot i k) 0 ∈ ys := by
  have hmem : (xs, i) ∈ lists.zipIdx 0 := List.mem_zipIdx_iff_getElem?.2 hi
  have hlt : l.slot i k < l.size := by
    have hle := hinside i xs hmem
    unfold Layout.slot at hle ⊢
    omega
  -- the list writes to the slot, so its entry may as well have been there before
  have hsame : (writeLists l 0 lists w).getD (l.slot i k) 0 =
      (writeLists l 0 lists (Array.replicate l.size xs[k])).getD (l.slot i k) 0 :=
    getD_writeLists_congr hw (by simp) hinside (.inr ⟨i, xs, k, hmem, hk, rfl⟩)
  rw [hsame]
  refine forall_getD_writeLists (P := fun x => ∃ ys ∈ lists, x ∈ ys) ?_
    fun ys hys y hy => ⟨ys, hys, hy⟩
  exact ⟨xs, List.mem_of_getElem? hi, by simp [hlt]⟩

variable {f : Tape F} {keep : Nat → Prop}

/--
The number that a sweep in layout `l` finds at nonzero `k` of the element at `p`: at an input
what loading `lists` leaves in its slot, elsewhere the number of the trace, which is in `v`.
-/
def found (f : Tape F) (l : Layout) (lists : List (List F)) (v : Array F) (p k : Nat) : F :=
  if p < f.nIn then (writeLists l 0 lists (Array.replicate l.size 0)).getD (l.slot p k) 0
  else v.getD (f.full.slot p k) 0

/-- At an input, the sweep finds what loading leaves in any memory. -/
theorem getD_writeLists_eq_found
    (hf : f.WellFormed) (hsound : l.Sound f.spans keep) {lists : List (List F)}
    (hfit : FitLists f.inputPatterns lists) {w : Array F} (hw : l.size ≤ w.size) {p k : Nat}
    (hp : p < f.nIn) {e : Element F} (he : f.elements[p]? = some e) (hk : k < e.nnz)
    (v : Array F) :
    (writeLists l 0 lists w).getD (l.slot p k) 0 = f.found l lists v p k := by
  rw [found, if_pos hp]
  obtain ⟨ys, hget, hlength⟩ := list_of_fitLists hf hfit hp he
  exact getD_writeLists_congr hw (by simp)
    (fun i xs hmem => slot_length_le hf hsound hfit (List.mem_zipIdx_iff_getElem?.1 hmem))
    (.inr ⟨p, ys, k, List.mem_zipIdx_iff_getElem?.2 hget, by omega, rfl⟩)

/-- Where an input is needed, a sweep finds its own number. -/
theorem found_eq_of_holds
    {lists : List (List F)} {v : Array F}
    (h : f.Holds l keep f.nIn v (writeLists l 0 lists (Array.replicate l.size 0))) {p k : Nat}
    (hlive : p < f.nIn → Layout.Live f.spans keep f.nIn p) {e : Element F}
    (he : f.elements[p]? = some e) (hk : k < e.nnz) :
    f.found l lists v p k = v.getD (f.full.slot p k) 0 := by
  unfold found
  split
  · next hp => exact h p hp (hlive hp) e he k hk
  · rfl

end Tape

section Segments

variable [Zero F] [Calculus F]

/-- The check of a segment passes, or it names the first nonzero that is not finite. -/
theorem Segment.ends_checkFinite
    (op : String) (nfwd : Nat) (s : Segment F) (m : Memory F) :
    Run.Ends (s.checkFinite op nfwd) m
      (fun _ m' => m' = m ∧ ∀ k < s.cells.length, m.isFiniteAt nfwd (s.start + k) = true)
      (fun err => ∃ k < s.cells.length, m.isFiniteAt nfwd (s.start + k) = false ∧
        (∀ i < k, m.isFiniteAt nfwd (s.start + i) = true) ∧
        err = .rejected (.numeric op s.node k)) := by
  unfold Segment.checkFinite
  rw [Run.ends_bind, Run.ends_get]
  split
  · next k hfind =>
      obtain ⟨hbad, hlt, hbefore⟩ := List.find?_range_eq_some.1 hfind
      exact ⟨k, List.mem_range.1 hlt, by simpa using hbad, by simpa using hbefore, rfl⟩
  · next hfind =>
      refine ⟨rfl, fun k hk => ?_⟩
      simpa using List.find?_eq_none.1 hfind k (List.mem_range.2 hk)

variable [Add F] [Mul F]

/-- A segment whose slots are there is swept; with checking on, its numbers are then finite. -/
theorem Segment.ends_forward
    (check : Bool) (op : String) (nfwd : Nat) {s : Segment F} {m : Memory F}
    (hslots : ∀ c k, (c, k) ∈ s.numbered → c.isInput = false →
      ∀ r ∈ (s.start + k) :: c.slots, r < m.values.size) :
    Run.Ends (s.forward check op nfwd) m
      (fun _ m' => m' = s.sweep nfwd m ∧ (check = true →
        ∀ k < s.cells.length, (s.sweep nfwd m).isFiniteAt nfwd (s.start + k) = true))
      (fun err => check = true ∧ ∃ k < s.cells.length,
        (s.sweep nfwd m).isFiniteAt nfwd (s.start + k) = false ∧
        (∀ i < k, (s.sweep nfwd m).isFiniteAt nfwd (s.start + i) = true) ∧
        err = .rejected (.numeric op s.node k)) := by
  unfold Segment.forward
  rw [Run.ends_bind, Run.ends_get, Run.ends_bind, Run.ends_iff_of_gives (gives_cells hslots)]
  cases check with
  | false => exact ⟨rfl, fun h => absurd h Bool.false_ne_true⟩
  | true =>
      exact (s.ends_checkFinite op nfwd (s.sweep nfwd m)).imp
        (fun _ _ h => ⟨h.1, fun _ => h.2⟩) fun _ h => ⟨rfl, h⟩

end Segments

namespace Tape

variable [Zero F] [Calculus F] {f : Tape F} {l : Layout} {keep : Nat → Prop}

/-- The value that a sweep in layout `l` finds is finite. -/
def FiniteValues (f : Tape F) (l : Layout) (xs : List (List F)) (p k : Nat) : Prop :=
  Calculus.isFinite (f.found l xs (f.valueArray xs) p k) = true

variable [Add F] [Mul F]

/-- The tangent along seed `u` that a sweep in layout `l` finds is finite. -/
def FiniteTangents (f : Tape F) (l : Layout) (xs : List (List F)) (u : Nat → Nat → F)
    (p k : Nat) : Prop :=
  Calculus.isFinite (f.found l (f.seedLists u) (f.tangentArray xs u) p k) = true

/-- What the check of a sweep in layout `l` asks of a nonzero. -/
def Passes (f : Tape F) (l : Layout) (xs : List (List F)) (us : List (Nat → Nat → F))
    (p k : Nat) : Prop :=
  f.FiniteValues l xs p k ∧ ∀ u ∈ us, f.FiniteTangents l xs u p k

/-- The memory of a sweep right after its inputs and seeds are loaded. -/
def loaded (f : Tape F) (l : Layout) (xs : List (List F)) (us : List (Nat → Nat → F))
    (m : Memory F) : Memory F :=
  f.loadSeeds l us { m with values := writeLists l 0 xs m.values }

section Sweep

variable {m : Memory F} {xs : List (List F)} {us : List (Nat → Nat → F)}

/-- The value that a sweep leaves at an element, when it has just passed it. -/
theorem getD_values_sweep_take
    (hf : f.WellFormed) (hsound : l.Sound f.spans keep) (hm : m.WellSized)
    (hwork : l.size ≤ m.sizes.work) (hnfwd : us.length ≤ m.sizes.nfwd)
    (hfit : FitLists f.inputPatterns xs) {p k : Nat} {e : Element F}
    (he : f.elements[p]? = some e) (hk : k < e.nnz) :
    (((f.segmentsAt l).take (p + 1)).foldl (fun m s => s.sweep us.length m)
        (f.loaded l xs us m)).values.getD (l.slot p k) 0 =
      f.found l xs (f.valueArray xs) p k := by
  rcases Nat.lt_or_ge p f.nIn with hin | hlate
  · rw [foldl_sweep_take_inputs hf hin]
    exact getD_writeLists_eq_found hf hsound hfit (by rw [hm.values]; exact hwork) hin he hk _
  · have hreached := reached_take hf hsound (reached_loadSeeds hf hsound hm hwork hnfwd hfit)
      hwork hnfwd hlate (Nat.le_of_lt (Array.getElem?_eq_some_iff.1 he).1)
    have hwritten := (hreached.written hf hsound hwork hnfwd he hlate).1.inside k hk
    rw [Layout.slot_zero_add] at hwritten
    rw [foldl_sweep_take_succ he, found, if_neg (Nat.not_lt.2 hlate)]
    exact hwritten

/-- The tangents that a sweep leaves at an element, when it has just passed it. -/
theorem getD_fwd_sweep_take
    (hf : f.WellFormed) (hsound : l.Sound f.spans keep) (hm : m.WellSized)
    (hwork : l.size ≤ m.sizes.work) (hnfwd : us.length ≤ m.sizes.nfwd)
    (hfit : FitLists f.inputPatterns xs) {p k : Nat} {e : Element F}
    (he : f.elements[p]? = some e) (hk : k < e.nnz) {d : Nat} {u : Nat → Nat → F}
    (hd : us[d]? = some u) :
    ((((f.segmentsAt l).take (p + 1)).foldl (fun m s => s.sweep us.length m)
        (f.loaded l xs us m)).fwd.getD d #[]).getD (l.slot p k) 0 =
      f.found l (f.seedLists u) (f.tangentArray xs u) p k := by
  have hdlt : d < us.length := (List.getElem?_eq_some_iff.1 hd).1
  rcases Nat.lt_or_ge p f.nIn with hin | hlate
  · rw [foldl_sweep_take_inputs hf hin]
    have hload := getD_modifyEach (fun u => writeLists l 0 (f.seedLists u))
      (show us.length ≤ m.fwd.size by rw [hm.fwd.1]; exact hnfwd) hd
    rw [loaded, loadSeeds, hload]
    exact getD_writeLists_eq_found hf hsound (f.fitLists_seedLists u)
      (by rw [hm.fwd.size_getD (by omega)]; exact hwork) hin he hk _
  · have hreached := reached_take hf hsound (reached_loadSeeds hf hsound hm hwork hnfwd hfit)
      hwork hnfwd hlate (Nat.le_of_lt (Array.getElem?_eq_some_iff.1 he).1)
    have hwritten := ((hreached.written hf hsound hwork hnfwd he hlate).2 d hdlt).inside k hk
    have hseed : us.getD d (fun _ _ => 0) = u := by
      rw [List.getD_eq_getElem?_getD, hd]
      rfl
    rw [Layout.slot_zero_add, hseed] at hwritten
    rw [foldl_sweep_take_succ he, found, if_neg (Nat.not_lt.2 hlate)]
    exact hwritten

/-- The check of an element asks for finite numbers where the sweep finds them. -/
theorem isFiniteAt_sweep_take_iff
    (hf : f.WellFormed) (hsound : l.Sound f.spans keep) (hm : m.WellSized)
    (hwork : l.size ≤ m.sizes.work) (hnfwd : us.length ≤ m.sizes.nfwd)
    (hfit : FitLists f.inputPatterns xs) {p k : Nat} {e : Element F}
    (he : f.elements[p]? = some e) (hk : k < e.nnz) :
    (((f.segmentsAt l).take (p + 1)).foldl (fun m s => s.sweep us.length m)
        (f.loaded l xs us m)).isFiniteAt us.length (l.slot p k) = true ↔
      f.Passes l xs us p k := by
  have hvalue := getD_values_sweep_take hf hsound hm hwork hnfwd hfit he hk
  have htangent := fun {d u} => getD_fwd_sweep_take (d := d) (u := u) hf hsound hm hwork hnfwd
    hfit he hk
  have hsize : us.length ≤ (((f.segmentsAt l).take (p + 1)).foldl
      (fun m s => s.sweep us.length m) (f.loaded l xs us m)).fwd.size := by
    rcases Nat.lt_or_ge p f.nIn with hin | hlate
    · rw [foldl_sweep_take_inputs hf hin, loaded, loadSeeds, size_modifyEach, hm.fwd.1]
      exact hnfwd
    · have hreached := reached_take hf hsound (reached_loadSeeds hf hsound hm hwork hnfwd hfit)
        hwork hnfwd (Nat.le_succ_of_le hlate) (Array.getElem?_eq_some_iff.1 he).1
      rw [← hreached.sizes, ← hreached.wellSized.fwd.1] at hnfwd
      exact hnfwd
  generalize ((f.segmentsAt l).take (p + 1)).foldl (fun m s => s.sweep us.length m)
    (f.loaded l xs us m) = m' at hvalue htangent hsize
  rw [Memory.isFiniteAt, hvalue, Bool.and_eq_true, take_toList_eq_map _ #[] hsize, List.all_map,
    List.all_eq_true, Passes]
  refine and_congr Iff.rfl ⟨fun h u hu => ?_, fun h d hd => ?_⟩
  · obtain ⟨d, hd⟩ := List.mem_iff_getElem?.1 hu
    have hfinite := h d (List.mem_range.2 (List.getElem?_eq_some_iff.1 hd).1)
    rw [Function.comp_apply, htangent hd] at hfinite
    exact hfinite
  · have hlt := List.mem_range.1 hd
    have hget : us[d]? = some us[d] := List.getElem?_eq_getElem hlt
    rw [Function.comp_apply, htangent hget]
    exact h _ (List.mem_of_getElem? hget)

/-- The memory of a sweep after its first `j` segments. -/
def sweptTo (f : Tape F) (l : Layout) (xs : List (List F)) (us : List (Nat → Nat → F))
    (m : Memory F) (j : Nat) : Memory F :=
  ((f.segmentsAt l).take j).foldl (fun m s => s.sweep us.length m) (f.loaded l xs us m)

theorem sweptTo_succ
    {j : Nat} {e : Element F} (he : f.elements[j]? = some e) :
    f.sweptTo l xs us m (j + 1) = (segmentAt l e j).sweep us.length (f.sweptTo l xs us m j) :=
  foldl_sweep_take_succ he _

theorem sweptTo_of_le
    {j : Nat} (hj : f.elements.size ≤ j) :
    f.sweptTo l xs us m j = f.afterForward l xs us m := by
  rw [sweptTo, List.take_of_length_le (by rwa [length_segmentsAt])]
  rfl

/-- A segment of a sweep passes the check of its element, or names the first nonzero that fails. -/
theorem ends_forwardSegment
    (hf : f.WellFormed) (hsound : l.Sound f.spans keep) (hm : m.WellSized)
    (hwork : l.size ≤ m.sizes.work) (hnfwd : us.length ≤ m.sizes.nfwd)
    (hfit : FitLists f.inputPatterns xs) (check : Bool) (op : String) {j : Nat} {e : Element F}
    (he : f.elements[j]? = some e) :
    Run.Ends ((segmentAt l e j).forward check op us.length) (f.sweptTo l xs us m j)
      (fun _ m' => m' = f.sweptTo l xs us m (j + 1) ∧
        (check = true → ∀ k < e.nnz, f.Passes l xs us j k))
      (fun err => check = true ∧ ∃ k < e.nnz, ¬ f.Passes l xs us j k ∧
        (∀ i < k, f.Passes l xs us j i) ∧ err = .rejected (.numeric op e.node k)) := by
  have hslots : ∀ c k, (c, k) ∈ (segmentAt l e j).numbered → c.isInput = false →
      ∀ r ∈ ((segmentAt l e j).start + k) :: c.slots, r < (f.sweptTo l xs us m j).values.size := by
    intro c k hmem _ r hr
    have hlt := slots_numbered_segmentAt hf hsound he hmem hr
    rw [sweptTo, size_values_foldl_sweep]
    simp only [loaded, loadSeeds, size_writeLists]
    rw [hm.values]
    omega
  have hcells : (segmentAt l e j).cells.length = e.nnz := by simp [segmentAt]
  have hpasses : ∀ k < e.nnz, ((segmentAt l e j).sweep us.length
      (f.sweptTo l xs us m j)).isFiniteAt us.length ((segmentAt l e j).start + k) = true ↔
        f.Passes l xs us j k := by
    intro k hk
    have hiff := isFiniteAt_sweep_take_iff hf hsound hm hwork hnfwd hfit he hk
    rwa [foldl_sweep_take_succ he, ← Layout.slot_zero_add] at hiff
  refine (Segment.ends_forward check op us.length hslots).imp (fun _ m' h => ?_) fun err h => ?_
  · obtain ⟨rfl, hfinite⟩ := h
    exact ⟨(sweptTo_succ he).symm, fun hcheck k hk =>
      (hpasses k hk).1 (hfinite hcheck k (by rw [hcells]; exact hk))⟩
  · obtain ⟨hcheck, k, hk, hbad, hbefore, rfl⟩ := h
    rw [hcells] at hk
    refine ⟨hcheck, k, hk, fun hpass => ?_, fun i hi => ?_, rfl⟩
    · rw [(hpasses k hk).2 hpass] at hbad
      cases hbad
    · exact (hpasses i (by omega)).1 (hbefore i hi)

/--
A forward sweep over a loaded memory does all its segments and has then passed every check, or
it names the first nonzero that it does not pass.
-/
theorem ends_forwardSweep
    (hf : f.WellFormed) (hsound : l.Sound f.spans keep) (hm : m.WellSized)
    (hwork : l.size ≤ m.sizes.work) (hnfwd : us.length ≤ m.sizes.nfwd)
    (hfit : FitLists f.inputPatterns xs) (check : Bool) (op : String) :
    Run.Ends (forwardSweep check op us.length (f.segmentsAt l)) (f.loaded l xs us m)
      (fun _ m' => m' = f.afterForward l xs us m ∧
        (check = true → Everywhere f.elements (f.Passes l xs us)))
      (fun err => check = true ∧ ∃ p e k, FirstRefused f.elements (f.Passes l xs us) p e k ∧
        err = .rejected (.numeric op e.node k)) := by
  -- `j` segments are done, and with checking on their elements have passed
  have hloop := Run.ends_forM
    (f := Segment.forward check op us.length)
    (E := fun err => check = true ∧ ∃ p e k, FirstRefused f.elements (f.Passes l xs us) p e k ∧
      err = .rejected (.numeric op e.node k))
    (I := fun rest m' => ∃ j, rest = (f.segmentsAt l).drop j ∧ m' = f.sweptTo l xs us m j ∧
      (check = true → ∀ q < j, ∀ e' : Element F, f.elements[q]? = some e' →
        ∀ i < e'.nnz, f.Passes l xs us q i))
    (fun s rest m' hI => ?_) (f.segmentsAt l) (f.loaded l xs us m)
    ⟨0, rfl, rfl, fun _ q hq => absurd hq (Nat.not_lt_zero q)⟩
  · refine hloop.imp (fun _ m' h => ?_) fun _ he => he
    obtain ⟨j, hdrop, rfl, hpassed⟩ := h
    have hj : f.elements.size ≤ j := by
      rw [← length_segmentsAt f l]
      exact List.drop_eq_nil_iff.1 hdrop.symm
    refine ⟨sweptTo_of_le hj, fun hcheck p e he k hk => ?_⟩
    have hlt := (Array.getElem?_eq_some_iff.1 he).1
    exact hpassed hcheck p (by omega) e he k hk
  · obtain ⟨j, hdrop, rfl, hpassed⟩ := hI
    obtain ⟨hj, hrest⟩ := getElem?_of_drop_eq_cons hdrop.symm
    rw [getElem?_segmentsAt] at hj
    obtain ⟨e, he, rfl⟩ := Option.map_eq_some_iff.1 hj
    refine (ends_forwardSegment hf hsound hm hwork hnfwd hfit check op he).imp
      (fun _ m' h => ?_) fun err h => ?_
    · obtain ⟨rfl, hpasses⟩ := h
      refine ⟨j + 1, hrest.symm, rfl, fun hcheck q hq e' he' i hi => ?_⟩
      rcases Nat.lt_succ_iff_lt_or_eq.1 hq with hq | rfl
      · exact hpassed hcheck q hq e' he' i hi
      · rw [he] at he'
        cases he'
        exact hpasses hcheck i hi
    · obtain ⟨hcheck, k, hk, hbad, hbefore, rfl⟩ := h
      exact ⟨hcheck, j, e, k, ⟨he, hk, hbad, hbefore, hpassed hcheck⟩, rfl⟩

/-- A forward sweep guards what its check asks for. -/
theorem guarded_forwardSweep
    (hf : f.WellFormed) (hsound : l.Sound f.spans keep) (hm : m.WellSized)
    (hwork : l.size ≤ m.sizes.work) (hnfwd : us.length ≤ m.sizes.nfwd)
    (hfit : FitLists f.inputPatterns xs) (check : Bool) (op : String) :
    Run.Guarded check (Everywhere f.elements (f.Passes l xs us))
      (forwardSweep check op us.length (f.segmentsAt l)) (f.loaded l xs us m)
      fun _ m' => m' = f.afterForward l xs us m := by
  refine (ends_forwardSweep hf hsound hm hwork hnfwd hfit check op).imp (fun _ _ h => h)
    fun err h => ?_
  obtain ⟨hon, p, e, k, hfirst, rfl⟩ := h
  exact ⟨hon, hfirst.not_everywhere, op, e.node, k, rfl⟩

/-- All values and the tangents along `u` are finite where a sweep in layout `l` finds them. -/
def FiniteForward (f : Tape F) (l : Layout) (xs : List (List F)) (u : Nat → Nat → F) : Prop :=
  Everywhere f.elements (f.FiniteValues l xs) ∧ Everywhere f.elements (f.FiniteTangents l xs u)

theorem everywhere_passes_iff :
    Everywhere f.elements (f.Passes l xs us) ↔
      Everywhere f.elements (f.FiniteValues l xs) ∧
        ∀ u ∈ us, Everywhere f.elements (f.FiniteTangents l xs u) :=
  ⟨fun h => ⟨fun p e he k hk => (h p e he k hk).1,
      fun u hu p e he k hk => (h p e he k hk).2 u hu⟩,
    fun h p e he k hk => ⟨h.1 p e he k hk, fun u hu => h.2 u hu p e he k hk⟩⟩

/-- With a direction at least, a check asks the same of every direction alone. -/
theorem everywhere_passes_iff_of_ne_nil
    (hne : us ≠ []) :
    Everywhere f.elements (f.Passes l xs us) ↔ ∀ u ∈ us, f.FiniteForward l xs u := by
  obtain ⟨u₀, hu₀⟩ := List.exists_mem_of_ne_nil us hne
  rw [everywhere_passes_iff]
  exact ⟨fun h u hu => ⟨h.1, h.2 u hu⟩, fun h => ⟨(h u₀ hu₀).1, fun u hu => (h u hu).2⟩⟩

/-- Values over the full layout. -/
theorem guarded_loadValues
    (hf : f.WellFormed) (hm : m.WellSized) (hwork : f.full.size ≤ m.sizes.work)
    (hfit : FitLists f.inputPatterns xs) (op : String) :
    Run.Guarded f.config.checkFinite (Everywhere f.elements (f.FiniteValues f.full xs))
      (f.loadValues op (f.segmentsAt f.full) xs) m
      fun _ m' => m'.WellSized ∧ m'.sizes = m.sizes ∧
        ∀ s < f.full.size, m'.values.getD s 0 = (f.valueArray xs).getD s 0 := by
  have hsound := hf.full_sound fun _ => True
  have hloaded := gives_loadInputs hf hsound (by rw [hm.values]; exact hwork) hfit
  have hnone : ([] : List (Nat → Nat → F)).length ≤ m.sizes.nfwd := Nat.zero_le _
  have hreached := reached_afterForward hf hsound hm hwork hnone hfit
  have hswept := guarded_forwardSweep hf hsound hm hwork hnone hfit f.config.checkFinite op
  refine (Run.guarded_bind_of_gives hloaded).2 ((hswept.imp fun _ m' hm' => ?_).congr ?_)
  · subst hm'
    exact ⟨hreached.wellSized, hreached.sizes, fun s => getD_of_holds_full hf hreached.values⟩
  · rw [everywhere_passes_iff]
    simp

/-- A request that does not pass its check is refused with the error of the check. -/
theorem run_evaluate_of_check_error
    {fwdSeeds adjSeeds : List (List (List F))} {e : Error}
    (h : f.checkEvaluation "evaluate" m.sizes xs fwdSeeds adjSeeds = .error e) :
    (f.evaluate xs fwdSeeds adjSeeds).run.run m = (.error (.rejected e), m) :=
  Run.run_get_check_of_error (e := fun m' =>
    f.checkEvaluation "evaluate" m'.sizes xs fwdSeeds adjSeeds) h

/--
An evaluation that is accepted either fails in its forward sweep, or it returns the values and
tangents of the trace and ends as its adjoint part does.
-/
theorem ends_evaluate
    (hf : f.WellFormed) (hm : m.WellSized) {fwdSeeds adjSeeds : List (List (List F))}
    (hcheck : f.checkEvaluation "evaluate" m.sizes xs fwdSeeds adjSeeds = .ok ())
    {Q : List (List (List F)) → Memory F → Prop} {E : Failure → Prop}
    (hbad : f.config.checkFinite = true → ∀ p e k,
      FirstRefused f.elements (f.Passes (f.layout adjSeeds.length) xs (fwdSeeds.map seedOf)) p e k →
        E (.rejected (.numeric "evaluate" e.node k)))
    (hadj : (f.config.checkFinite = true →
        Everywhere f.elements (f.Passes (f.layout adjSeeds.length) xs (fwdSeeds.map seedOf))) →
      Run.Ends
        (if adjSeeds.length = 0 then pure [] else
          f.adjointSensitivities "evaluate" (f.segmentsAt (f.layout adjSeeds.length)) adjSeeds)
        (f.afterForward (f.layout adjSeeds.length) xs (fwdSeeds.map seedOf) m) Q E) :
    Run.Ends (f.evaluate xs fwdSeeds adjSeeds) m
      (fun e m' => (f.config.checkFinite = true →
          Everywhere f.elements (f.Passes (f.layout adjSeeds.length) xs (fwdSeeds.map seedOf))) ∧
        e.outputs = (List.range f.nOut).map (f.outputOf (f.valueArray xs)) ∧
        e.fwd = fwdSeeds.map (fun seed =>
          (List.range f.nOut).map (f.outputOf (f.tangentArray xs (seedOf seed)))) ∧
        Q e.adj m') E := by
  have hsound := layout_sound hf adjSeeds.length
  have haccepts := checkEvaluation_eq_ok_iff.1 hcheck
  have hloaded := gives_loadInputs hf hsound (m := m)
    (by rw [hm.values]; exact haccepts.work) haccepts.fitInputs
  have hseeded := gives_loadSeeds hf hsound seedOf fwdSeeds
    (m := { m with values := writeLists (f.layout adjSeeds.length) 0 xs m.values })
    (by simpa [hm.values] using haccepts.work)
  have hswept := ends_forwardSweep hf hsound hm haccepts.work
    (show (fwdSeeds.map seedOf).length ≤ m.sizes.nfwd by
      rw [List.length_map]
      exact haccepts.nfwd) haccepts.fitInputs f.config.checkFinite "evaluate"
  rw [List.length_map] at hswept
  obtain ⟨houtputs, hfwd⟩ := readOutputs_afterForward hf hm haccepts
  unfold evaluate
  simp only [Run.ends_bind, Run.ends_get]
  rw [Run.ends_check_ok hcheck, Run.ends_iff_of_gives hloaded]
  refine (Run.ends_iff_of_gives hseeded).2 ?_
  rw [Run.ends_ofExcept_ok (segments_of_sound hf hsound)]
  refine hswept.imp (fun _ m' h => ?_) fun err h => ?_
  · obtain ⟨rfl, hpassed⟩ := h
    rw [Run.ends_ofExcept_ok houtputs, Run.ends_iff_of_gives
      (Run.gives_mapM_ofExcept.2 ⟨hfwd, rfl⟩)]
    have hrest := hadj hpassed
    split at hrest
    · next hzero =>
        rw [if_pos hzero]
        exact ⟨hpassed, rfl, rfl, hrest⟩
    · next hzero =>
        rw [if_neg hzero]
        simp only [Run.ends_bind]
        exact hrest.imp (fun _ _ h => ⟨hpassed, rfl, rfl, h⟩) fun _ h => h
  · obtain ⟨hon, p, e, k, hfirst, rfl⟩ := h
    exact hbad hon p e k hfirst

/-- A call on fitting inputs whose values pass the check returns the values of the trace. -/
theorem call_eq_ok
    (hf : f.WellFormed) (hfit : FitLists f.inputPatterns xs)
    (hpass : f.config.checkFinite = true →
      Everywhere f.elements (f.FiniteValues (f.layout 0) xs)) :
    f.call xs = .ok ((List.range f.nOut).map (f.outputOf (f.valueArray xs))) := by
  have haccepts : f.Accepts (f.memory 0 0).sizes xs [] [] :=
    ⟨hfit, by simp, by simp, Nat.le_refl _, Nat.le_refl _, Nat.le_refl _⟩
  have hends := ends_evaluate hf (Memory.wellSized_new _) (checkEvaluation_eq_ok_iff.2 haccepts)
    (Q := fun _ _ => True) (E := fun _ => False)
    (fun hon p e k hfirst => hfirst.not_everywhere (everywhere_passes_iff.2 ⟨hpass hon, by simp⟩))
    (fun _ => by simp)
  rcases hends.cases with ⟨e, m', hgives, -, houtputs, -⟩ | ⟨_, -, hfalse⟩
  · have halone : (f.evaluate xs [] []).alone (f.memory 0 0) = .ok e :=
      Run.alone_eq_ok_iff.2 ⟨m', hgives⟩
    rw [call, halone, ← houtputs]
    rfl
  · exact hfalse.elim

end Sweep

end Tape

end SparseDiff
