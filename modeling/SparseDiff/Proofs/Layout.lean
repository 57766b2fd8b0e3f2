import SparseDiff.Proofs.Pattern.Numbering
import SparseDiff.Tape.Layout

/-!
# Sound layouts

A layout is sound when no element is given a slot that holds a value still to be read.
Elements are written in tape order, so this is a condition on pairs: when the element at `j`
is written, every earlier element that is read at `j` or later, or kept to the end, lies
apart from it. The full layout is sound for any kept elements (`ofLengths_sound`), the
compact one for the outputs (`reusing_sound`), by an invariant of the slot allocation.
-/

namespace SparseDiff

/-- The head of a rest of a list, and what follows it. -/
theorem getElem?_of_drop_eq_cons
    {α : Type} {xs rest : List α} {x : α} {j : Nat} (h : xs.drop j = x :: rest) :
    xs[j]? = some x ∧ xs.drop (j + 1) = rest := by
  refine ⟨?_, ?_⟩
  · have hget := congrArg (·[0]?) h
    simpa using hget
  · rw [← List.drop_drop, h, List.drop_one, List.tail_cons]

namespace Layout

/-- Slot of nonzero `k` of the element at `position`. -/
def slot (l : Layout) (position k : Nat) : Nat := l.offsets.getD position 0 + k

/-- The value at `a` is needed when the element at `j` is written, or later. -/
def Live (spans : List Span) (keep : Nat → Prop) (j a : Nat) : Prop :=
  keep a ∨ ∃ r s, j ≤ r ∧ spans[r]? = some s ∧ a ∈ s.reads

/-- What is needed later was needed before. -/
theorem Live.mono
    {spans : List Span} {keep : Nat → Prop} {i j a : Nat} (hij : i ≤ j)
    (h : Live spans keep j a) :
    Live spans keep i a := by
  rcases h with h | ⟨r, s, hr, hs, hmem⟩
  · exact .inl h
  · exact .inr ⟨r, s, by omega, hs, hmem⟩

/-- No element is written over a value that is still needed. -/
structure Sound (l : Layout) (spans : List Span) (keep : Nat → Prop) : Prop where
  size : l.offsets.size = spans.length
  inside : ∀ (p : Nat) (s : Span), spans[p]? = some s → l.slot p s.length ≤ l.size
  apart : ∀ (a j : Nat) (sa sj : Span), a < j → spans[a]? = some sa → spans[j]? = some sj →
    Live spans keep j a → ∀ x < sa.length, ∀ y < sj.length, l.slot a x ≠ l.slot j y

theorem getLastD_runningTotals
    (start d : Nat) (ns : List Nat) :
    (runningTotals start ns).getLastD d = start + total ns := by
  have hlen : (runningTotals start ns).length - 1 = ns.length := by simp
  rw [List.getLastD_eq_getLast?, List.getLast?_eq_getElem?, hlen,
    getElem?_runningTotals start ns (Nat.le_refl _), List.take_length]
  rfl

/-- In the full layout an element starts after all elements before it. -/
theorem slot_ofLengths
    (spans : List Span) {p : Nat} (hp : p < spans.length) (k : Nat) :
    (ofLengths spans).slot p k = total ((spans.map Span.length).take p) + k := by
  have hlen : p ≤ (spans.map Span.length).length := by simp; omega
  have hget := getElem?_runningTotals 0 (spans.map Span.length) hlen
  have hdrop : (runningTotals 0 (spans.map Span.length)).dropLast[p]? =
      some (total ((spans.map Span.length).take p)) := by
    rw [List.getElem?_dropLast, if_pos (by simpa using hp), hget, Nat.zero_add]
  simp [slot, ofLengths, Array.getD_eq_getD_getElem?, hdrop]

theorem size_ofLengths
    (spans : List Span) :
    (ofLengths spans).size = total (spans.map Span.length) := by
  rw [← Nat.zero_add (total _), ← getLastD_runningTotals 0 0]
  rfl

theorem total_take_succ
    {ns : List Nat} {p n : Nat} (hp : ns[p]? = some n) :
    total (ns.take (p + 1)) = total (ns.take p) + n := by
  rw [List.take_add_one, hp, total_eq_sum, total_eq_sum]
  simp

theorem total_take_mono
    (ns : List Nat) {p q : Nat} (h : p ≤ q) :
    total (ns.take p) ≤ total (ns.take q) := by
  induction h with
  | refl => exact Nat.le_refl _
  | @step q h ih =>
      cases hq : ns[q]? with
      | none => rw [List.take_add_one, hq]; simpa using ih
      | some n => rw [total_take_succ hq]; omega

/-- In the full layout an element ends before any later one starts. -/
theorem slot_ofLengths_le
    {spans : List Span} {a j : Nat} {s : Span} (ha : spans[a]? = some s) (haj : a < j)
    (hj : j < spans.length) :
    (ofLengths spans).slot a s.length ≤ (ofLengths spans).slot j 0 := by
  have hget : (spans.map Span.length)[a]? = some s.length := by simp [ha]
  have hmono := total_take_mono (spans.map Span.length) (Nat.succ_le_of_lt haj)
  rw [total_take_succ hget] at hmono
  rw [slot_ofLengths spans (by omega), slot_ofLengths spans hj]
  omega

/-- Slots of their own are never shared, whatever is kept. -/
theorem ofLengths_sound
    (spans : List Span) (keep : Nat → Prop) :
    (ofLengths spans).Sound spans keep := by
  refine ⟨by simp [ofLengths], fun p s hp => ?_, fun a j sa sj haj ha hj _ x hx y _ => ?_⟩
  · have hlt := (List.getElem?_eq_some_iff.1 hp).1
    have hget : (spans.map Span.length)[p]? = some s.length := by simp [hp]
    have hmono := total_take_mono (spans.map Span.length) (p := p + 1) (q := spans.length) hlt
    have hall : (spans.map Span.length).take spans.length = spans.map Span.length :=
      List.take_of_length_le (by simp)
    rw [total_take_succ hget, hall] at hmono
    rw [slot_ofLengths spans hlt, size_ofLengths]
    exact hmono
  · have hle := slot_ofLengths_le ha haj (List.getElem?_eq_some_iff.1 hj).1
    unfold slot at hle ⊢
    omega

theorem getElem?_markReads
    (j : Nat) (reads : List Nat) (last : Array (Option Nat)) (p : Nat) :
    (markReads j reads last)[p]? =
      if p ∈ reads then last[p]?.map fun _ => some j else last[p]? := by
  unfold markReads
  induction reads generalizing last with
  | nil => simp
  | cons a reads ih =>
      rw [List.foldl_cons, ih, Array.getElem?_setIfInBounds]
      by_cases ha : a = p
      · subst ha
        by_cases hlt : a < last.size <;> simp [hlt]
      · have ha' : p ≠ a := Ne.symm ha
        simp [ha, ha']

/-- A noted reader is not before any of the first readers. -/
def NotBefore (spans : List Span) (last : Array (Option Nat)) : Prop :=
  ∀ p r : Nat, last[p]? = some (some r) →
    ∀ (i : Nat) (s : Span), spans[i]? = some s → p ∈ s.reads → i ≤ r

/-- Reads are noted in tape order, so that the last one stands. -/
theorem notBefore_foldl
    (met rest : List Span) {last : Array (Option Nat)} (h : NotBefore met last) :
    NotBefore (met ++ rest)
      ((rest.zipIdx met.length).foldl (fun last (s, j) => markReads j s.reads last) last) := by
  induction rest generalizing met last with
  | nil => simpa using h
  | cons s rest ih =>
      have hstep : NotBefore (met ++ [s]) (markReads met.length s.reads last) := by
        intro p r hr i t hi ht
        have hlt := (List.getElem?_eq_some_iff.1 hi).1
        rw [List.length_append, List.length_singleton] at hlt
        rw [getElem?_markReads] at hr
        split at hr
        · obtain ⟨_, _, heq⟩ := Option.map_eq_some_iff.1 hr
          cases heq
          omega
        · next hnot =>
            rcases Nat.lt_or_ge i met.length with him | him
            · rw [List.getElem?_append_left him] at hi
              exact h p r hr i t hi ht
            · have heq : i = met.length := by omega
              subst heq
              rw [List.getElem?_concat_length] at hi
              cases hi
              exact absurd ht hnot
      have hrest := ih (met ++ [s]) hstep
      rw [List.zipIdx_cons, List.foldl_cons]
      simpa using hrest

theorem getElem?_foldl_keep
    (outputs : List Nat) (last : Array (Option Nat)) {p r : Nat}
    (h : (outputs.foldl (fun last o => last.setIfInBounds o none) last)[p]? = some (some r)) :
    p ∉ outputs ∧ last[p]? = some (some r) := by
  induction outputs generalizing last with
  | nil => exact ⟨by simp, h⟩
  | cons o outputs ih =>
      obtain ⟨hnot, hget⟩ := ih _ h
      rw [Array.getElem?_setIfInBounds] at hget
      split at hget
      · split at hget <;> cases hget
      · next hne => exact ⟨by simp [hnot, Ne.symm hne], hget⟩

/-- What has a last reader is no output, and no reader comes later. -/
theorem lastReaders_spec
    {spans : List Span} {outputs : List Nat} {p r : Nat}
    (h : (lastReaders spans outputs)[p]? = some (some r)) :
    p ∉ outputs ∧ ∀ (i : Nat) (s : Span), spans[i]? = some s → p ∈ s.reads → i ≤ r := by
  obtain ⟨hnot, hget⟩ := getElem?_foldl_keep outputs _ h
  have hnone : NotBefore [] ((List.range spans.length).map some).toArray := by
    intro p r _ i s hi
    simp at hi
  exact ⟨hnot, notBefore_foldl [] spans hnone p r hget⟩

/-- Two blocks, each a length and an offset, share no slot. -/
def Apart (b c : Nat × Nat) : Prop := ∀ x < b.1, ∀ y < c.1, b.2 + x ≠ c.2 + y

theorem Apart.symm
    {b c : Nat × Nat} (h : Apart b c) :
    Apart c b :=
  fun x hx y hy heq => h y hy x hx heq.symm

theorem takeBlock_eq_some
    {length offset : Nat} {free rest : List (Nat × Nat)}
    (h : takeBlock length free = some (offset, rest)) :
    ∃ pre post, free = pre ++ (length, offset) :: post ∧ rest = pre ++ post := by
  induction free generalizing rest with
  | nil => simp [takeBlock] at h
  | cons b free ih =>
      obtain ⟨n, o⟩ := b
      rw [takeBlock] at h
      split at h
      · next hn =>
          cases h
          exact ⟨[], free, by simp [hn], rfl⟩
      · obtain ⟨⟨o', rest'⟩, hrest, heq⟩ := Option.map_eq_some_iff.1 h
        cases heq
        obtain ⟨pre, post, hfree, hr⟩ := ih hrest
        exact ⟨(n, o) :: pre, post, by simp [hfree], by simp [hr]⟩

namespace Allocation

variable (spans : List Span) (outputs : List Nat)

/-- The block of the element at `p`. -/
def block (a : Allocation) (p : Nat) : Nat × Nat :=
  ((spans.map Span.length).toArray.getD p 0, a.offsets.getD p 0)

/-- The element at `p` has slots that were not released. -/
def Held (a : Allocation) (p : Nat) : Prop := a.released[p]? = some false

/-- The state of the allocation when the elements before `j` have their slots. -/
structure Inv (j : Nat) (a : Allocation) : Prop where
  size_offsets : a.offsets.size = spans.length
  size_released : a.released.size = spans.length
  inside : ∀ p < j, (a.block spans p).2 + (a.block spans p).1 ≤ a.size
  free_inside : ∀ b ∈ a.free, b.2 + b.1 ≤ a.size
  free_apart : a.free.Pairwise Apart
  held_free : ∀ p < j, a.Held p → ∀ b ∈ a.free, Apart (a.block spans p) b
  held_apart : ∀ p < j, ∀ q < j, p ≠ q → a.Held p → a.Held q →
    Apart (a.block spans p) (a.block spans q)
  released : ∀ p : Nat, a.released[p]? = some true →
    ∃ r < j, (lastReaders spans outputs)[p]? = some (some r)
  apart : ∀ q < j, ∀ p < q, Live spans (· ∈ outputs) q p →
    Apart (a.block spans p) (a.block spans q)

variable {spans outputs}

/-- What is still needed was not released. -/
theorem Inv.held_of_live
    {j : Nat} {a : Allocation} (h : Inv spans outputs j a) {p : Nat} (hp : p < spans.length)
    (hlive : Live spans (· ∈ outputs) j p) :
    a.Held p := by
  have hlt : p < a.released.size := by
    rw [h.size_released]
    exact hp
  have hget := Array.getElem?_eq_getElem hlt
  unfold Held
  rw [hget]
  cases hr : a.released[p] with
  | false => rfl
  | true =>
      rw [hr] at hget
      obtain ⟨r, hrj, hlast⟩ := h.released p hget
      obtain ⟨hnot, hreads⟩ := lastReaders_spec hlast
      rcases hlive with hout | ⟨i, s, hji, hs, hmem⟩
      · exact absurd hout hnot
      · have := hreads i s hs hmem
        omega

/-- Giving the element at `j` slots that are apart from all that is held or free. -/
theorem Inv.place_at
    {j : Nat} {a : Allocation} (h : Inv spans outputs j a) {s : Span} (hs : spans[j]? = some s)
    {offset size : Nat} {free : List (Nat × Nat)} (hsize : a.size ≤ size)
    (hinside : offset + s.length ≤ size) (hfree : free.Sublist a.free)
    (hheld : ∀ p < j, a.Held p → Apart (a.block spans p) (s.length, offset))
    (hnew : ∀ b ∈ free, Apart (s.length, offset) b) :
    Inv spans outputs (j + 1) ⟨a.offsets.setIfInBounds j offset, a.released, free, size⟩ := by
  have hj := (List.getElem?_eq_some_iff.1 hs).1
  have hold : ∀ p, p ≠ j →
      block spans ⟨a.offsets.setIfInBounds j offset, a.released, free, size⟩ p =
        a.block spans p := by
    intro p hp
    simp [block, Array.getD_eq_getD_getElem?, Array.getElem?_setIfInBounds_ne (Ne.symm hp)]
  have hself : block spans ⟨a.offsets.setIfInBounds j offset, a.released, free, size⟩ j =
      (s.length, offset) := by
    have hj' : j < a.offsets.size := by rw [h.size_offsets]; exact hj
    simp [block, Array.getD_eq_getD_getElem?, Array.getElem?_setIfInBounds_self_of_lt hj', hs]
  constructor
  case size_offsets => simpa using h.size_offsets
  case size_released => exact h.size_released
  case inside =>
    intro p hp
    rcases Nat.lt_succ_iff_lt_or_eq.1 hp with hp | rfl
    · rw [hold p (by omega)]
      exact Nat.le_trans (h.inside p hp) hsize
    · rw [hself]
      exact hinside
  case free_inside =>
    intro b hb
    exact Nat.le_trans (h.free_inside b (hfree.subset hb)) hsize
  case free_apart => exact h.free_apart.sublist hfree
  case held_free =>
    intro p hp hheldp b hb
    rcases Nat.lt_succ_iff_lt_or_eq.1 hp with hp | rfl
    · rw [hold p (by omega)]
      exact h.held_free p hp hheldp b (hfree.subset hb)
    · rw [hself]
      exact hnew b hb
  case held_apart =>
    intro p hp q hq hne hheldp hheldq
    rcases Nat.lt_succ_iff_lt_or_eq.1 hp with hp | rfl
    · rcases Nat.lt_succ_iff_lt_or_eq.1 hq with hq | rfl
      · rw [hold p (by omega), hold q (by omega)]
        exact h.held_apart p hp q hq hne hheldp hheldq
      · rw [hold p (by omega), hself]
        exact hheld p hp hheldp
    · rcases Nat.lt_succ_iff_lt_or_eq.1 hq with hq | rfl
      · rw [hold q (by omega), hself]
        exact (hheld q hq hheldq).symm
      · exact absurd rfl hne
  case released =>
    intro p hp
    obtain ⟨r, hr, hlast⟩ := h.released p hp
    exact ⟨r, by omega, hlast⟩
  case apart =>
    intro q hq p hpq hlive
    rcases Nat.lt_succ_iff_lt_or_eq.1 hq with hq | rfl
    · rw [hold p (by omega), hold q (by omega)]
      exact h.apart q hq p hpq hlive
    · rw [hold p (by omega), hself]
      exact hheld p hpq (h.held_of_live (by omega) hlive)

/-- Placing an element keeps the invariant, from a released block or at the end. -/
theorem Inv.place
    {j : Nat} {a : Allocation} (h : Inv spans outputs j a) {s : Span} (hs : spans[j]? = some s) :
    Inv spans outputs (j + 1) (a.place j s.length) := by
  unfold Allocation.place
  split
  · next offset free htake =>
      obtain ⟨pre, post, hfree, rfl⟩ := takeBlock_eq_some htake
      have hmem : (s.length, offset) ∈ a.free := by simp [hfree]
      have hpair := h.free_apart
      rw [hfree, List.pairwise_append, List.pairwise_cons] at hpair
      obtain ⟨-, ⟨hpost, -⟩, hpre⟩ := hpair
      refine h.place_at hs (Nat.le_refl _) (h.free_inside _ hmem) ?_
        (fun p hp hheld => h.held_free p hp hheld _ hmem) fun b hb => ?_
      · rw [hfree]
        exact (List.sublist_cons_self _ _).append_left pre
      · rcases List.mem_append.1 hb with hb | hb
        · exact (hpre b hb _ (by simp)).symm
        · exact hpost b hb
  · refine h.place_at hs (by omega) (Nat.le_refl _) (List.Sublist.refl _)
      (fun p hp _ => ?_) fun b hb => ?_
    · have hle := h.inside p hp
      intro x hx y _
      simp only
      omega
    · have hle := h.free_inside b hb
      intro x _ y hy
      simp only
      omega

/-- A release frees the block of the element, unless that is empty. -/
theorem mem_free_of_release
    {a : Allocation} {i : Nat} {b : Nat × Nat}
    (hb : b ∈ (a.release i ((spans.map Span.length).toArray.getD i 0)).free) :
    b = a.block spans i ∨ b ∈ a.free := by
  unfold Allocation.release at hb
  simp only at hb
  split at hb
  · exact .inr hb
  · exact List.mem_cons.1 hb

theorem getElem?_released_release
    {a : Allocation} {i : Nat} (hi : i < a.released.size) (length p : Nat) :
    (a.release i length).released[p]? = if i = p then some true else a.released[p]? := by
  simp [Allocation.release, Array.getElem?_setIfInBounds, hi]

/-- A release takes the element itself from what is held. -/
theorem held_of_release
    {a : Allocation} {i : Nat} (hi : i < a.released.size) {length p : Nat}
    (hp : (a.release i length).Held p) :
    i ≠ p ∧ a.Held p := by
  unfold Held at hp
  rw [getElem?_released_release hi] at hp
  split at hp
  · cases hp
  · next hne => exact ⟨hne, hp⟩

/-- Releasing an element that is held and has been read for the last time. -/
theorem Inv.release
    {j : Nat} {a : Allocation} (h : Inv spans outputs (j + 1) a) {i : Nat} (hi : i ≤ j)
    (hj : j < spans.length) (hlast : (lastReaders spans outputs)[i]? = some (some j))
    (hheld : a.Held i) :
    Inv spans outputs (j + 1) (a.release i ((spans.map Span.length).toArray.getD i 0)) := by
  have hlt : i < a.released.size := by rw [h.size_released]; omega
  constructor
  case size_offsets => exact h.size_offsets
  case size_released => simpa [Allocation.release] using h.size_released
  case inside => exact h.inside
  case free_inside =>
    intro b hb
    rcases mem_free_of_release hb with rfl | hb
    · exact h.inside i (by omega)
    · exact h.free_inside b hb
  case free_apart =>
    unfold Allocation.release
    simp only
    split
    · exact h.free_apart
    · exact List.pairwise_cons.2 ⟨h.held_free i (by omega) hheld, h.free_apart⟩
  case held_free =>
    intro p hp hheldp b hb
    obtain ⟨hne, hheldp⟩ := held_of_release hlt hheldp
    rcases mem_free_of_release hb with rfl | hb
    · exact h.held_apart p hp i (by omega) (Ne.symm hne) hheldp hheld
    · exact h.held_free p hp hheldp b hb
  case held_apart =>
    intro p hp q hq hne hheldp hheldq
    exact h.held_apart p hp q hq hne (held_of_release hlt hheldp).2 (held_of_release hlt hheldq).2
  case apart => exact h.apart
  case released =>
    intro p hp
    rw [getElem?_released_release hlt] at hp
    split at hp
    · next heq => exact ⟨j, by omega, heq ▸ hlast⟩
    · exact h.released p hp

/-- Releasing the slots of an element that nothing reads any more. -/
theorem Inv.releaseAfter
    {j : Nat} {a : Allocation} (h : Inv spans outputs (j + 1) a) {i : Nat} (hi : i ≤ j)
    (hj : j < spans.length) :
    Inv spans outputs (j + 1)
      (a.releaseAfter (lastReaders spans outputs) (spans.map Span.length).toArray j i) := by
  unfold Allocation.releaseAfter
  split
  · next hcond =>
      obtain ⟨hlast, hunreleased⟩ := hcond
      have hlast : (lastReaders spans outputs)[i]? = some (some j) := by
        rw [Array.getD_eq_getD_getElem?] at hlast
        cases hget : (lastReaders spans outputs)[i]? with
        | none => simp [hget] at hlast
        | some r => simpa [hget] using hlast
      have hheld : a.Held i := by
        have hlt : i < a.released.size := by rw [h.size_released]; omega
        rw [Array.getD_eq_getD_getElem?, Array.getElem?_eq_getElem hlt] at hunreleased
        rw [Held, Array.getElem?_eq_getElem hlt]
        simpa using hunreleased
      exact h.release hi hj hlast hheld
  · exact h

/-- What a step may release was placed before, or just now. -/
theorem le_of_mem_released
    {j : Nat} {reads : List Nat} (hreads : ∀ i ∈ reads, i < j) :
    ∀ i ∈ reads ++ [j], i ≤ j := by
  intro i hi
  rcases List.mem_append.1 hi with hi | hi
  · exact Nat.le_of_lt (hreads i hi)
  · exact Nat.le_of_eq (List.mem_singleton.1 hi)

/-- One step of the allocation. -/
theorem Inv.step
    {j : Nat} {a : Allocation} (h : Inv spans outputs j a) {s : Span} (hs : spans[j]? = some s)
    (hreads : ∀ i ∈ s.reads, i < j) :
    Inv spans outputs (j + 1)
      (a.step (lastReaders spans outputs) (spans.map Span.length).toArray (s, j)) := by
  have hj := (List.getElem?_eq_some_iff.1 hs).1
  have hall := le_of_mem_released hreads
  unfold Allocation.step
  generalize hb : a.place j s.length = b
  have hb' : Inv spans outputs (j + 1) b := hb ▸ h.place hs
  clear hb
  generalize s.reads ++ [j] = is at hall
  induction is generalizing b with
  | nil => exact hb'
  | cons i is ih =>
      refine ih _ (hb'.releaseAfter (hall i (List.mem_cons_self ..)) hj) fun i' hi' => ?_
      exact hall i' (List.mem_cons_of_mem _ hi')

/-- The whole allocation. -/
theorem Inv.foldl
    (rest : List Span) {j : Nat} {a : Allocation} (h : Inv spans outputs j a)
    (hrest : spans.drop j = rest)
    (hreads : ∀ (p : Nat) (s : Span), spans[p]? = some s → ∀ i ∈ s.reads, i < p) :
    Inv spans outputs (j + rest.length)
      ((rest.zipIdx j).foldl
        (Allocation.step (lastReaders spans outputs) (spans.map Span.length).toArray) a) := by
  induction rest generalizing j a with
  | nil => exact h
  | cons s rest ih =>
      obtain ⟨hs, hdrop⟩ := getElem?_of_drop_eq_cons hrest
      have hnext := ih (h.step hs (hreads j s hs)) hdrop
      rw [List.zipIdx_cons, List.foldl_cons, List.length_cons]
      have hlen : j + (rest.length + 1) = j + 1 + rest.length := by omega
      rw [hlen]
      exact hnext

/-- Before the first step nothing is given out. -/
theorem inv_start :
    Inv spans outputs 0
      ⟨Array.replicate spans.length 0, Array.replicate spans.length false, [], 0⟩ := by
  refine ⟨by simp, by simp, by simp, by simp, List.Pairwise.nil, by simp, by simp,
    fun p hp => ?_, by simp⟩
  have hp' : (Array.replicate spans.length false)[p]? = some true := hp
  rw [Array.getElem?_replicate] at hp'
  split at hp' <;> cases hp'

end Allocation

/-- Reused slots hold nothing that is still to be read, and no output. -/
theorem reusing_sound
    {spans : List Span} {outputs : List Nat}
    (hreads : ∀ (p : Nat) (s : Span), spans[p]? = some s → ∀ i ∈ s.reads, i < p) :
    (reusing spans outputs).Sound spans (· ∈ outputs) := by
  have hinv : Allocation.Inv spans outputs (0 + spans.length) _ :=
    Allocation.inv_start.foldl spans rfl hreads
  rw [Nat.zero_add] at hinv
  have hblock : ∀ (p : Nat) (s : Span), spans[p]? = some s →
      (spans.map Span.length).toArray.getD p 0 = s.length := by
    intro p s hp
    simp [Array.getD_eq_getD_getElem?, hp]
  refine ⟨hinv.size_offsets, fun p s hp => ?_, fun a j sa sj haj ha hj hlive x hx y hy => ?_⟩
  · have hle := hinv.inside p (List.getElem?_eq_some_iff.1 hp).1
    rw [← hblock p s hp]
    exact hle
  · have hapart := hinv.apart j (List.getElem?_eq_some_iff.1 hj).1 a haj hlive
    refine hapart x ?_ y ?_
    · rw [← hblock a sa ha] at hx
      exact hx
    · rw [← hblock j sj hj] at hy
      exact hy

namespace Allocation

theorem size_step_le
    (last : Array (Option Nat)) (lengths : Array Nat) (a : Allocation) (s : Span × Nat) :
    (step last lengths a s).size ≤ a.size + s.1.length := by
  have hrelease : ∀ (items : List Nat) (a : Allocation),
      (items.foldl (releaseAfter last lengths s.2) a).size = a.size := by
    intro items
    induction items with
    | nil => exact fun _ => rfl
    | cons i items ih =>
        intro a
        rw [List.foldl_cons, ih, releaseAfter]
        split <;> rfl
  rw [step, hrelease, place]
  split
  · exact Nat.le_add_right ..
  · exact Nat.le_refl _

end Allocation

/-- Reusing slots never takes more of them. -/
theorem size_reusing_le
    (spans : List Span) (outputs : List Nat) :
    (reusing spans outputs).size ≤ (ofLengths spans).size := by
  have hfold : ∀ (last : Array (Option Nat)) (lengths : Array Nat) (items : List (Span × Nat))
      (a : Allocation),
      (items.foldl (Allocation.step last lengths) a).size ≤
        a.size + total (items.map fun item => item.1.length) := by
    intro last lengths items
    induction items with
    | nil => exact fun a => Nat.le_add_right ..
    | cons item items ih =>
        intro a
        have hstep := Allocation.size_step_le last lengths a item
        have hrest := ih (Allocation.step last lengths a item)
        rw [List.foldl_cons, List.map_cons, total_cons]
        omega
  have hlengths : spans.zipIdx.map (fun item => item.1.length) = spans.map Span.length := by
    rw [← List.zipIdx_map_fst 0 spans, List.map_map, List.zipIdx_map_fst]
    rfl
  have hle := hfold (lastReaders spans outputs) (spans.map Span.length).toArray spans.zipIdx
    ⟨Array.replicate spans.length 0, Array.replicate spans.length false, [], 0⟩
  rw [hlengths, Nat.zero_add] at hle
  rw [size_ofLengths]
  exact hle

namespace Allocation

variable {spans : List Span}

/-- Blocks that were given out: those of the elements before `j` and the released ones. -/
def Given (spans : List Span) (j : Nat) (a : Allocation) (b : Nat × Nat) : Prop :=
  (∃ p < j, b = a.block spans p) ∨ b ∈ a.free

/-- Blocks are only given out again as a whole: any two are one block, or share no slot. -/
structure Whole (spans : List Span) (j : Nat) (a : Allocation) : Prop where
  size_offsets : a.offsets.size = spans.length
  inside : ∀ b, a.Given spans j b → b.2 + b.1 ≤ a.size
  apart : ∀ b c, a.Given spans j b → a.Given spans j c → b = c ∨ Apart b c

theorem Whole.of_given
    {i j : Nat} {a a' : Allocation} (h : a.Whole spans i)
    (hoffsets : a'.offsets.size = a.offsets.size) (hsize : a'.size = a.size)
    (hgiven : ∀ b, a'.Given spans j b → a.Given spans i b) :
    a'.Whole spans j :=
  ⟨hoffsets.trans h.size_offsets, fun b hb => hsize ▸ h.inside b (hgiven b hb),
    fun b c hb hc => h.apart b c (hgiven b hb) (hgiven c hc)⟩

/-- After giving out a block for the element at `j`, the elements before have theirs. -/
theorem given_set
    {j : Nat} {a : Allocation} {s : Span} (hs : spans[j]? = some s)
    (hsize : a.offsets.size = spans.length) {offset size : Nat} {free : List (Nat × Nat)}
    {b : Nat × Nat}
    (hb : Given spans (j + 1) ⟨a.offsets.setIfInBounds j offset, a.released, free, size⟩ b) :
    (∃ p < j, b = a.block spans p) ∨ b = (s.length, offset) ∨ b ∈ free := by
  have hj := (List.getElem?_eq_some_iff.1 hs).1
  rcases hb with ⟨p, hp, rfl⟩ | hb
  · rcases Nat.lt_succ_iff_lt_or_eq.1 hp with hp | rfl
    · refine .inl ⟨p, hp, ?_⟩
      simp [block, Array.getD_eq_getD_getElem?, Array.getElem?_setIfInBounds_ne (Nat.ne_of_gt hp)]
    · have hp' : p < a.offsets.size := by
        rw [hsize]
        exact hj
      refine .inr (.inl ?_)
      simp [block, Array.getD_eq_getD_getElem?, Array.getElem?_setIfInBounds_self_of_lt hp', hs]
  · exact .inr (.inr hb)

theorem Whole.place
    {j : Nat} {a : Allocation} (h : a.Whole spans j) {s : Span} (hs : spans[j]? = some s) :
    (a.place j s.length).Whole spans (j + 1) := by
  unfold Allocation.place
  split
  · next offset free htake =>
      obtain ⟨pre, post, hfree, rfl⟩ := takeBlock_eq_some htake
      refine h.of_given (by simp) rfl fun b hb => ?_
      rcases given_set hs h.size_offsets hb with hb | rfl | hb
      · exact .inl hb
      · exact .inr (by simp [hfree])
      · refine .inr ?_
        rw [hfree]
        rcases List.mem_append.1 hb with hb | hb
        · exact List.mem_append_left _ hb
        · exact List.mem_append_right _ (List.mem_cons_of_mem _ hb)
  · have hgiven : ∀ b, Given spans (j + 1) ⟨a.offsets.setIfInBounds j a.size, a.released, a.free,
        a.size + s.length⟩ b → a.Given spans j b ∨ b = (s.length, a.size) := by
      intro b hb
      rcases given_set hs h.size_offsets hb with hb | hb | hb
      · exact .inl (.inl hb)
      · exact .inr hb
      · exact .inl (.inr hb)
    -- the new block starts where all others have ended
    have hnew : ∀ b, a.Given spans j b → Apart b (s.length, a.size) := by
      intro b hb x hx y _
      have hle := h.inside b hb
      simp only
      omega
    refine ⟨by simpa using h.size_offsets, fun b hb => ?_, fun b c hb hc => ?_⟩
    · rcases hgiven b hb with hb | rfl
      · exact Nat.le_trans (h.inside b hb) (Nat.le_add_right ..)
      · exact Nat.le_refl _
    · rcases hgiven b hb with hb | rfl <;> rcases hgiven c hc with hc | rfl
      · exact h.apart b c hb hc
      · exact .inr (hnew b hb)
      · exact .inr (hnew c hc).symm
      · exact .inl rfl

theorem Whole.releaseAfter
    {i j : Nat} {a : Allocation} (h : a.Whole spans (j + 1)) (hi : i ≤ j)
    (last : Array (Option Nat)) :
    (a.releaseAfter last (spans.map Span.length).toArray j i).Whole spans (j + 1) := by
  unfold Allocation.releaseAfter
  split
  · refine h.of_given rfl rfl fun b hb => ?_
    rcases hb with hb | hb
    · exact .inl hb
    · unfold Allocation.release at hb
      simp only at hb
      split at hb
      · exact .inr hb
      · rcases List.mem_cons.1 hb with rfl | hb
        · exact .inl ⟨i, Nat.lt_succ_of_le hi, rfl⟩
        · exact .inr hb
  · exact h

theorem Whole.step
    {j : Nat} {a : Allocation} (h : a.Whole spans j) {s : Span} (hs : spans[j]? = some s)
    (hreads : ∀ i ∈ s.reads, i < j) (last : Array (Option Nat)) :
    (a.step last (spans.map Span.length).toArray (s, j)).Whole spans (j + 1) := by
  have hall := le_of_mem_released hreads
  exact List.foldlRecOn (motive := fun b : Allocation => b.Whole spans (j + 1)) _ _ (h.place hs)
    fun _ hb i hi => hb.releaseAfter (hall i hi) last

theorem Whole.foldl
    (rest : List Span) (last : Array (Option Nat)) {j : Nat} {a : Allocation}
    (h : a.Whole spans j) (hrest : spans.drop j = rest)
    (hreads : ∀ (p : Nat) (s : Span), spans[p]? = some s → ∀ i ∈ s.reads, i < p) :
    ((rest.zipIdx j).foldl (Allocation.step last (spans.map Span.length).toArray) a).Whole spans
      (j + rest.length) := by
  induction rest generalizing j a with
  | nil => exact h
  | cons s rest ih =>
      obtain ⟨hs, hdrop⟩ := getElem?_of_drop_eq_cons hrest
      have hnext := ih (h.step hs (hreads j s hs) last) hdrop
      rw [List.zipIdx_cons, List.foldl_cons, List.length_cons]
      have hlen : j + (rest.length + 1) = j + 1 + rest.length := by omega
      rw [hlen]
      exact hnext

end Allocation

/-- In the compact layout only elements of one length share slots. -/
theorem reusing_apart_of_length_ne
    {spans : List Span} (outputs : List Nat)
    (hreads : ∀ (p : Nat) (s : Span), spans[p]? = some s → ∀ i ∈ s.reads, i < p)
    {p q : Nat} {s t : Span} (hp : spans[p]? = some s) (hq : spans[q]? = some t)
    (hne : s.length ≠ t.length) :
    ∀ x < s.length, ∀ y < t.length,
      (reusing spans outputs).slot p x ≠ (reusing spans outputs).slot q y := by
  have hstart : Allocation.Whole spans 0
      ⟨Array.replicate spans.length 0, Array.replicate spans.length false, [], 0⟩ := by
    refine ⟨by simp, fun b hb => ?_, fun b c hb _ => ?_⟩
    · simp [Allocation.Given] at hb
    · simp [Allocation.Given] at hb
  have hend := hstart.foldl spans (lastReaders spans outputs) rfl hreads
  rw [Nat.zero_add] at hend
  have hblock : ∀ (p : Nat) (s : Span), spans[p]? = some s →
      (spans.map Span.length).toArray.getD p 0 = s.length := by
    intro p s hp
    simp [Array.getD_eq_getD_getElem?, hp]
  intro x hx y hy
  rcases hend.apart _ _ (.inl ⟨p, (List.getElem?_eq_some_iff.1 hp).1, rfl⟩)
    (.inl ⟨q, (List.getElem?_eq_some_iff.1 hq).1, rfl⟩) with heq | hapart
  · have hlength := congrArg Prod.fst heq
    simp only [Allocation.block, hblock p s hp, hblock q t hq] at hlength
    exact absurd hlength hne
  · refine hapart x ?_ y ?_
    · simp only [Allocation.block, hblock p s hp]
      exact hx
    · simp only [Allocation.block, hblock q t hq]
      exact hy

end Layout

end SparseDiff
