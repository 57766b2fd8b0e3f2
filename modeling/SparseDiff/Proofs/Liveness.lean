import Mathlib.Order.Interval.Finset.Nat
import SparseDiff.Proofs.Layout

/-!
# Live values keep their slots

The slots of an element as a set (`Layout.slots`). In the compact layout an element is written to
slots in which no earlier value stands that is still needed, and so the values that are needed at
one step never share a slot (`Layout.reusing_keeps_live`). An element may list an operand several
times, and an element that nothing reads is given slots too.
-/

namespace SparseDiff

namespace Layout

variable {l : Layout} {spans : List Span} {outputs : List Nat}

/-- Slots of the element at `p`, which has `n` nonzeros. -/
def slots (l : Layout) (p n : Nat) : Finset Nat := Finset.Ico (l.slot p 0) (l.slot p n)

theorem mem_slots_iff
    {p n x : Nat} :
    x ∈ l.slots p n ↔ ∃ k < n, l.slot p k = x := by
  rw [slots, Finset.mem_Ico, slot, slot]
  constructor
  · rintro ⟨hstart, hstop⟩
    exact ⟨x - l.offsets.getD p 0, by omega, by rw [slot]; omega⟩
  · rintro ⟨k, hk, rfl⟩
    rw [slot]
    omega

/--
The value at `p` is there after step `t` and has to be: it is an output, or step `t` or a later one
reads it.
-/
def LiveAt (spans : List Span) (outputs : List Nat) (t p : Nat) : Prop :=
  p ≤ t ∧ Live spans (· ∈ outputs) t p

theorem Sound.slots_subset
    {keep : Nat → Prop} (h : l.Sound spans keep) {p : Nat} {s : Span} (hs : spans[p]? = some s) :
    l.slots p s.length ⊆ Finset.range l.size := by
  intro x hx
  obtain ⟨k, hk, rfl⟩ := mem_slots_iff.1 hx
  have hinside := h.inside p s hs
  rw [Finset.mem_range]
  unfold slot at hinside ⊢
  omega

theorem Sound.disjoint_slots
    {keep : Nat → Prop} (h : l.Sound spans keep) {a j : Nat} {sa sj : Span} (haj : a < j)
    (ha : spans[a]? = some sa) (hj : spans[j]? = some sj) (hlive : Live spans keep j a) :
    Disjoint (l.slots a sa.length) (l.slots j sj.length) := by
  refine Finset.disjoint_left.2 fun x hxa hxj => ?_
  obtain ⟨k, hk, rfl⟩ := mem_slots_iff.1 hxa
  obtain ⟨i, hi, heq⟩ := mem_slots_iff.1 hxj
  exact h.apart a j sa sj haj ha hj hlive k hk i hi heq.symm

/-- Of two values that one step finds live, the later was written when the earlier was needed. -/
theorem Sound.disjoint_of_liveAt
    (h : l.Sound spans (· ∈ outputs)) {t a b : Nat} {sa sb : Span} (hne : a ≠ b)
    (ha : spans[a]? = some sa) (hb : spans[b]? = some sb) (hlivea : LiveAt spans outputs t a)
    (hliveb : LiveAt spans outputs t b) :
    Disjoint (l.slots a sa.length) (l.slots b sb.length) := by
  rcases Nat.lt_or_gt_of_ne hne with hab | hba
  · exact h.disjoint_slots hab ha hb (Live.mono hliveb.1 hlivea.2)
  · exact (h.disjoint_slots hba hb ha (Live.mono hlivea.1 hliveb.2)).symm

/--
On every tape whose elements read earlier elements only, and for every list of outputs, the compact
layout is no larger than the full one and has all elements inside. An element shares no slot with an
earlier one that is an output, or that it or a later element reads, so values that are live at one
step lie apart.
-/
theorem reusing_keeps_live
    (hreads : ∀ (j : Nat) (s : Span), spans[j]? = some s → ∀ a ∈ s.reads, a < j)
    (outputs : List Nat) :
    (reusing spans outputs).size ≤ (ofLengths spans).size ∧
    (reusing spans outputs).offsets.size = spans.length ∧
    (∀ (j : Nat) (s : Span), spans[j]? = some s →
      (reusing spans outputs).slots j s.length ⊆ Finset.range (reusing spans outputs).size) ∧
    (∀ (a j : Nat) (sa sj : Span), a < j → spans[a]? = some sa → spans[j]? = some sj →
      (a ∈ outputs ∨ ∃ r s, j ≤ r ∧ spans[r]? = some s ∧ a ∈ s.reads) →
        Disjoint ((reusing spans outputs).slots a sa.length)
          ((reusing spans outputs).slots j sj.length)) ∧
    ∀ (t a b : Nat) (sa sb : Span), a ≠ b → spans[a]? = some sa → spans[b]? = some sb →
      LiveAt spans outputs t a → LiveAt spans outputs t b →
        Disjoint ((reusing spans outputs).slots a sa.length)
          ((reusing spans outputs).slots b sb.length) := by
  have hsound : (reusing spans outputs).Sound spans (· ∈ outputs) := reusing_sound hreads
  have hinside : ∀ (j : Nat) (s : Span), spans[j]? = some s →
      (reusing spans outputs).slots j s.length ⊆ Finset.range (reusing spans outputs).size := by
    intro j s hs
    exact hsound.slots_subset hs
  have hneeded : ∀ (a j : Nat) (sa sj : Span), a < j → spans[a]? = some sa →
      spans[j]? = some sj → Live spans (· ∈ outputs) j a →
        Disjoint ((reusing spans outputs).slots a sa.length)
          ((reusing spans outputs).slots j sj.length) := by
    intro a j sa sj haj ha hj hlive
    exact hsound.disjoint_slots haj ha hj hlive
  have hlive : ∀ (t a b : Nat) (sa sb : Span), a ≠ b → spans[a]? = some sa →
      spans[b]? = some sb → LiveAt spans outputs t a → LiveAt spans outputs t b →
        Disjoint ((reusing spans outputs).slots a sa.length)
          ((reusing spans outputs).slots b sb.length) := by
    intro t a b sa sb hne ha hb hlivea hliveb
    exact hsound.disjoint_of_liveAt hne ha hb hlivea hliveb
  exact ⟨size_reusing_le spans outputs, hsound.size, hinside, hneeded, hlive⟩

/-- An input that nothing reads, one that is read twice by one element, and a chain after it. -/
def repeatedRead : List Span := [⟨2, []⟩, ⟨2, []⟩, ⟨2, [1, 1]⟩, ⟨2, [2, 2]⟩, ⟨2, [2, 3]⟩]

theorem reusing_keeps_live_repeatedRead :
    (reusing repeatedRead [3]).size ≤ (ofLengths repeatedRead).size ∧
      Disjoint ((reusing repeatedRead [3]).slots 1 2) ((reusing repeatedRead [3]).slots 2 2) ∧
      Disjoint ((reusing repeatedRead [3]).slots 2 2) ((reusing repeatedRead [3]).slots 3 2) ∧
      Disjoint ((reusing repeatedRead [3]).slots 3 2) ((reusing repeatedRead [3]).slots 4 2) := by
  have hitems : ∀ item ∈ repeatedRead.zipIdx, ∀ a ∈ item.1.reads, a < item.2 := by decide
  have hreads : ∀ (j : Nat) (s : Span), repeatedRead[j]? = some s → ∀ a ∈ s.reads, a < j :=
    fun j s hs => hitems (s, j) (List.mem_zipIdx_iff_getElem?.2 hs)
  obtain ⟨hsize, -, -, happart, hlive⟩ := reusing_keeps_live hreads [3]
  refine ⟨hsize, happart 1 2 _ _ (by decide) rfl rfl (.inr ⟨2, _, by decide, rfl, by decide⟩),
    ?_, happart 3 4 _ _ (by decide) rfl rfl (.inl (by decide))⟩
  exact hlive 3 2 3 _ _ (by decide) rfl rfl ⟨by decide, .inr ⟨4, _, by decide, rfl, by decide⟩⟩
    ⟨by decide, .inl (by decide)⟩

/-- The unread input leaves its slots to the next one; the element after that cannot have them. -/
example : reusing repeatedRead [3] = ⟨#[0, 0, 2, 0, 4], 6⟩ := by decide

end Layout

end SparseDiff
