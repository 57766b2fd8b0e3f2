import SparseDiff.Proofs.Alike
import SparseDiff.Proofs.Checked.Forward
import SparseDiff.Proofs.Directions.SecondOrder

/-!
# Sweeps on two memories

Two runs of a sweep are compared, over any arithmetic. A forward sweep loads what it reads, so it
does the same on any two memories, of any sizes that hold it (`Tape.alike_forwardSweep`). A sweep
from the end reads numbers that it has not written, but only in slots of the full layout and in
the arrays of its directions; on memories that agree there it does the same, and they agree
afterwards (`Tape.alike_adjointSweep`, `Tape.alike_secondOrderSweep`).
-/

namespace SparseDiff

variable {F : Type}

/-- The first `count` arrays are there and agree below `n`. -/
structure AgreeFirst [Zero F] (count n : Nat) (arrays arrays' : Array (Array F)) : Prop where
  left : count ≤ arrays.size
  right : count ≤ arrays'.size
  agree : ∀ d < count, AgreeBelow n (arrays.getD d #[]) (arrays'.getD d #[])

section Arrays

variable [Zero F] {count n : Nat} {arrays arrays' : Array (Array F)}

theorem AgreeFirst.updateFirst
    (h : AgreeFirst count n arrays arrays') {g g' : Nat → Array F → Array F}
    (hg : ∀ d < count, AgreeBelow n (arrays.getD d #[]) (arrays'.getD d #[]) →
      AgreeBelow n (g d (arrays.getD d #[])) (g' d (arrays'.getD d #[]))) :
    AgreeFirst count n (updateFirst count g arrays) (updateFirst count g' arrays') := by
  have hleft := h.left
  have hright := h.right
  refine ⟨by simpa using hleft, by simpa using hright, fun d hd => ?_⟩
  rw [getD_updateFirst hd (by omega), getD_updateFirst hd (by omega)]
  exact hg d hd (h.agree d hd)

theorem AgreeFirst.clearFirst
    (h : AgreeFirst count n arrays arrays') (s : Nat) :
    AgreeFirst count n (clearFirst count s arrays) (clearFirst count s arrays') :=
  h.updateFirst fun _ _ hagree => hagree.setIfInBounds s 0

/-- Arrays that agree hold the same numbers in a slot. -/
theorem AgreeFirst.readFirst_eq
    (h : AgreeFirst count n arrays arrays') {s : Nat} (hs : s < n) :
    readFirst count s arrays = readFirst count s arrays' := by
  rw [readFirst, readFirst, Tape.take_toList_eq_map arrays #[] h.left,
    Tape.take_toList_eq_map arrays' #[] h.right, List.map_map, List.map_map]
  exact List.map_congr_left fun d hd => (h.agree d (List.mem_range.1 hd)).eq s hs

/-- Arrays that are made from their items agree, whatever was in them. -/
theorem agreeFirst_modifyEach
    {α : Type} {g : α → Array F → Array F} {items : List α} {k k' w w' : Nat}
    (hsized : Sized k w arrays) (hsized' : Sized k' w' arrays') (hk : items.length ≤ k)
    (hk' : items.length ≤ k') (hw : n ≤ w) (hw' : n ≤ w')
    (hg : ∀ x ∈ items, ∀ a b : Array F, n ≤ a.size → n ≤ b.size → AgreeBelow n (g x a) (g x b)) :
    AgreeFirst items.length n (modifyEach g items arrays) (modifyEach g items arrays') := by
  have hleft : items.length ≤ arrays.size := hsized.1 ▸ hk
  have hright : items.length ≤ arrays'.size := hsized'.1 ▸ hk'
  refine ⟨by simpa using hleft, by simpa using hright, fun d hd => ?_⟩
  have hget := List.getElem?_eq_getElem hd
  rw [getD_modifyEach g hleft hget, getD_modifyEach g hright hget]
  exact hg _ (List.mem_of_getElem? hget) _ _ (by rw [hsized.size_getD (by omega)]; exact hw)
    (by rw [hsized'.size_getD (by omega)]; exact hw')

/--
Two memories agree on all that a sweep from the end reads: in the slots below `n`, on the values,
`nfwd` tangents, `nadj` adjoints and `nfwd` adjoint tangents.
-/
structure Memory.Agree (n nfwd nadj : Nat) (m m' : Memory F) : Prop where
  values : AgreeBelow n m.values m'.values
  fwd : ∀ d < nfwd, AgreeBelow n (m.fwd.getD d #[]) (m'.fwd.getD d #[])
  adj : AgreeFirst nadj n m.adj m'.adj
  adjFwd : AgreeFirst nfwd n m.adjFwd m'.adjFwd

end Arrays

namespace Cell

variable [Zero F] [Add F] [Mul F] [Calculus F] {m m' : Memory F} {n nfwd nadj s : Nat}
  {c : Cell F}

theorem agreeFirst_adjointAll
    {w w' : Array F} (hw : AgreeBelow n w w') {arrays arrays' : Array (Array F)}
    (h : AgreeFirst nadj n arrays arrays') (hs : s < n) (hslots : ∀ r ∈ c.slots, r < n) :
    AgreeFirst nadj n (c.adjointAll nadj w s arrays) (c.adjointAll nadj w' s arrays') := by
  unfold adjointAll
  rw [h.readFirst_eq hs]
  split
  · exact h.clearFirst s
  · exact h.updateFirst fun _ _ hagree => hagree.adjointStep hw hs hslots

/-- One cell of an adjoint sweep. -/
theorem alike_adjoint
    (h : m.Agree n nfwd nadj m') (hs : s < n) (hslots : ∀ r ∈ c.slots, r < n) (check : Bool)
    (op : String) (node : NodeId) (k : Nat) :
    Run.Alike (c.adjoint check op nadj node k s) m (c.adjoint check op nadj node k s) m'
      fun _ m₁ _ m₁' => m₁.Agree n nfwd nadj m₁' := by
  have hleft := h.values.left
  have hright := h.values.right
  have hends := ends_adjoint (m := m) (by omega : s < m.values.size)
    (fun r hr => by have := hslots r hr; omega) check op nadj node k
  have hends' := ends_adjoint (m := m') (by omega : s < m'.values.size)
    (fun r hr => by have := hslots r hr; omega) check op nadj node k
  rw [← h.adj.readFirst_eq hs] at hends'
  refine (Run.alike_of_ends hends hends' (fun e he hgood => he.2.1 (hgood he.1))
    fun e e' he he' => he.2.2.trans he'.2.2.symm).imp fun _ m₁ _ m₁' heq => ?_
  obtain ⟨rfl, rfl⟩ := heq
  exact ⟨h.values, h.fwd, agreeFirst_adjointAll h.values h.adj hs hslots, h.adjFwd⟩

theorem agree_secondOrderStep
    (h : m.Agree n nfwd 1 m') (hs : s < n) (hslots : ∀ r ∈ c.slots, r < n) :
    (c.secondOrderStep nfwd s m).Agree n nfwd 1 (c.secondOrderStep nfwd s m') := by
  unfold secondOrderStep
  rw [h.adj.readFirst_eq hs, h.adjFwd.readFirst_eq hs]
  split
  · exact ⟨h.values, h.fwd, h.adj.clearFirst s, h.adjFwd.clearFirst s⟩
  · have hlam : m.adjoint 0 s = m'.adjoint 0 s := (h.adj.agree 0 Nat.one_pos).eq s hs
    refine ⟨h.values, h.fwd, h.adj.updateFirst fun _ _ hagree =>
      hagree.adjointStep h.values hs hslots, h.adjFwd.updateFirst fun d hd hagree => ?_⟩
    rw [hlam]
    unfold tangentStep
    split
    · exact hagree
    · rw [hagree.eq s hs, h.values.eq s hs]
      exact (hagree.setIfInBounds s 0).backwardTangent h.values (h.fwd d hd) hslots _ _ _

/-- One cell of a second-order sweep. -/
theorem alike_secondOrder
    (h : m.Agree n nfwd 1 m') (hs : s < n) (hslots : ∀ r ∈ c.slots, r < n) (check : Bool)
    (op : String) (node : NodeId) (k : Nat) :
    Run.Alike (c.secondOrder check op nfwd node k s) m (c.secondOrder check op nfwd node k s) m'
      fun _ m₁ _ m₁' => m₁.Agree n nfwd 1 m₁' := by
  have hleft := h.values.left
  have hright := h.values.right
  have hends := ends_secondOrder (m := m) (by omega : s < m.values.size)
    (fun r hr => by have := hslots r hr; omega) check op nfwd node k
  have hends' := ends_secondOrder (m := m') (by omega : s < m'.values.size)
    (fun r hr => by have := hslots r hr; omega) check op nfwd node k
  rw [← h.adj.readFirst_eq hs, ← h.adjFwd.readFirst_eq hs] at hends'
  refine (Run.alike_of_ends hends hends' (fun e he hgood => he.2.1 (hgood he.1))
    fun e e' he he' => he.2.2.trans he'.2.2.symm).imp fun _ m₁ _ m₁' heq => ?_
  obtain ⟨rfl, rfl⟩ := heq
  exact agree_secondOrderStep h hs hslots

end Cell

/-- A memory with its arrays, long enough for a layout, and with directions enough. -/
structure Memory.Holding (l : Layout) (nfwd nadj : Nat) (m : Memory F) : Prop where
  wellSized : m.WellSized
  work : l.size ≤ m.sizes.work
  nfwd : nfwd ≤ m.sizes.nfwd
  nadj : nadj ≤ m.sizes.nadj

theorem Memory.Holding.of_sizes
    {l : Layout} {nfwd nadj : Nat} {m m' : Memory F} (h : m.Holding l nfwd nadj)
    (hsized : m'.WellSized) (hsizes : m'.sizes = m.sizes) :
    m'.Holding l nfwd nadj :=
  ⟨hsized, hsizes ▸ h.work, hsizes ▸ h.nfwd, hsizes ▸ h.nadj⟩

/-- A loop over the segments of a tape, on two memories. -/
theorem alike_visits
    {body : NodeId → Nat → Nat → Cell F → Run F Unit}
    {I : List (Nat × Cell F) → Memory F → Memory F → Prop}
    (hstep : ∀ node k s c visits m m', I ((s, c) :: visits) m m' →
      Run.Alike (body node k s c) m (body node k s c) m' fun _ m₁ _ m₁' => I visits m₁ m₁')
    (segments : List (Segment F)) {m m' : Memory F}
    (h : I (segments.flatMap Segment.visits) m m') :
    Run.Alike (segments.forM fun s => s.numbered.forM fun (c, k) => body s.node k (s.start + k) c) m
      (segments.forM fun s => s.numbered.forM fun (c, k) => body s.node k (s.start + k) c) m'
      fun _ m₁ _ m₁' => I [] m₁ m₁' := by
  refine Run.alike_forM (I := fun rest m m' => I (rest.flatMap Segment.visits) m m')
    (fun s rest m m' hI => ?_) segments m m' h
  refine Run.alike_forM (I := fun items m m' =>
      I (items.map (fun (c, k) => (s.start + k, c)) ++ rest.flatMap Segment.visits) m m')
    (fun item items m m' hI => hstep s.node item.2 (s.start + item.2) item.1 _ m m' hI)
    s.numbered m m' ?_
  exact (List.flatMap_cons ▸ hI : I (s.visits ++ rest.flatMap Segment.visits) m m')

namespace Tape

variable [Zero F] [Add F] [Mul F] [Calculus F] {f : Tape F} {m m' : Memory F}

omit [Add F] [Mul F] [Calculus F] in
/-- A sweep from the end keeps what every cell inside the full layout keeps. -/
theorem alike_visits_reverse
    (hf : f.WellFormed) {body : NodeId → Nat → Nat → Cell F → Run F Unit}
    {I : Memory F → Memory F → Prop}
    (hcell : ∀ node k s c m m', I m m' → s < f.full.size → (∀ r ∈ c.slots, r < f.full.size) →
      Run.Alike (body node k s c) m (body node k s c) m' fun _ m₁ _ m₁' => I m₁ m₁')
    (h : I m m') :
    Run.Alike
      ((f.segmentsAt f.full).reverse.forM fun s => s.numbered.forM fun (c, k) =>
        body s.node k (s.start + k) c) m
      ((f.segmentsAt f.full).reverse.forM fun s => s.numbered.forM fun (c, k) =>
        body s.node k (s.start + k) c) m'
      fun _ m₁ _ m₁' => I m₁ m₁' := by
  refine (alike_visits (I := fun visits m m' => I m m' ∧ ∀ v ∈ visits, v ∈ f.visits)
    (fun node k s c visits m m' hI => ?_) (f.segmentsAt f.full).reverse
    ⟨h, fun _ hv => hv⟩).imp fun _ _ _ _ h => h.1
  obtain ⟨hagree, hvisits⟩ := hI
  obtain ⟨hhead, hrest⟩ := List.forall_mem_cons.1 hvisits
  obtain ⟨hs, hslots⟩ := visits_inside hf _ hhead
  exact (hcell node k s c m m' hagree hs hslots).imp fun _ _ _ _ h => ⟨h, hrest⟩

/-- On memories that agree, adjoint sweeps are alike. -/
theorem alike_adjointSweep
    (hf : f.WellFormed) {nadj : Nat} (h : m.Agree f.full.size 0 nadj m') (check : Bool)
    (op : String) :
    Run.Alike (adjointSweep check op nadj (f.segmentsAt f.full)) m
      (adjointSweep check op nadj (f.segmentsAt f.full)) m'
      fun _ m₁ _ m₁' => m₁.Agree f.full.size 0 nadj m₁' := by
  exact alike_visits_reverse hf (I := fun m m' => m.Agree f.full.size 0 nadj m')
    (fun node k _ _ _ _ hagree hs hslots => Cell.alike_adjoint hagree hs hslots check op node k) h

/-- So are second-order sweeps. -/
theorem alike_secondOrderSweep
    (hf : f.WellFormed) {nfwd : Nat} (h : m.Agree f.full.size nfwd 1 m') (check : Bool)
    (op : String) :
    Run.Alike (secondOrderSweep check op nfwd (f.segmentsAt f.full)) m
      (secondOrderSweep check op nfwd (f.segmentsAt f.full)) m'
      fun _ m₁ _ m₁' => m₁.Agree f.full.size nfwd 1 m₁' := by
  exact alike_visits_reverse hf (I := fun m m' => m.Agree f.full.size nfwd 1 m')
    (fun node k _ _ _ _ hagree hs hslots =>
      Cell.alike_secondOrder hagree hs hslots check op node k) h

variable {l : Layout} {keep : Nat → Prop} {xs : List (List F)} {us : List (Nat → Nat → F)}

/--
After loading, forward sweeps are alike on any two memories: whether a sweep ends well, and which
nonzero it names if it does not, depends on what was loaded only.
-/
theorem alike_forwardSweep
    (hf : f.WellFormed) (hsound : l.Sound f.spans keep) {nadj : Nat}
    (hm : m.Holding l us.length nadj) (hm' : m'.Holding l us.length nadj)
    (hfit : FitLists f.inputPatterns xs) (check : Bool) (op : String) :
    Run.Alike (forwardSweep check op us.length (f.segmentsAt l)) (f.loaded l xs us m)
      (forwardSweep check op us.length (f.segmentsAt l)) (f.loaded l xs us m')
      fun _ m₁ _ m₁' => m₁ = f.afterForward l xs us m ∧ m₁' = f.afterForward l xs us m' := by
  refine Run.alike_of_ends
    (ends_forwardSweep hf hsound hm.wellSized hm.work hm.nfwd hfit check op)
    (ends_forwardSweep hf hsound hm'.wellSized hm'.work hm'.nfwd hfit check op) ?_ ?_
  · rintro e ⟨hon, p, e', k, hfirst, -⟩ hgood
    exact hfirst.not_everywhere (hgood hon)
  · rintro _ _ ⟨-, p, e, k, hfirst, rfl⟩ ⟨-, p', e', k', hfirst', rfl⟩
    obtain ⟨rfl, rfl⟩ := hfirst.unique hfirst'
    obtain rfl : e = e' := Option.some.inj (hfirst.element.symm.trans hfirst'.element)
    rfl

end Tape

end SparseDiff
