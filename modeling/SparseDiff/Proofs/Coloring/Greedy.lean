import SparseDiff.Coloring.Greedy
import SparseDiff.Proofs.Pattern.Filling

/-!
# Greedy colorings are proper

A vertex gets a color that no conflicting vertex before it has (`Coloring.greedy_spec`), so
where conflicts are symmetric any two colored vertices in conflict differ. Columns are counted
and colored with stamps and marks that are never cleared. Stale ones do no harm, because they are
only compared with the current column (`Coloring.greedyColumns_eq`). So no usable row holds two
columns of one color (`Coloring.greedyColumns_spec`), and no row of a symmetric pattern does
(`symmetricColoring_spec`).
-/

namespace SparseDiff

/-- Some number is unused: there are more numbers to try than used ones. -/
theorem find?_eq_some_leastUnused
    (used : List Nat) :
    (List.range (used.length + 1)).find? (fun k => !used.contains k) =
      some (leastUnused used) := by
  cases h : (List.range (used.length + 1)).find? fun k => !used.contains k with
  | some k => rw [leastUnused, h, Option.getD_some]
  | none =>
      have hall := List.find?_eq_none.1 h
      have hsub : List.range (used.length + 1) ⊆ used := by
        intro k hk
        simpa using hall k hk
      have hle := (List.subperm_of_subset List.nodup_range hsub).length_le
      rw [List.length_range] at hle
      omega

theorem leastUnused_not_mem
    (used : List Nat) :
    leastUnused used ∉ used := by
  simpa using (List.find?_range_eq_some.1 (find?_eq_some_leastUnused used)).1

theorem mem_of_lt_leastUnused
    {used : List Nat} {k : Nat} (h : k < leastUnused used) :
    k ∈ used := by
  simpa using (List.find?_range_eq_some.1 (find?_eq_some_leastUnused used)).2.2 k h

theorem leastUnused_le
    {used : List Nat} {k : Nat} (h : k ∉ used) :
    leastUnused used ≤ k :=
  Nat.not_lt.1 fun hlt => h (mem_of_lt_leastUnused hlt)

namespace Pattern

theorem mem_foldl_mergeRows_iff
    {α : Type} {x : Nat} {g : α → List Nat} (items : List α) (acc : List Nat) :
    x ∈ items.foldl (fun acc item => mergeRows acc (g item)) acc ↔
      x ∈ acc ∨ ∃ item ∈ items, x ∈ g item := by
  induction items generalizing acc with
  | nil => simp
  | cons item items ih => simp [ih, mem_mergeRows_iff, or_assoc]

end Pattern

namespace Coloring

@[simp] theorem size_greedy
    (n : Nat) (order : List Nat) (conflicts : Nat → List Nat) :
    (greedy n order conflicts).colors.size = n := by
  induction order using List.reverseRecOn with
  | nil => simp [greedy]
  | append_singleton order v ih =>
      rw [greedy, List.foldl_append, List.foldl_cons, List.foldl_nil, colorNext,
        Array.size_setIfInBounds]
      exact ih

theorem colorOf_greedy_nil
    (n : Nat) (conflicts : Nat → List Nat) (u : Nat) :
    (greedy n [] conflicts).colorOf u = none := by
  rw [colorOf, greedy, List.foldl_nil, Array.getElem?_replicate]
  split <;> rfl

/-- The last vertex gets the least color that its neighbors leave; all others keep theirs. -/
theorem colorOf_greedy_concat
    (n : Nat) (order : List Nat) (v : Nat) (conflicts : Nat → List Nat) (u : Nat) :
    (greedy n (order ++ [v]) conflicts).colorOf u =
      if u = v ∧ v < n then
        some (leastUnused ((conflicts v).filterMap (greedy n order conflicts).colorOf))
      else
        (greedy n order conflicts).colorOf u := by
  have hstep : (greedy n (order ++ [v]) conflicts).colors =
      colorNext conflicts (greedy n order conflicts).colors v := by
    simp [greedy]
  rw [colorOf, hstep, colorNext, Array.getElem?_setIfInBounds, size_greedy]
  by_cases hu : u = v
  · subst hu
    by_cases hlt : u < n
    · simp only [hlt, and_self, if_true]
      rfl
    · simp [hlt, colorOf]
  · rw [if_neg (Ne.symm hu), if_neg fun h => hu h.1]
    rfl

/-- The colored vertices are those of the order, and conflicts with earlier ones are avoided. -/
theorem greedy_spec
    {n : Nat} {order : List Nat} (hnodup : order.Nodup) (hlt : ∀ v ∈ order, v < n)
    (conflicts : Nat → List Nat) :
    (greedy n order conflicts).colors.size = n ∧
      (∀ v, ((greedy n order conflicts).colorOf v).isSome ↔ v ∈ order) ∧
      order.Pairwise fun u v => u ∈ conflicts v →
        (greedy n order conflicts).colorOf u ≠ (greedy n order conflicts).colorOf v := by
  refine ⟨size_greedy n order conflicts, ?_⟩
  induction order using List.reverseRecOn with
  | nil => exact ⟨fun v => by simp [colorOf_greedy_nil], List.Pairwise.nil⟩
  | append_singleton order v ih =>
      obtain ⟨hnodup', -, hnew⟩ := List.nodup_append.1 hnodup
      have hfresh : v ∉ order := fun hmem => hnew v hmem v (by simp) rfl
      obtain ⟨hcolored, hproper⟩ := ih hnodup' fun u hu => hlt u (List.mem_append_left _ hu)
      have hv := hlt v (by simp)
      have hold : ∀ u, u ≠ v → (greedy n (order ++ [v]) conflicts).colorOf u =
          (greedy n order conflicts).colorOf u := fun u hu => by
        rw [colorOf_greedy_concat, if_neg fun h => hu h.1]
      have hgiven : (greedy n (order ++ [v]) conflicts).colorOf v = some (leastUnused
          ((conflicts v).filterMap (greedy n order conflicts).colorOf)) := by
        rw [colorOf_greedy_concat, if_pos ⟨rfl, hv⟩]
      refine ⟨fun u => ?_, ?_⟩
      · by_cases hu : u = v
        · rw [hu, hgiven]
          simp
        · rw [hold u hu, hcolored u]
          simp [hu]
      · rw [List.pairwise_append]
        have hne : ∀ u ∈ order, u ≠ v := by
          rintro u hu rfl
          exact hfresh hu
        refine ⟨hproper.imp_of_mem fun {a b} ha hb hab hmem => ?_, by simp,
          fun u hu w hw hmem => ?_⟩
        · rw [hold a (hne a ha), hold b (hne b hb)]
          exact hab hmem
        · have hw' : w = v := by simpa using hw
          subst hw'
          rw [hold u (hne u hu), hgiven]
          intro heq
          exact leastUnused_not_mem _ (List.mem_filterMap.2 ⟨u, hmem, heq⟩)

/-- Colored vertices in mutual conflict differ. -/
theorem colorOf_greedy_ne
    {n : Nat} {order : List Nat} (hnodup : order.Nodup) (hlt : ∀ v ∈ order, v < n)
    {conflicts : Nat → List Nat} {u v : Nat} (hu : u ∈ order) (hv : v ∈ order) (hne : u ≠ v)
    (huv : u ∈ conflicts v) (hvu : v ∈ conflicts u) :
    (greedy n order conflicts).colorOf u ≠ (greedy n order conflicts).colorOf v := by
  obtain ⟨-, -, hproper⟩ := greedy_spec hnodup hlt conflicts
  obtain ⟨i, hi, rfl⟩ := List.mem_iff_getElem.1 hu
  obtain ⟨j, hj, rfl⟩ := List.mem_iff_getElem.1 hv
  have hget := List.pairwise_iff_getElem.1 hproper
  rcases Nat.lt_trichotomy i j with hij | rfl | hji
  · exact hget i j hi hj hij huv
  · exact absurd rfl hne
  · exact (hget j i hj hi hji hvu).symm

/-- So many vertices need no more colors than there are of them. -/
theorem colorOf_greedy_lt
    {n : Nat} {order : List Nat} {conflicts : Nat → List Nat} {u k : Nat}
    (h : (greedy n order conflicts).colorOf u = some k) :
    k < order.length := by
  induction order using List.reverseRecOn generalizing u k with
  | nil => simp [colorOf_greedy_nil] at h
  | append_singleton order v ih =>
      rw [colorOf_greedy_concat] at h
      rw [List.length_append, List.length_singleton]
      split at h
      · cases h
        -- one past the colors of the vertices before is unused
        refine Nat.lt_succ_of_le (leastUnused_le fun hmem => ?_)
        obtain ⟨w, -, hw⟩ := List.mem_filterMap.1 hmem
        exact Nat.lt_irrefl _ (ih hw)
      · exact Nat.lt_succ_of_lt (ih h)

theorem getElem?_foldl_mark
    (used : List Nat) (v : Nat) {k : Nat} {marks : Array (Option Nat)} (hk : k < marks.size) :
    (used.foldl (fun marks k => marks.setIfInBounds k (some v)) marks)[k]? =
      if k ∈ used then some (some v) else marks[k]? := by
  induction used generalizing marks with
  | nil => simp
  | cons m used ih =>
      rw [List.foldl_cons, ih (by rwa [Array.size_setIfInBounds])]
      by_cases hmk : m = k
      · subst hmk
        simp [hk]
      · rw [Array.getElem?_setIfInBounds_ne hmk]
        simp [Ne.symm hmk]

@[simp] theorem size_foldl_mark
    (used : List Nat) (v : Nat) (marks : Array (Option Nat)) :
    (used.foldl (fun marks k => marks.setIfInBounds k (some v)) marks).size = marks.size := by
  induction used generalizing marks with
  | nil => rfl
  | cons m used ih => rw [List.foldl_cons, ih, Array.size_setIfInBounds]

/-- Where no mark is that of `v` yet, the scan stops inside the marks, at the least unused color. -/
theorem findIdx_mark
    {used : List Nat} {v : Nat} {marks : Array (Option Nat)}
    (hstale : ∀ k : Nat, marks[k]? ≠ some (some v)) (hroom : leastUnused used < marks.size) :
    (used.foldl (fun marks k => marks.setIfInBounds k (some v)) marks).toList.findIdx
      (· != some v) = leastUnused used := by
  have hlt : leastUnused used < (used.foldl (fun marks k => marks.setIfInBounds k (some v))
      marks).toList.length := by
    rwa [Array.length_toList, size_foldl_mark]
  refine (List.findIdx_eq hlt).2 ⟨?_, fun j hj => ?_⟩
  · have hget := getElem?_foldl_mark used v hroom
    rw [if_neg (leastUnused_not_mem used)] at hget
    have hold := hstale (leastUnused used)
    rw [← hget, ← Array.getElem?_toList, List.getElem?_eq_getElem hlt] at hold
    simpa using hold
  · have hget := getElem?_foldl_mark used v (hj.trans hroom)
    rw [if_pos (mem_of_lt_leastUnused hj), ← Array.getElem?_toList,
      List.getElem?_eq_getElem (hj.trans hlt)] at hget
    simpa using Option.some.inj hget

/-- After the vertices of `order`: the colors are greedy, and the marks are of these vertices. -/
structure Marking.Follows (s : Marking) (n : Nat) (around : Nat → List Nat) (order : List Nat) :
    Prop where
  colors : s.colors = (greedy n order around).colors
  size : s.marks.size = n
  stale : ∀ k v : Nat, s.marks[k]? = some (some v) → v ∈ order

theorem Marking.Follows.step
    {s : Marking} {n : Nat} {around : Nat → List Nat} {order : List Nat}
    (h : s.Follows n around order) {v : Nat} (hv : v ∉ order) (hroom : order.length < n) :
    (s.colorNext around v).Follows n around (order ++ [v]) := by
  have hused : leastUnused ((around v).filterMap fun u => (s.colors[u]?).join) < s.marks.size := by
    rw [h.size]
    refine Nat.lt_of_le_of_lt (leastUnused_le fun hmem => ?_) hroom
    obtain ⟨u, -, hu⟩ := List.mem_filterMap.1 hmem
    rw [h.colors] at hu
    exact Nat.lt_irrefl _ (colorOf_greedy_lt hu)
  have hfresh : ∀ k : Nat, s.marks[k]? ≠ some (some v) := fun k hk => hv (h.stale k v hk)
  refine ⟨?_, by rw [Marking.colorNext, size_foldl_mark, h.size], fun k w hk => ?_⟩
  · rw [Marking.colorNext, findIdx_mark hfresh hused, h.colors]
    simp [greedy, Coloring.colorNext]
  · rw [List.mem_append, List.mem_singleton]
    have hlt : k < s.marks.size := by
      have hlt := (Array.getElem?_eq_some_iff.1 hk).1
      rwa [Marking.colorNext, size_foldl_mark] at hlt
    rw [Marking.colorNext, getElem?_foldl_mark _ _ hlt] at hk
    split at hk
    · cases hk
      exact .inr rfl
    · exact .inl (h.stale k w hk)

theorem follows_nil
    (n : Nat) (around : Nat → List Nat) :
    Marking.Follows ⟨Array.replicate n none, Array.replicate n none⟩ n around [] := by
  refine ⟨rfl, Array.size_replicate, fun k v hk => ?_⟩
  rw [Array.getElem?_replicate] at hk
  split at hk <;> cases hk

/-- An order without repetitions has a place left before each of its vertices. -/
theorem length_lt_of_concat
    {n v : Nat} {order : List Nat} (hnodup : (order ++ [v]).Nodup)
    (hlt : ∀ u ∈ order ++ [v], u < n) :
    order.length < n := by
  have hsub : order ++ [v] ⊆ List.range n := fun u hu => List.mem_range.2 (hlt u hu)
  have hlength := (List.subperm_of_subset hnodup hsub).length_le
  rwa [List.length_append, List.length_singleton, List.length_range] at hlength

/-- Marks that are never cleared give the colors that fresh lists of used colors give. -/
theorem greedyMarked_eq
    {n : Nat} {order : List Nat} (hnodup : order.Nodup) (hlt : ∀ v ∈ order, v < n)
    (around : Nat → List Nat) :
    greedyMarked n order around = greedy n order around := by
  have hrun : (order.foldl (Marking.colorNext around)
      ⟨Array.replicate n none, Array.replicate n none⟩).Follows n around order := by
    induction order using List.reverseRecOn with
    | nil => exact follows_nil n around
    | append_singleton order v ih =>
        obtain ⟨hnodup', -, hnew⟩ := List.nodup_append.1 hnodup
        rw [List.foldl_append, List.foldl_cons, List.foldl_nil]
        exact (ih hnodup' fun u hu => hlt u (List.mem_append_left _ hu)).step
          (fun hmem => hnew v hmem v (by simp) rfl) (length_lt_of_concat hnodup hlt)
  exact congrArg Coloring.mk hrun.colors

/-- Other columns that are vertices, among those around `c`. -/
def conflicting (vertex : Nat → Bool) (c : Nat) (around : List Nat) : Finset Nat :=
  (around.filter fun d => d != c && vertex d).toFinset

theorem conflicting_append
    (vertex : Nat → Bool) (c : Nat) (around : List Nat) (d : Nat) :
    conflicting vertex c (around ++ [d]) =
      if d != c && vertex d then insert d (conflicting vertex c around)
      else conflicting vertex c around := by
  rw [conflicting, List.filter_append, List.toFinset_append, List.filter_singleton]
  cases d != c && vertex d with
  | false => exact Finset.union_empty _
  | true =>
      rw [Finset.union_comm]
      rfl

/-- The stamps and the count of column `c` after the columns around it. -/
structure Stamped (vertex : Nat → Bool) (stamps : Array (Option Nat)) (c : Nat)
    (around : List Nat) (s : Array (Option Nat) × Nat) : Prop where
  size : s.1.size = stamps.size
  count : s.2 = (conflicting vertex c around).card
  own : ∀ d : Nat, s.1[d]? = some (some c) ↔ d ∈ conflicting vertex c around
  stale : ∀ d v : Nat, s.1[d]? = some (some v) → v = c ∨ stamps[d]? = some (some v)

theorem Stamped.next
    {vertex : Nat → Bool} {stamps : Array (Option Nat)} {c : Nat} {around : List Nat}
    {s : Array (Option Nat) × Nat} (h : Stamped vertex stamps c around s) {d : Nat}
    (hd : d < stamps.size) :
    Stamped vertex stamps c (around ++ [d]) (stampNext vertex c s d) := by
  have hnew : (d != c && (s.1[d]?).join != some c && vertex d) = true ↔
      (d != c && vertex d) = true ∧ d ∉ conflicting vertex c around := by
    rw [Bool.and_right_comm, Bool.and_eq_true _ (_ != _), bne_iff_ne, ne_eq,
      Option.join_eq_some_iff, h.own]
  unfold stampNext
  split
  · next hcond =>
      obtain ⟨hvertex, hfresh⟩ := hnew.1 hcond
      have hset :
          conflicting vertex c (around ++ [d]) = insert d (conflicting vertex c around) := by
        rw [conflicting_append, if_pos hvertex]
      have hget : ∀ u, (s.1.setIfInBounds d (some c))[u]? =
          if u = d then some (some c) else s.1[u]? := by
        intro u
        split
        · next hud => rw [hud, Array.getElem?_setIfInBounds_self_of_lt (by rwa [h.size])]
        · next hud => exact Array.getElem?_setIfInBounds_ne (Ne.symm hud)
      refine ⟨by rw [Array.size_setIfInBounds, h.size], ?_, fun u => ?_, fun u v hu => ?_⟩
      · rw [hset, Finset.card_insert_of_notMem hfresh, h.count]
      · rw [hset, Finset.mem_insert, hget]
        split
        · next hud => simp [hud]
        · next hud => rw [h.own, or_iff_right hud]
      · rw [hget] at hu
        split at hu
        · cases hu
          exact .inl rfl
        · exact h.stale u v hu
  · next hcond =>
      have hset : conflicting vertex c (around ++ [d]) = conflicting vertex c around := by
        rw [conflicting_append]
        split
        · next hvertex =>
            exact Finset.insert_eq_of_mem (by_contra fun hfresh => hcond (hnew.2 ⟨hvertex, hfresh⟩))
        · rfl
      exact ⟨h.size, by rw [hset, h.count], by rw [hset]; exact h.own, h.stale⟩

/-- Where no stamp is that of column `c` yet, it counts each of its conflicts once. -/
theorem stamped_foldl
    (vertex : Nat → Bool) {stamps : Array (Option Nat)} {c : Nat}
    (hstale : ∀ d : Nat, stamps[d]? ≠ some (some c)) {around : List Nat}
    (hlt : ∀ d ∈ around, d < stamps.size) :
    Stamped vertex stamps c around (around.foldl (stampNext vertex c) (stamps, 0)) := by
  induction around using List.reverseRecOn with
  | nil => exact ⟨rfl, rfl, fun d => by simp [conflicting, hstale d], fun d v => .inr⟩
  | append_singleton around d ih =>
      rw [List.foldl_append]
      exact (ih fun u hu => hlt u (List.mem_append_left _ hu)).next (hlt d (by simp))

/-- After the columns below `m`: stamps are of these columns, and degrees are their conflicts. -/
structure Degrees (n : Nat) (vertex : Nat → Bool) (around : Nat → List Nat) (m : Nat)
    (s : Array (Option Nat) × Array Nat) : Prop where
  size : s.1.size = n
  stale : ∀ d v : Nat, s.1[d]? = some (some v) → v < m
  count : s.2.size = m
  degree : ∀ c < m, s.2[c]? =
    some (if vertex c then (conflicting vertex c (around c)).card else 0)

theorem Degrees.next
    {n m : Nat} {vertex : Nat → Bool} {around : Nat → List Nat}
    (hlt : ∀ d ∈ around m, d < n) {s : Array (Option Nat) × Array Nat}
    (h : Degrees n vertex around m s) :
    Degrees n vertex around (m + 1) (degreeNext vertex around s m) := by
  have hpush : ∀ degree, degree = (if vertex m then (conflicting vertex m (around m)).card else 0) →
      ∀ c < m + 1, (s.2.push degree)[c]? =
        some (if vertex c then (conflicting vertex c (around c)).card else 0) := by
    intro degree hdegree c hc
    rcases Nat.lt_succ_iff_lt_or_eq.1 hc with hc | rfl
    · rw [Array.getElem?_push, if_neg (by rw [h.count]; omega), h.degree c hc]
    · rw [Array.getElem?_push, if_pos h.count.symm, hdegree]
  have hstamped := stamped_foldl vertex (fun d hd => Nat.lt_irrefl m (h.stale d m hd))
    fun d hd => by rw [h.size]; exact hlt d hd
  unfold degreeNext
  split
  · next hvertex =>
      refine ⟨hstamped.size.trans h.size, fun d v hd => ?_, by rw [Array.size_push, h.count],
        hpush _ (by rw [if_pos hvertex]; exact hstamped.count)⟩
      rcases hstamped.stale d v hd with rfl | hold
      · exact Nat.lt_succ_self v
      · exact Nat.lt_succ_of_lt (h.stale d v hold)
  · next hother =>
      exact ⟨h.size, fun d v hd => Nat.lt_succ_of_lt (h.stale d v hd),
        by rw [Array.size_push, h.count], hpush 0 (by rw [if_neg hother])⟩

theorem degrees_foldl
    {n : Nat} {around : Nat → List Nat} (hlt : ∀ c, ∀ d ∈ around c, d < n) (vertex : Nat → Bool)
    (m : Nat) :
    Degrees n vertex around m
      ((List.range m).foldl (degreeNext vertex around) (Array.replicate n none, #[])) := by
  induction m with
  | zero =>
      refine ⟨Array.size_replicate, fun d v hd => ?_, rfl,
        fun c hc => absurd hc (Nat.not_lt_zero c)⟩
      rw [List.range_zero, List.foldl_nil, Array.getElem?_replicate] at hd
      split at hd <;> cases hd
  | succ m ih =>
      rw [List.range_succ, List.foldl_append]
      exact ih.next (hlt m)

theorem mem_byDegree_iff
    {degree : Nat → Nat} {vertices : List Nat} {v : Nat} :
    v ∈ byDegree degree vertices ↔ v ∈ vertices :=
  (List.mergeSort_perm vertices _).mem_iff

theorem nodup_byDegree
    {degree : Nat → Nat} {vertices : List Nat} (h : vertices.Nodup) :
    (byDegree degree vertices).Nodup :=
  (List.mergeSort_perm vertices _).nodup_iff.2 h

theorem mem_sharing_iff
    {p pt : Pattern} {usable : Nat → Bool} {c d : Nat} :
    d ∈ sharing p pt usable c ↔ ∃ r ∈ pt.row c, usable r = true ∧ d ∈ p.row r := by
  simp [sharing, and_assoc]

/-- The columns that need a color, those with most conflicts first. -/
def columnOrder (p pt : Pattern) (usable vertex : Nat → Bool) : List Nat :=
  byDegree
    (fun c => if vertex c then (conflicting vertex c (sharing p pt usable c)).card else 0)
    ((List.range p.ncol).filter fun c => vertex c && (pt.row c).any usable)

theorem lt_of_mem_columnOrder
    {p pt : Pattern} {usable vertex : Nat → Bool} {c : Nat}
    (h : c ∈ columnOrder p pt usable vertex) :
    c < p.ncol :=
  List.mem_range.1 (List.mem_filter.1 (mem_byDegree_iff.1 h)).1

theorem nodup_columnOrder
    (p pt : Pattern) (usable vertex : Nat → Bool) :
    (columnOrder p pt usable vertex).Nodup :=
  nodup_byDegree (List.nodup_range.filter _)

section Columns

variable {p pt : Pattern} (hp : p.WellFormed) (hpt : ∀ r c, r ∈ pt.row c ↔ c ∈ p.row r)
  (usable vertex : Nat → Bool)

include hp hpt

theorem mem_columnOrder_iff
    {c : Nat} :
    c ∈ columnOrder p pt usable vertex ↔
      vertex c = true ∧ ∃ r, usable r = true ∧ c ∈ p.row r := by
  rw [columnOrder, mem_byDegree_iff, List.mem_filter, List.mem_range, Bool.and_eq_true,
    List.any_eq_true]
  constructor
  · rintro ⟨-, hvertex, r, hr, husable⟩
    exact ⟨hvertex, r, husable, (hpt r c).1 hr⟩
  · rintro ⟨hvertex, r, husable, hc⟩
    exact ⟨hp.lt_ncol hc, hvertex, r, (hpt r c).2 hc, husable⟩

/-- With stale stamps and stale marks, columns are colored greedily by the number of conflicts. -/
theorem greedyColumns_eq :
    greedyColumns p pt usable vertex =
      greedy p.ncol (columnOrder p pt usable vertex) (sharing p pt usable) := by
  have hinside : ∀ c, ∀ d ∈ sharing p pt usable c, d < p.ncol := by
    intro c d hd
    obtain ⟨r, -, -, hmem⟩ := mem_sharing_iff.1 hd
    exact hp.lt_ncol hmem
  have hdegree : ((degrees p.ncol vertex (sharing p pt usable)).getD · 0) = fun c =>
      if vertex c then (conflicting vertex c (sharing p pt usable c)).card else 0 := by
    funext c
    have hrun := degrees_foldl hinside vertex p.ncol
    rw [degrees, Array.getD_eq_getD_getElem?]
    rcases Nat.lt_or_ge c p.ncol with hc | hc
    · rw [hrun.degree c hc, Option.getD_some]
    · -- no row has a nonzero in a column outside
      have hnone : sharing p pt usable c = [] := by
        refine List.eq_nil_iff_forall_not_mem.2 fun d hd => ?_
        obtain ⟨r, hr, -⟩ := mem_sharing_iff.1 hd
        exact Nat.not_lt.2 hc (hp.lt_ncol ((hpt r c).1 hr))
      rw [Array.getElem?_eq_none (by rw [hrun.count]; exact hc), hnone]
      simp [conflicting]
  simp only [greedyColumns, hdegree]
  exact greedyMarked_eq (nodup_columnOrder p pt usable vertex)
    (fun c hc => lt_of_mem_columnOrder hc) (sharing p pt usable)

/-- Columns that need a color have one, and no usable row holds one color twice. -/
theorem greedyColumns_spec :
    (greedyColumns p pt usable vertex).colors.size = p.ncol ∧
      (∀ c, ((greedyColumns p pt usable vertex).colorOf c).isSome ↔
        vertex c = true ∧ ∃ r, usable r = true ∧ c ∈ p.row r) ∧
      ∀ r c d, usable r = true → c ∈ p.row r → d ∈ p.row r → c ≠ d →
        vertex c = true → vertex d = true →
          (greedyColumns p pt usable vertex).colorOf c ≠
            (greedyColumns p pt usable vertex).colorOf d := by
  rw [greedyColumns_eq hp hpt]
  have hnodup := nodup_columnOrder p pt usable vertex
  have hlt : ∀ c ∈ columnOrder p pt usable vertex, c < p.ncol := fun c => lt_of_mem_columnOrder
  obtain ⟨hsize, hcolored, -⟩ := greedy_spec hnodup hlt (sharing p pt usable)
  refine ⟨hsize, fun c => ?_, fun r c d husable hc hd hne hvc hvd => ?_⟩
  · rw [hcolored c, mem_columnOrder_iff hp hpt]
  · have hconflict : ∀ {c d}, c ∈ p.row r → d ∈ p.row r → c ∈ sharing p pt usable d :=
      fun hc hd => mem_sharing_iff.2 ⟨r, (hpt r _).2 hd, husable, hc⟩
    exact colorOf_greedy_ne hnodup hlt
      ((mem_columnOrder_iff hp hpt usable vertex).2 ⟨hvc, r, husable, hc⟩)
      ((mem_columnOrder_iff hp hpt usable vertex).2 ⟨hvd, r, husable, hd⟩) hne (hconflict hc hd)
      (hconflict hd hc)

end Columns

theorem mem_withinTwo_iff
    {adjacent : Nat → List Nat} {v w : Nat} :
    w ∈ withinTwo adjacent v ↔ ∃ u ∈ adjacent v, w = u ∨ w ∈ adjacent u ∧ w ≠ v := by
  unfold withinTwo
  rw [Pattern.mem_foldl_mergeRows_iff]
  simp [Pattern.mem_mergeRows_iff]

end Coloring

/-- The columns of the selected rows are colored, and no two of one row alike. -/
structure Coloring.Separates (c : Coloring) (p : Pattern) (selected : Nat → Prop) : Prop where
  size : c.colors.size = p.ncol
  isSome : ∀ r col, selected r → col ∈ p.row r → (c.colorOf col).isSome
  ne : ∀ r a b, selected r → a ∈ p.row r → b ∈ p.row r → a ≠ b → c.colorOf a ≠ c.colorOf b

/-- A symmetric pattern has a coloring that separates the columns of every row. -/
theorem symmetricColoring_spec
    {p : Pattern} (hsquare : p.nrow = p.ncol) (hsymm : ∀ r c, c ∈ p.row r → r ∈ p.row c) :
    ∃ c, symmetricColoring p = .ok c ∧ c.Separates p fun _ => True := by
  have hlt : ∀ {r c : Nat}, c ∈ p.row r → c < p.nrow := fun hc =>
    Pattern.lt_nrow_of_mem_row (hsymm _ _ hc)
  have hinside : p.columns.any (p.nrow ≤ ·) = false := by
    rw [List.any_eq_false]
    intro c hc
    obtain ⟨cols, hcols, hmem⟩ := List.mem_flatten.1 hc
    obtain ⟨r, hr⟩ := List.mem_iff_getElem?.1 hcols
    rw [← Pattern.row_eq_of_getElem? hr] at hmem
    have := hlt hmem
    simp only [decide_eq_true_eq]
    omega
  have hadjacent : ∀ {u v : Nat}, u ∈ (p.row v).filter (· != v) ↔ u ∈ p.row v ∧ u ≠ v := by
    simp [List.mem_filter]
  -- two columns of one row are at distance one if the row is one of them, else at distance two
  have hconflict : ∀ {r a b : Nat}, a ∈ p.row r → b ∈ p.row r → a ≠ b →
      a ∈ ((List.range p.nrow).map (withinTwo fun v =>
        (p.row v).filter (· != v))).toArray.getD b [] := by
    intro r a b ha hb hne
    simp only [Array.getD_eq_getD_getElem?, List.getElem?_toArray, List.getElem?_map,
      List.getElem?_range (hlt hb), Option.map_some, Option.getD_some]
    rw [Coloring.mem_withinTwo_iff]
    by_cases hrb : r = b
    · exact ⟨a, hadjacent.2 ⟨hrb ▸ ha, hne⟩, .inl rfl⟩
    · by_cases hra : a = r
      · exact ⟨a, hadjacent.2 ⟨hra ▸ hsymm r b hb, hne⟩, .inl rfl⟩
      · exact ⟨r, hadjacent.2 ⟨hsymm r b hb, hrb⟩, .inr ⟨hadjacent.2 ⟨ha, hra⟩, hne⟩⟩
  have hneeded : ∀ {r c : Nat}, c ∈ p.row r →
      c ∈ (List.range p.nrow).filter fun v => !(p.row v).isEmpty := by
    intro r c hc
    rw [List.mem_filter, List.mem_range]
    refine ⟨hlt hc, ?_⟩
    have hne := List.ne_nil_of_mem (hsymm r c hc)
    simpa using hne
  unfold symmetricColoring
  rw [hinside]
  refine ⟨_, rfl, ?_⟩
  have hvertices : ∀ degree : Nat → Nat,
      ∀ v ∈ Coloring.byDegree degree ((List.range p.nrow).filter fun v => !(p.row v).isEmpty),
        v < p.nrow := fun degree v hv =>
    List.mem_range.1 (List.mem_filter.1 (Coloring.mem_byDegree_iff.1 hv)).1
  have hnodup : ∀ degree : Nat → Nat, (Coloring.byDegree degree
      ((List.range p.nrow).filter fun v => !(p.row v).isEmpty)).Nodup :=
    fun degree => Coloring.nodup_byDegree (List.nodup_range.filter _)
  obtain ⟨hsize, hcolored, -⟩ := Coloring.greedy_spec (hnodup _) (hvertices _) _
  refine ⟨hsize.trans hsquare, fun r c _ hc => ?_, fun r a b _ ha hb hne => ?_⟩
  · exact (hcolored c).2 (Coloring.mem_byDegree_iff.2 (hneeded hc))
  · exact Coloring.colorOf_greedy_ne (hnodup _) (hvertices _)
      (Coloring.mem_byDegree_iff.2 (hneeded ha)) (Coloring.mem_byDegree_iff.2 (hneeded hb)) hne
      (hconflict ha hb hne) (hconflict hb ha (Ne.symm hne))

/-- The vertices with a color are those with a nonzero in their row. -/
theorem colored_symmetricColoring_iff
    {p : Pattern} {c : Coloring} (h : symmetricColoring p = .ok c) {v : Nat} :
    (c.colorOf v).isSome ↔ p.row v ≠ [] := by
  unfold symmetricColoring at h
  split at h
  · cases h
  · cases h
    obtain ⟨-, hcolored, -⟩ := Coloring.greedy_spec
      (Coloring.nodup_byDegree (List.nodup_range.filter _))
      (fun v hv => List.mem_range.1 (List.mem_filter.1 (Coloring.mem_byDegree_iff.1 hv)).1) _
    rw [hcolored, Coloring.mem_byDegree_iff, List.mem_filter, List.mem_range]
    constructor
    · rintro ⟨-, hrow⟩
      simpa using hrow
    · intro hrow
      obtain ⟨u, hu⟩ := List.exists_mem_of_ne_nil _ hrow
      exact ⟨Pattern.lt_nrow_of_mem_row hu, by simpa using hrow⟩

end SparseDiff
