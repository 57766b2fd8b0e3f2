import SparseDiff.Proofs.Pattern.Numbering

/-!
# The transpose of a pattern

Sorting the entries into their columns gives the transpose: `getElem?_byColumn` says that counting
the nonzeros of each column first leaves room for every one, `mem_row_transpose_iff` that the
transpose has the entries of the pattern with rows and columns exchanged, and
`WellFormed.transpose` that its rows increase, because entries come row by row.
-/

namespace SparseDiff

/-- A list holds the items with its number, in their order. -/
theorem getElem?_sortInto
    {α : Type} (n : Nat) (items : List (Nat × α)) {i : Nat} (hi : i < n) :
    (sortInto n items)[i]? = some ((items.filter (·.1 == i)).map Prod.snd) := by
  unfold sortInto
  induction items with
  | nil => simp [hi]
  | cons item items ih =>
      rw [List.foldr_cons, Array.getElem?_modify, ih, List.filter_cons]
      by_cases h : item.1 = i
      · simp [h]
      · simp [h]

@[simp] theorem size_sortInto
    {α : Type} (n : Nat) (items : List (Nat × α)) :
    (sortInto n items).size = n := by
  unfold sortInto
  induction items with
  | nil => simp
  | cons item items ih => rw [List.foldr_cons, Array.size_modify, ih]

namespace Pattern

theorem le_of_mem_entriesFrom
    {rows : List (List Nat)} {start : Nat} {entry : Nat × Nat}
    (h : entry ∈ entriesFrom start rows) :
    start ≤ entry.1 := by
  induction rows generalizing start with
  | nil => simp at h
  | cons cols rows ih =>
      rw [entriesFrom_cons] at h
      rcases List.mem_append.1 h with h | h
      · obtain ⟨c, -, rfl⟩ := List.mem_map.1 h
        exact Nat.le_refl start
      · exact Nat.le_of_succ_le (ih h)

/-- Entries come row by row, and in a row from left to right. -/
theorem pairwise_entriesFrom
    {rows : List (List Nat)} (h : ∀ cols ∈ rows, cols.Pairwise (· < ·)) (start : Nat) :
    (entriesFrom start rows).Pairwise fun a b => a.1 < b.1 ∨ a.1 = b.1 ∧ a.2 < b.2 := by
  induction rows generalizing start with
  | nil => simp
  | cons cols rows ih =>
      rw [entriesFrom_cons, List.pairwise_append]
      refine ⟨?_, ih (fun cols' h' => h cols' (List.mem_cons_of_mem _ h')) (start + 1),
        fun a ha b hb => .inl ?_⟩
      · rw [List.pairwise_map]
        exact (h cols (List.mem_cons_self ..)).imp fun hlt => .inr ⟨rfl, hlt⟩
      · obtain ⟨c, -, rfl⟩ := List.mem_map.1 ha
        exact le_of_mem_entriesFrom hb

/-- What belongs to column `c`, in its order. -/
def inColumn {α : Type} (c : Nat) (items : List (Nat × α)) : List α :=
  (items.filter (·.1 == c)).map Prod.snd

theorem inColumn_concat
    {α : Type} (c : Nat) (done : List (Nat × α)) (x : Nat × α) :
    inColumn c (done ++ [x]) =
      if x.1 = c then inColumn c done ++ [x.2] else inColumn c done := by
  by_cases h : x.1 = c
  · simp [inColumn, h]
  · simp [inColumn, h]

theorem length_inColumn_le
    {α : Type} {done items : List (Nat × α)} (h : done <+: items) (c : Nat) :
    (inColumn c done).length ≤ (inColumn c items).length :=
  ((h.filter _).map _).length_le

/-- Where the items of column `c` start once all are sorted by column. -/
def columnStart {α : Type} (items : List (Nat × α)) (c : Nat) : Nat :=
  total ((List.range c).map fun c => (inColumn c items).length)

theorem columnStart_succ
    {α : Type} (items : List (Nat × α)) (c : Nat) :
    columnStart items (c + 1) = columnStart items c + (inColumn c items).length := by
  simp [columnStart, total_eq_sum, List.range_succ]

theorem columnStart_mono
    {α : Type} (items : List (Nat × α)) :
    Monotone (columnStart items) :=
  monotone_nat_of_le_succ fun c => (columnStart_succ items c).symm ▸ Nat.le_add_right ..

/-- Column by column, the items are the same as before. -/
theorem flatMap_inColumn_perm
    {α : Type} {items : List (Nat × α)} {n : Nat} (h : ∀ x ∈ items, x.1 < n) :
    ((List.range n).flatMap fun c => inColumn c items).Perm (items.map Prod.snd) := by
  have hbelow : ∀ n, ((List.range n).flatMap fun c => inColumn c items).Perm
      ((items.filter (·.1 < n)).map Prod.snd) := by
    intro n
    induction n with
    | zero => simp
    | succ n ih =>
        have hsplit := List.filter_append_perm (·.1 < n) (items.filter (·.1 < n + 1))
        have hlow : ∀ x : Nat × α, (decide (x.1 < n) && decide (x.1 < n + 1)) = decide (x.1 < n) :=
          fun x => by
            rw [Bool.eq_iff_iff]
            simp
            omega
        have hhigh : ∀ x : Nat × α, (!decide (x.1 < n) && decide (x.1 < n + 1)) = (x.1 == n) :=
          fun x => by
            rw [Bool.eq_iff_iff]
            simp
            omega
        simp only [List.filter_filter, hlow, hhigh] at hsplit
        have hmapped := hsplit.map Prod.snd
        rw [List.map_append] at hmapped
        rw [List.range_succ, List.flatMap_append, List.flatMap_singleton]
        exact (ih.append_right _).trans hmapped
  have hall := hbelow n
  rwa [List.filter_eq_self.2 (by simpa using h)] at hall

/-- Before column `n` there are the items of the columns before it. -/
theorem columnStart_eq_length
    {α : Type} {items : List (Nat × α)} {n : Nat} (h : ∀ x ∈ items, x.1 < n) :
    columnStart items n = items.length := by
  have hlength := (flatMap_inColumn_perm h).length_eq
  rw [List.length_flatMap, List.length_map] at hlength
  rw [columnStart, total_eq_sum, hlength]

/-- A column ends before any later one starts. -/
theorem columnStart_add_length_le
    {α : Type} (items : List (Nat × α)) {c c' : Nat} (h : c < c') :
    columnStart items c + (inColumn c items).length ≤ columnStart items c' :=
  columnStart_succ items c ▸ columnStart_mono items h

/-- Places in the ranges of two columns differ. -/
theorem columnStart_add_ne
    {α : Type} {items : List (Nat × α)} {c c' i j : Nat} (hne : c ≠ c')
    (hi : i < (inColumn c items).length) (hj : j < (inColumn c' items).length) :
    columnStart items c + i ≠ columnStart items c' + j := by
  rcases Nat.lt_or_gt_of_ne hne with hlt | hlt
  · have := columnStart_add_length_le items hlt
    omega
  · have := columnStart_add_length_le items hlt
    omega

/-- State of the sort when the items `done` have their places and the others are still to come. -/
structure Placed.Holds (n : Nat) (items done : List (Nat × (Nat × Nat))) (s : Placed) : Prop where
  size : s.slots.size = columnStart items n
  next : ∀ c < n, s.next[c]? = some (columnStart items c + (inColumn c done).length)
  slots : ∀ c < n, ∀ j item, (inColumn c done)[j]? = some item →
    s.slots[columnStart items c + j]? = some item

theorem Placed.Holds.add
    {n : Nat} {items done : List (Nat × (Nat × Nat))} {s : Placed} (h : s.Holds n items done)
    {x : Nat × (Nat × Nat)} (hx : x.1 < n) (hstarts : done ++ [x] <+: items) :
    (s.add x).Holds n items (done ++ [x]) := by
  obtain ⟨next, slots⟩ := s
  obtain ⟨c, item⟩ := x
  have hnext : next.getD c 0 = columnStart items c + (inColumn c done).length := by
    rw [Array.getD_eq_getD_getElem?, h.next c hx, Option.getD_some]
  have hroom : (inColumn c done).length < (inColumn c items).length := by
    have hle := length_inColumn_le hstarts c
    rw [inColumn_concat, if_pos rfl, List.length_append] at hle
    exact hle
  have hsize : columnStart items c + (inColumn c done).length < slots.size := by
    have hend : columnStart items c + _ ≤ columnStart items n := columnStart_add_length_le items hx
    have hsize : slots.size = columnStart items n := h.size
    omega
  refine ⟨?_, fun c' hc' => ?_, fun c' hc' j item' hj => ?_⟩
  · exact Array.size_setIfInBounds.trans h.size
  · rw [Placed.add, Array.getElem?_modify, h.next c' hc', inColumn_concat]
    split
    · next => simp [Nat.add_assoc]
    · rfl
  · rw [Placed.add, hnext, Array.getElem?_setIfInBounds]
    rw [inColumn_concat] at hj
    split at hj
    · next heq =>
        obtain rfl : c = c' := heq
        rw [List.getElem?_append] at hj
        split at hj
        · next hlt =>
            rw [if_neg (by omega)]
            exact h.slots c hx j item' hj
        · next hge =>
            obtain ⟨hj', heq⟩ := List.getElem?_eq_some_iff.1 hj
            have hj : j = (inColumn c done).length := by
              rw [List.length_singleton] at hj'
              omega
            rw [if_pos (by omega), if_pos hsize, ← heq]
            simp
    · next hne =>
        have hj' := (List.getElem?_eq_some_iff.1 hj).1
        have hle := length_inColumn_le ((List.prefix_append _ _).trans hstarts) c'
        rw [if_neg (columnStart_add_ne hne hroom (by omega))]
        exact h.slots c' hc' j item' hj

/-- Every item is put where its column and its rank in that column say. -/
theorem Placed.holds_foldl
    {n : Nat} {items : List (Nat × (Nat × Nat))} (hitems : ∀ x ∈ items, x.1 < n) {s : Placed}
    (h : s.Holds n items []) :
    (items.foldl Placed.add s).Holds n items items := by
  have hrun : ∀ rest done, items = done ++ rest → ∀ s : Placed, s.Holds n items done →
      (rest.foldl Placed.add s).Holds n items items := by
    intro rest
    induction rest with
    | nil =>
        intro done hdone s hs
        rw [List.append_nil] at hdone
        rw [hdone] at hs ⊢
        exact hs
    | cons x rest ih =>
        intro done hdone s hs
        have hstarts : done ++ [x] <+: items := ⟨rest, by rw [hdone]; simp⟩
        have hx : x ∈ items := hstarts.subset (by simp)
        exact ih (done ++ [x]) (by simpa using hdone) _ (hs.add (hitems x hx) hstarts)
  exact hrun items [] rfl s h

/-- A count goes up with every number counted. -/
theorem getElem?_foldl_count
    (xs : List Nat) (counts : Array Nat) (c : Nat) :
    (xs.foldl (fun counts c => counts.modify c (· + 1)) counts)[c]? =
      counts[c]?.map (· + xs.count c) := by
  induction xs generalizing counts with
  | nil => simp
  | cons x xs ih =>
      rw [List.foldl_cons, ih, Array.getElem?_modify, List.count_cons]
      by_cases h : x = c
      · simp [h, Function.comp_def, Nat.add_assoc, Nat.add_comm 1]
      · simp [h]

theorem map_fst_byRow
    (p : Pattern) :
    p.byRow.map Prod.fst = p.columns := by
  have hcolumns : ∀ start (rows : List (List Nat)),
      (entriesFrom start rows).map Prod.snd = rows.flatten := by
    intro start rows
    induction rows generalizing start with
    | nil => rfl
    | cons cols rows ih => simp [ih, Function.comp_def]
  calc p.byRow.map Prod.fst = (p.entries.zipIdx.map Prod.fst).map Prod.snd := by
        simp [byRow, Function.comp_def, -List.zipIdx_map_fst]
    _ = p.entries.map Prod.snd := by rw [List.zipIdx_map_fst]
    _ = p.columns := hcolumns 0 _

theorem length_inColumn_byRow
    (p : Pattern) (c : Nat) :
    (inColumn c p.byRow).length = p.columns.count c := by
  rw [← map_fst_byRow, List.count_eq_length_filter, List.filter_map, List.length_map, inColumn,
    List.length_map]
  rfl

/-- The counts of the columns, added up, say where each column starts. -/
theorem getElem?_columnStarts
    (p : Pattern) {c : Nat} (hc : c ≤ p.ncol) :
    p.columnStarts[c]? = some (columnStart p.byRow c) := by
  have hcounts : (p.columns.foldl (fun counts c => counts.modify c (· + 1))
      (Array.replicate p.ncol 0)).toList =
        (List.range p.ncol).map fun c => (inColumn c p.byRow).length := by
    refine List.ext_getElem? fun c => ?_
    rw [Array.getElem?_toList, getElem?_foldl_count]
    rcases Nat.lt_or_ge c p.ncol with hc | hc
    · simp [hc, length_inColumn_byRow]
    · simp [Nat.not_lt.2 hc]
  rw [columnStarts, hcounts, List.getElem?_toArray,
    getElem?_runningTotals 0 _ (by simpa using hc), Nat.zero_add, ← List.map_take,
    List.take_range, Nat.min_eq_left hc]
  rfl

theorem WellFormed.lt_of_mem_byRow
    {p : Pattern} (hp : p.WellFormed) {x : Nat × (Nat × Nat)} (hx : x ∈ p.byRow) :
    x.1 < p.ncol := by
  have hcolumn : x.1 ∈ p.columns := map_fst_byRow p ▸ List.mem_map_of_mem hx
  obtain ⟨cols, hcols, hmem⟩ := List.mem_flatten.1 hcolumn
  exact hp.bounded cols hcols _ hmem

theorem length_byRow
    (p : Pattern) :
    p.byRow.length = p.nnz := by
  rw [byRow, List.length_map, List.length_zipIdx, length_entries]

/-- Counting first leaves room for every nonzero, and the columns are found where they start. -/
theorem getElem?_byColumn
    {p : Pattern} (hp : p.WellFormed) {c : Nat} (hc : c < p.ncol) :
    p.byColumn[c]? = some (inColumn c p.byRow) := by
  have hkeys : ∀ x ∈ p.byRow, x.1 < p.ncol := fun _ hx => hp.lt_of_mem_byRow hx
  have hcount : columnStart p.byRow p.ncol = p.nnz :=
    (columnStart_eq_length hkeys).trans (length_byRow p)
  have hstart : ∀ c ≤ p.ncol, p.columnStarts.getD c 0 = columnStart p.byRow c := fun c hc => by
    rw [Array.getD_eq_getD_getElem?, getElem?_columnStarts p hc, Option.getD_some]
  have hplaced := Placed.holds_foldl hkeys (s := ⟨p.columnStarts, Array.replicate p.nnz (0, 0)⟩)
    ⟨by simp [hcount], fun c hc => getElem?_columnStarts p (Nat.le_of_lt hc), by simp [inColumn]⟩
  have hend := columnStart_add_length_le p.byRow hc
  have hsucc := columnStart_succ p.byRow c
  rw [byColumn, Array.getElem?_map, Array.getElem?_range, if_pos hc, Option.map_some,
    hstart c (Nat.le_of_lt hc), hstart (c + 1) hc]
  refine congrArg some (List.ext_getElem? fun j => ?_)
  rw [Array.getElem?_toList, Array.getElem?_extract, hplaced.size]
  rcases Nat.lt_or_ge j (inColumn c p.byRow).length with hj | hj
  · have hget := List.getElem?_eq_getElem hj
    rw [if_pos (by omega), hplaced.slots c hc j _ hget, hget]
  · rw [if_neg (by omega), List.getElem?_eq_none hj]

@[simp] theorem nrow_transpose
    (p : Pattern) :
    p.transpose.nrow = p.ncol := by
  simp [transpose, nrow, byColumn]

@[simp] theorem ncol_transpose
    (p : Pattern) :
    p.transpose.ncol = p.nrow := rfl

/-- A row of the transpose: the rows of the entries in a column. -/
theorem row_transpose
    {p : Pattern} (hp : p.WellFormed) {c : Nat} (hc : c < p.ncol) :
    p.transpose.row c = (p.entries.filter (·.2 == c)).map Prod.fst := by
  have hitems : (inColumn c p.byRow).map Prod.fst =
      ((p.entries.zipIdx.map Prod.fst).filter (·.2 == c)).map Prod.fst := by
    simp [inColumn, byRow, List.filter_map, Function.comp_def, -List.zipIdx_map_fst]
  rw [List.zipIdx_map_fst] at hitems
  rw [row, transpose, Array.getD_eq_getD_getElem?, Array.getElem?_map, getElem?_byColumn hp hc,
    Option.map_some, Option.getD_some, hitems]

theorem mem_row_transpose_iff
    {p : Pattern} (hp : p.WellFormed) {r c : Nat} :
    r ∈ p.transpose.row c ↔ c ∈ p.row r := by
  constructor
  · intro h
    have hc : c < p.ncol := by
      have hlt := lt_nrow_of_mem_row h
      rwa [nrow_transpose] at hlt
    rw [row_transpose hp hc] at h
    obtain ⟨entry, hentry, rfl⟩ := List.mem_map.1 h
    obtain ⟨hmem, heq⟩ := List.mem_filter.1 hentry
    have hcol : entry.2 = c := by simpa using heq
    rw [← hcol]
    exact mem_entries_iff.1 hmem
  · intro h
    rw [row_transpose hp (hp.lt_ncol h)]
    exact List.mem_map.2 ⟨(r, c), List.mem_filter.2 ⟨mem_entries_iff.2 h, by simp⟩, rfl⟩

/-- The transpose of a well-formed pattern is well-formed. -/
theorem WellFormed.transpose
    {p : Pattern} (hp : p.WellFormed) :
    p.transpose.WellFormed := by
  refine wellFormed_of_rows fun c hc => ⟨?_, fun r hr => ?_⟩
  · rw [nrow_transpose] at hc
    rw [row_transpose hp hc, List.pairwise_map]
    have hsorted := (pairwise_entriesFrom hp.increasing 0).filter (·.2 == c)
    rw [← entries_eq_entriesFrom] at hsorted
    refine hsorted.imp_of_mem fun {a b} ha hb hab => ?_
    have hac : a.2 = c := by simpa using (List.mem_filter.1 ha).2
    have hbc : b.2 = c := by simpa using (List.mem_filter.1 hb).2
    omega
  · exact lt_nrow_of_mem_row ((mem_row_transpose_iff hp).1 hr)

theorem byColumn_eq
    {p : Pattern} (hp : p.WellFormed) :
    p.byColumn.toList = (List.range p.ncol).map fun c => inColumn c p.byRow := by
  refine List.ext_getElem? fun c => ?_
  rw [Array.getElem?_toList]
  rcases Nat.lt_or_ge c p.ncol with hc | hc
  · rw [getElem?_byColumn hp hc]
    simp [hc]
  · rw [Array.getElem?_eq_none (by simpa [byColumn] using hc)]
    simp [hc]

/-- The map of the transpose names every nonzero once. -/
theorem transposeMap_perm
    {p : Pattern} (hp : p.WellFormed) :
    p.transposeMap.Perm (List.range p.nnz) := by
  have hnumbers : (p.byRow.map Prod.snd).map Prod.snd = List.range p.nnz := by
    rw [byRow, List.map_map, List.map_map, ← length_entries, List.range_eq_range',
      ← List.zipIdx_map_snd]
    rfl
  have hperm := (flatMap_inColumn_perm fun _ hx => hp.lt_of_mem_byRow hx).map Prod.snd
  rw [hnumbers, List.map_flatMap] at hperm
  rwa [transposeMap, byColumn_eq hp, List.flatMap_map]

theorem length_transposeMap
    (p : Pattern) :
    p.transposeMap.length = p.transpose.nnz := by
  rw [transposeMap, List.length_flatMap, nnz, total_eq_sum, transpose, Array.toList_map,
    List.map_map]
  simp [Function.comp_def]

theorem nnz_transpose
    {p : Pattern} (hp : p.WellFormed) :
    p.transpose.nnz = p.nnz := by
  rw [← length_transposeMap, (transposeMap_perm hp).length_eq, List.length_range]

end Pattern

end SparseDiff
