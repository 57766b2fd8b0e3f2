import SparseDiff.Proofs.Pattern.Numbering
import SparseDiff.Proofs.Run

/-!
# The compressed form of a pattern

Row pointers and one list of columns describe a well-formed pattern exactly if they are in
`CompressedForm` (`Pattern.WellFormed.compressedForm`, `Pattern.exists_of_compressedForm`).
Reading accepts such arrays, within the index range, and nothing else
(`Pattern.ofCompressed_eq_ok_iff`).
-/

namespace SparseDiff

/-- Columns of row `r` in compressed arrays. -/
def storedRow (rowPtr columns : List Nat) (r : Nat) : List Nat :=
  (columns.take (rowPtr.getD (r + 1) 0)).drop (rowPtr.getD r 0)

/-- Arrays that describe a pattern with `nrow` rows and `ncol` columns row by row. -/
structure CompressedForm (nrow ncol : Nat) (rowPtr columns : List Nat) : Prop where
  length : rowPtr.length = nrow + 1
  first : rowPtr[0]? = some 0
  last : rowPtr[nrow]? = some columns.length
  sorted : rowPtr.Pairwise (· ≤ ·)
  increasing : ∀ r < nrow, (storedRow rowPtr columns r).Pairwise (· < ·)
  bounded : ∀ c ∈ columns, c < ncol

/-- Running totals never fall below where they start, and they never fall. -/
theorem sorted_runningTotals
    (start : Nat) (ns : List Nat) :
    (runningTotals start ns).Pairwise (· ≤ ·) ∧ ∀ n ∈ runningTotals start ns, start ≤ n := by
  induction ns generalizing start with
  | nil => simp [runningTotals]
  | cons n ns ih =>
      obtain ⟨hsorted, hle⟩ := ih (start + n)
      have hle' : ∀ m ∈ runningTotals (start + n) ns, start ≤ m := fun m hm => by
        have := hle m hm
        omega
      exact ⟨List.pairwise_cons.2 ⟨hle', hsorted⟩, by simpa [runningTotals] using hle'⟩

theorem getLastD_runningTotals
    (start : Nat) (ns : List Nat) :
    (runningTotals start ns).getLastD 0 = start + total ns := by
  rw [List.getLastD_eq_getLast?, List.getLast?_eq_getElem?, length_runningTotals,
    Nat.add_sub_cancel, getElem?_runningTotals start ns (Nat.le_refl _), List.take_length]
  rfl

theorem storedRow_of_rows
    {rows : List (List Nat)} {r : Nat} {row : List Nat} (h : rows[r]? = some row) :
    storedRow (runningTotals 0 (rows.map List.length)) rows.flatten r = row := by
  obtain ⟨hr, rfl⟩ := List.getElem?_eq_some_iff.1 h
  have hget : ∀ i ≤ rows.length, (runningTotals 0 (rows.map List.length)).getD i 0 =
      ((rows.map List.length).take i).sum := by
    intro i hi
    rw [List.getD_eq_getElem?_getD, getElem?_runningTotals 0 _ (by simpa using hi), total_eq_sum]
    simp
  rw [storedRow, hget r (by omega), hget (r + 1) (by omega)]
  exact List.drop_take_succ_flatten_eq_getElem rows r hr

theorem runningTotals_eq_cons
    (start : Nat) (ns : List Nat) :
    ∃ rest, runningTotals start ns = start :: rest := by
  cases ns <;> exact ⟨_, rfl⟩

/-- The total after the first item, and the totals from there on. -/
theorem runningTotals_cons_eq_iff
    {start n next : Nat} {ns rest : List Nat} :
    runningTotals start (n :: ns) = start :: next :: rest ↔
      start + n = next ∧ runningTotals next ns = next :: rest := by
  obtain ⟨tail, htail⟩ := runningTotals_eq_cons (start + n) ns
  constructor
  · intro h
    have h' : runningTotals (start + n) ns = next :: rest := (List.cons.inj h).2
    have hnext : start + n = next := (List.cons.inj (htail.symm.trans h')).1
    exact ⟨hnext, hnext ▸ h'⟩
  · rintro ⟨rfl, h⟩
    exact congrArg (start :: ·) h

namespace Pattern

theorem length_columns
    (p : Pattern) :
    p.columns.length = p.nnz := by
  rw [columns, List.length_flatten, nnz, total_eq_sum]

/-- The row pointers start at zero, never fall, and end at the number of nonzeros. -/
theorem WellFormed.compressedForm
    {p : Pattern} (hp : p.WellFormed) :
    CompressedForm p.nrow p.ncol p.rowPtr p.columns := by
  have hget : ∀ i ≤ p.nrow, p.rowPtr[i]? = some (p.rowStart i) := fun i hi =>
    rowStart_eq_rowPtr p hi
  refine ⟨by simp [rowPtr, nrow], by simpa [rowStart] using hget 0 (Nat.zero_le _), ?_,
    (sorted_runningTotals 0 _).1, fun r hr => ?_, fun c hc => ?_⟩
  · rw [hget _ (Nat.le_refl _), length_columns, rowStart, nnz, nrow, ← Array.length_toList,
      List.take_length]
  · have hrow : p.rows.toList[r]? = some (p.row r) := by
      have hr' : r < p.rows.size := hr
      simp [row, Array.getD_eq_getD_getElem?, hr']
    rw [rowPtr, columns, storedRow_of_rows hrow]
    exact hp.row_increasing r
  · obtain ⟨cols, hcols, hmem⟩ := List.mem_flatten.1 hc
    exact hp.bounded cols hcols c hmem

end Pattern

namespace CompressedForm

variable {nrow ncol : Nat} {rowPtr columns : List Nat}

theorem getElem?_rowPtr
    (h : CompressedForm nrow ncol rowPtr columns) {i : Nat} (hi : i ≤ nrow) :
    rowPtr[i]? = some (rowPtr.getD i 0) := by
  have hlt : i < rowPtr.length := by
    rw [h.length]
    omega
  simp [hlt]

theorem getD_last
    (h : CompressedForm nrow ncol rowPtr columns) :
    rowPtr.getD nrow 0 = columns.length := by
  simp [h.last]

theorem getD_mono
    (h : CompressedForm nrow ncol rowPtr columns) {i j : Nat} (hij : i ≤ j) (hj : j ≤ nrow) :
    rowPtr.getD i 0 ≤ rowPtr.getD j 0 := by
  rcases Nat.lt_or_eq_of_le hij with hlt | rfl
  · obtain ⟨hi', hgeti⟩ := List.getElem?_eq_some_iff.1 (h.getElem?_rowPtr (i := i) (by omega))
    obtain ⟨hj', hgetj⟩ := List.getElem?_eq_some_iff.1 (h.getElem?_rowPtr hj)
    rw [← hgeti, ← hgetj]
    exact List.pairwise_iff_getElem.1 h.sorted i j hi' hj' hlt
  · exact Nat.le_refl _

/-- The rows cut so far fill the columns up to the pointer, which is their total length. -/
theorem storedRows_spec
    (h : CompressedForm nrow ncol rowPtr columns) {n : Nat} (hn : n ≤ nrow) :
    total (((List.range n).map (storedRow rowPtr columns)).map List.length) = rowPtr.getD n 0 ∧
      ((List.range n).map (storedRow rowPtr columns)).flatten =
        columns.take (rowPtr.getD n 0) := by
  induction n with
  | zero => simp [h.first]
  | succ n ih =>
      obtain ⟨htotal, hflatten⟩ := ih (by omega)
      have hle : rowPtr.getD n 0 ≤ rowPtr.getD (n + 1) 0 := h.getD_mono (Nat.le_succ n) hn
      have hlen := h.getD_mono hn (Nat.le_refl _)
      rw [h.getD_last] at hlen
      rw [total_eq_sum] at htotal ⊢
      rw [List.range_succ, List.map_append, List.map_append, List.sum_append, htotal,
        List.flatten_append, hflatten]
      constructor
      · simp only [List.map_cons, List.map_nil, List.sum_cons, List.sum_nil, storedRow,
          List.length_drop, List.length_take]
        omega
      · have hsplit := List.take_append_drop (rowPtr.getD n 0)
          (columns.take (rowPtr.getD (n + 1) 0))
        rw [List.take_take, Nat.min_eq_left hle] at hsplit
        simpa [storedRow] using hsplit

end CompressedForm

namespace Pattern

/-- Arrays in compressed form are those of a well-formed pattern. -/
theorem exists_of_compressedForm
    {nrow ncol : Nat} {rowPtr columns : List Nat} (h : CompressedForm nrow ncol rowPtr columns) :
    ∃ p : Pattern, p.WellFormed ∧ p.nrow = nrow ∧ p.ncol = ncol ∧ p.rowPtr = rowPtr ∧
      p.columns = columns := by
  have hflatten := (h.storedRows_spec (Nat.le_refl _)).2
  rw [h.getD_last, List.take_length] at hflatten
  refine ⟨⟨ncol, ((List.range nrow).map (storedRow rowPtr columns)).toArray⟩,
    ⟨fun cols hcols => ?_, fun cols hcols c hc => ?_⟩, by simp [Pattern.nrow], rfl, ?_, hflatten⟩
  · obtain ⟨r, hr, rfl⟩ := List.mem_map.1 hcols
    exact h.increasing r (List.mem_range.1 hr)
  · exact h.bounded c (hflatten ▸ List.mem_flatten.2 ⟨cols, hcols, hc⟩)
  · refine List.ext_getElem? fun i => ?_
    rcases Nat.lt_or_ge nrow i with hi | hi
    · rw [List.getElem?_eq_none (by simpa [Pattern.rowPtr] using hi),
        List.getElem?_eq_none (by rw [h.length]; omega)]
    · rw [Pattern.rowPtr, getElem?_runningTotals 0 _ (by simpa using hi), h.getElem?_rowPtr hi,
        ← (h.storedRows_spec hi).1, Nat.zero_add]
      simp [← List.map_take, List.take_range, Nat.min_eq_left hi]

theorem checkShape_eq_ok_iff
    {op : String} {nrow ncol : Nat} :
    checkShape op nrow ncol = .ok () ↔ nrow ≤ maxIndex ∧ ncol ≤ maxIndex := by
  unfold checkShape
  split
  · simp
    omega
  · split
    · simp
      omega
    · simp
      omega

theorem checkCount_eq_ok_iff
    {op : String} {nnz : Nat} :
    checkCount op nnz = .ok () ↔ nnz ≤ maxIndex := by
  unfold checkCount
  split
  · simp
    omega
  · simp
    omega

/-- Columns pass if they are in range and increase, from above the one before. -/
theorem checkColumns_eq_ok_iff
    {op : String} {ncol r : Nat} {before? : Option Nat} {cols : List Nat} :
    checkColumns op ncol r before? cols = .ok () ↔
      (before?.toList ++ cols).IsChain (· < ·) ∧ ∀ c ∈ cols, c < ncol := by
  induction cols generalizing before? with
  | nil => cases before? <;> simp [checkColumns]
  | cons c cols ih =>
      unfold checkColumns
      split
      · next hge => simp [Nat.not_lt.2 hge]
      · next hlt =>
          have hlt := Nat.not_le.1 hlt
          cases before? with
          | none => simp [ih, hlt]
          | some before =>
              simp only
              split
              · next hle => simp [Nat.not_lt.2 hle]
              · next hgt =>
                  have hgt := Nat.not_le.1 hgt
                  simp [ih, hlt, hgt]

/--
Rows are cut from the columns behind `low` exactly if the pointers are their running totals, and
their columns increase and are in range.
-/
theorem cutRows_eq_ok_iff
    {op : String} {ncol size r low : Nat} {rest pointers : List Nat} {rows : List (List Nat)}
    (hlow : low ≤ size) (hrest : rest.length = size - low) :
    cutRows op ncol size r low rest pointers = .ok rows ↔
      runningTotals low (rows.map List.length) = low :: pointers ∧ rows.flatten <+: rest ∧
        ∀ row ∈ rows, row.Pairwise (· < ·) ∧ ∀ c ∈ row, c < ncol := by
  induction pointers generalizing r low rest rows with
  | nil =>
      cases rows with
      | nil => simp [cutRows, runningTotals]
      | cons row rows =>
          simp only [cutRows, runningTotals, List.map_cons]
          constructor
          · rintro ⟨⟩
          · rintro ⟨h, -⟩
            simpa using congrArg List.length h
  | cons high pointers ih =>
      rw [cutRows]
      split
      · next hout =>
          constructor
          · rintro ⟨⟩
          · rintro ⟨htotals, hstarts, -⟩
            cases rows with
            | nil => simp [runningTotals] at htotals
            | cons row rows =>
                obtain ⟨rfl, -⟩ := runningTotals_cons_eq_iff.1 htotals
                have hlength := hstarts.length_le
                rw [List.flatten_cons, List.length_append] at hlength
                omega
      · next hin =>
          have hdrop : (rest.drop (high - low)).length = size - high := by
            rw [List.length_drop]
            omega
          have ih := @ih (r + 1) high (rest.drop (high - low))
          constructor
          · intro h
            obtain ⟨⟨⟩, hcheck, h⟩ := bind_eq_ok_iff.1 h
            obtain ⟨below, hbelow, h⟩ := bind_eq_ok_iff.1 h
            cases h
            obtain ⟨hchain, hbound⟩ := checkColumns_eq_ok_iff.1 hcheck
            obtain ⟨htotals, hstarts, hrows⟩ := (ih (by omega) hdrop).1 hbelow
            refine ⟨runningTotals_cons_eq_iff.2 ⟨?_, htotals⟩, ?_, fun row hrow => ?_⟩
            · rw [List.length_take]
              omega
            · obtain ⟨behind, hbehind⟩ := hstarts
              refine ⟨behind, ?_⟩
              rw [List.flatten_cons, List.append_assoc, hbehind, List.take_append_drop]
            · rcases List.mem_cons.1 hrow with rfl | hrow
              · exact ⟨List.isChain_iff_pairwise.1 (by simpa using hchain), hbound⟩
              · exact hrows row hrow
          · rintro ⟨htotals, ⟨behind, rfl⟩, hrows⟩
            cases rows with
            | nil => simp [runningTotals] at htotals
            | cons row rows =>
                obtain ⟨rfl, htotals⟩ := runningTotals_cons_eq_iff.1 htotals
                obtain ⟨⟨hrow, hbound⟩, hrows⟩ := List.forall_mem_cons.1 hrows
                simp only [Nat.add_sub_cancel_left, List.flatten_cons, List.append_assoc,
                  List.take_left, List.drop_left] at ih hdrop ⊢
                refine bind_eq_ok_iff.2 ⟨(), checkColumns_eq_ok_iff.2 ⟨?_, hbound⟩,
                  bind_eq_ok_iff.2 ⟨rows, ?_, rfl⟩⟩
                · exact List.isChain_iff_pairwise.2 hrow
                · exact (ih (by omega) hdrop).2 ⟨htotals, List.prefix_append _ _, hrows⟩

/-- Reading accepts the arrays of well-formed patterns, as far as indices reach. -/
theorem ofCompressed_eq_ok_iff
    {nrow ncol : Nat} {rowPtr columns : List Nat} {p : Pattern} :
    ofCompressed nrow ncol rowPtr columns = .ok p ↔
      (nrow ≤ maxIndex ∧ ncol ≤ maxIndex ∧ columns.length ≤ maxIndex) ∧ p.WellFormed ∧
        p.nrow = nrow ∧ p.ncol = ncol ∧ p.rowPtr = rowPtr ∧ p.columns = columns := by
  simp only [ofCompressed, check_bind_eq_ok_iff, ite_throw_eq_ok_iff, checkShape_eq_ok_iff,
    checkCount_eq_ok_iff, not_not]
  constructor
  · rintro ⟨⟨hnrow, hncol⟩, hcount, hlength, hfirst, hlast, h⟩
    obtain ⟨rows, hrows, h⟩ := bind_eq_ok_iff.1 h
    cases h
    obtain ⟨htotals, hstarts, hrows⟩ :=
      (cutRows_eq_ok_iff (Nat.zero_le _) (Nat.sub_zero _).symm).1 hrows
    have hrowPtr : runningTotals 0 (rows.map List.length) = rowPtr := by
      cases rowPtr with
      | nil => cases hlength
      | cons first rest =>
          obtain rfl : first = 0 := hfirst
          exact htotals
    -- the last pointer counts the columns of all rows, so the rows leave none of them over
    have hcolumns : rows.flatten = columns := by
      refine hstarts.eq_of_length ?_
      rw [← hlast, ← hrowPtr, getLastD_runningTotals, Nat.zero_add, List.length_flatten,
        total_eq_sum]
    refine ⟨⟨hnrow, hncol, hcount⟩, ⟨fun cols hcols => (hrows cols hcols).1,
      fun cols hcols => (hrows cols hcols).2⟩, ?_, rfl, hrowPtr, hcolumns⟩
    have hsize := congrArg List.length hrowPtr
    rw [length_runningTotals, List.length_map, hlength] at hsize
    exact Nat.succ.inj hsize
  · rintro ⟨⟨hnrow, hncol, hcount⟩, hp, rfl, rfl, rfl, rfl⟩
    obtain ⟨rest, hrest⟩ := runningTotals_eq_cons 0 (p.rows.toList.map List.length)
    have hrowPtr : p.rowPtr = 0 :: rest := hrest
    refine ⟨⟨hnrow, hncol⟩, hcount, hp.compressedForm.length, by rw [hrowPtr]; rfl, ?_,
      bind_eq_ok_iff.2 ⟨p.rows.toList, ?_, rfl⟩⟩
    · rw [rowPtr, getLastD_runningTotals, Nat.zero_add, length_columns]
      rfl
    · refine (cutRows_eq_ok_iff (Nat.zero_le _) (Nat.sub_zero _).symm).2 ⟨?_, ?_, ?_⟩
      · rw [hrowPtr]
        exact hrest
      · exact List.prefix_refl _
      · exact fun cols hcols => ⟨hp.increasing cols hcols, hp.bounded cols hcols⟩

end Pattern

end SparseDiff
