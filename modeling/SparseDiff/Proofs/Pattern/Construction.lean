import SparseDiff.Graph.Stored
import SparseDiff.Proofs.Bounds.Strict
import SparseDiff.Proofs.Pattern.Compressed
import SparseDiff.Proofs.Pattern.Sorted

/-!
# Construction of patterns

Patterns are read from compressed arrays or gathered from a list of coordinates, and either way
gives the one well-formed pattern with the entries described, or refuses
(`Pattern.constructors_exact`). `Strict.ofCompressed` reads the arrays by index, and every index
that it asks for is there.
-/

namespace SparseDiff

namespace Strict

/-- Item `i` of a list. -/
def itemAt {α : Type} (xs : List α) (i : Nat) : Except Failure α :=
  match xs[i]? with
  | some x => .ok x
  | none => .error .outOfBounds

/-- The items of a list from `low` up to `high`, as a slice. -/
def itemsBetween {α : Type} (xs : List α) (low high : Nat) : Except Failure (List α) := do
  inRange (low ≤ high ∧ high ≤ xs.length)
  return (xs.take high).drop low

/-- Column `c` is in range and above the one before, if it is not the first of its row. -/
def checkColumn (op : String) (ncol r : Nat) (row : List Nat) : Nat × Nat → Except Failure Unit
  | (c, k) =>
      if ncol ≤ c then
        .error (.rejected (.outOfRange op "column" c ncol))
      else if 0 < k then do
        let before ← itemAt row (k - 1)
        if c ≤ before then
          .error (.rejected (.mismatch op (.increasingColumns r) (before + 1) c))
        else
          .ok ()
      else
        .ok ()

/-- Row `r`, cut at its two pointers. -/
def cutRow (op : String) (ncol : Nat) (rowPtr columns : List Nat) (r : Nat) :
    Except Failure (List Nat) := do
  let low ← itemAt rowPtr r
  let high ← itemAt rowPtr (r + 1)
  if high < low ∨ columns.length < high then
    .error (.rejected (.outOfRange op "row pointer" high (columns.length + 1)))
  else do
    let row ← itemsBetween columns low high
    row.zipIdx.forM (checkColumn op ncol r row)
    return row

/-- Build from compressed arrays, which are read by index. -/
def ofCompressed (nrow ncol : Nat) (rowPtr columns : List Nat) : Except Failure Pattern := do
  let op := "Sparsity::from_crs"
  orReject (Pattern.checkShape op nrow ncol)
  orReject (Pattern.checkCount op columns.length)
  if rowPtr.length ≠ nrow + 1 then
    throw (.rejected (.mismatch op .rowPointerLength (nrow + 1) rowPtr.length))
  let first ← itemAt rowPtr 0
  if first ≠ 0 then
    throw (.rejected (.mismatch op .firstRowPointer 0 first))
  let last ← itemAt rowPtr nrow
  if last ≠ columns.length then
    throw (.rejected (.mismatch op .lastRowPointer columns.length last))
  let rows ← (List.range nrow).mapM (cutRow op ncol rowPtr columns)
  return ⟨ncol, rows.toArray⟩

theorem itemAt_eq_ok
    {α : Type} {xs : List α} {i : Nat} {x : α} (h : xs[i]? = some x) :
    itemAt xs i = .ok x := by
  rw [itemAt, h]

theorem orReject_bind
    {α β : Type} (x : Except Error α) (f : α → Except Error β) :
    orReject (x >>= f) = orReject x >>= fun a => orReject (f a) := by
  cases x <;> rfl

/-- The column before `c` is the last one of those that are done. -/
theorem checkColumn_bind
    (op : String) (ncol r : Nat) (done : List Nat) (c : Nat) (rest : List Nat) :
    (checkColumn op ncol r (done ++ c :: rest) (c, done.length) >>= fun _ =>
        orReject (Pattern.checkColumns op ncol r (some c) rest)) =
      orReject (Pattern.checkColumns op ncol r done.getLast? (c :: rest)) := by
  cases hlast : done.getLast? with
  | none =>
      obtain rfl := List.getLast?_eq_none_iff.1 hlast
      by_cases hout : ncol ≤ c
      · simp only [checkColumn, Pattern.checkColumns, hout, if_true]
        rfl
      · simp only [checkColumn, Pattern.checkColumns, hout, if_false]
        rfl
  | some before =>
      have hpos : 0 < done.length := by
        refine List.length_pos_iff.2 ?_
        rintro rfl
        cases hlast
      have hbefore : (done ++ c :: rest)[done.length - 1]? = some before := by
        rw [List.getElem?_append_left (by omega), ← List.getLast?_eq_getElem?, hlast]
      by_cases hout : ncol ≤ c
      · simp only [checkColumn, Pattern.checkColumns, hout, if_true]
        rfl
      · by_cases hle : c ≤ before
        · simp only [checkColumn, Pattern.checkColumns, itemAt_eq_ok hbefore, ok_bind, hpos, hout,
            hle, if_true, if_false]
          rfl
        · simp only [checkColumn, Pattern.checkColumns, itemAt_eq_ok hbefore, ok_bind, hpos, hout,
            hle, if_true, if_false]

theorem forM_checkColumn
    (op : String) (ncol r : Nat) (done rest : List Nat) :
    (rest.zipIdx done.length).forM (checkColumn op ncol r (done ++ rest)) =
      orReject (Pattern.checkColumns op ncol r done.getLast? rest) := by
  induction rest generalizing done with
  | nil => rfl
  | cons c rest ih =>
      have hnext := ih (done ++ [c])
      rw [List.length_append, List.length_singleton, List.append_assoc, List.singleton_append,
        List.getLast?_concat] at hnext
      rw [← checkColumn_bind, ← hnext]
      rfl

/-- Between pointers that are found, a row is cut if they rise and stay among the columns. -/
theorem cutRow_eq
    {op : String} {ncol r low high : Nat} {rowPtr columns : List Nat}
    (hlow : rowPtr[r]? = some low) (hhigh : rowPtr[r + 1]? = some high) :
    cutRow op ncol rowPtr columns r =
      if high < low ∨ columns.length < high then
        .error (.rejected (.outOfRange op "row pointer" high (columns.length + 1)))
      else
        let row := (columns.drop low).take (high - low)
        orReject (Pattern.checkColumns op ncol r none row) >>= fun _ => .ok row := by
  have hchecks := forM_checkColumn op ncol r [] ((columns.drop low).take (high - low))
  rw [List.nil_append, List.getLast?_nil] at hchecks
  rw [cutRow, itemAt_eq_ok hlow, itemAt_eq_ok hhigh, ok_bind, ok_bind]
  by_cases hout : high < low ∨ columns.length < high
  · simp only [hout, if_true]
  · have hin : low ≤ high ∧ high ≤ columns.length := by omega
    have hslice : itemsBetween columns low high = .ok ((columns.drop low).take (high - low)) := by
      simp only [itemsBetween, inRange, hin, List.drop_take]
      rfl
    simp only [hout, if_false, hslice, ok_bind, ← hchecks]
    rfl

/-- From the pointer of row `r` on, rows are cut off the columns that are left. -/
theorem mapM_cutRow
    (op : String) (ncol : Nat) {r low : Nat} {rowPtr columns pointers : List Nat}
    (h : rowPtr.drop r = low :: pointers) (hlow : low ≤ columns.length) :
    (List.range' r pointers.length).mapM (cutRow op ncol rowPtr columns) =
      orReject (Pattern.cutRows op ncol columns.length r low (columns.drop low) pointers) := by
  induction pointers generalizing r low with
  | nil => rfl
  | cons high pointers ih =>
      have hlow' : rowPtr[r]? = some low := by
        rw [← Nat.add_zero r, ← List.getElem?_drop, h]
        rfl
      have hhigh : rowPtr[r + 1]? = some high := by
        rw [← List.getElem?_drop, h]
        rfl
      have hdrop : rowPtr.drop (r + 1) = high :: pointers := by
        rw [← List.drop_drop, h]
        rfl
      rw [List.length_cons, List.range'_succ, List.mapM_cons, cutRow_eq hlow' hhigh,
        Pattern.cutRows]
      by_cases hout : high < low ∨ columns.length < high
      · simp only [hout, if_true]
        rfl
      · have hrest : columns.drop high = (columns.drop low).drop (high - low) := by
          rw [List.drop_drop]
          congr 1
          omega
        have ih := ih hdrop (by omega)
        rw [hrest] at ih
        simp only [hout, if_false, orReject_bind, ih, bind_assoc, ok_bind]
        rfl

/-- No index is out of range, whatever the arrays hold. -/
theorem ofCompressed_eq
    (nrow ncol : Nat) (rowPtr columns : List Nat) :
    ofCompressed nrow ncol rowPtr columns =
      orReject (Pattern.ofCompressed nrow ncol rowPtr columns) := by
  rw [ofCompressed, Pattern.ofCompressed, orReject_bind, orReject_bind]
  congr 1
  funext _
  congr 1
  funext _
  by_cases hlength : rowPtr.length = nrow + 1
  · obtain ⟨first, pointers, rfl⟩ := List.exists_cons_of_length_eq_add_one hlength
    have hfirst : (first :: pointers)[0]? = some first := rfl
    have hpointers : pointers.length = nrow := Nat.succ.inj hlength
    have hlast : (first :: pointers)[nrow]? = some ((first :: pointers).getLastD 0) := by
      rw [List.getLastD_eq_getLast?, List.getLast?_eq_getElem?, hlength, Nat.add_sub_cancel,
        List.getElem?_eq_getElem (by omega)]
      rfl
    simp only [hlength, ne_eq, not_true, if_false, itemAt_eq_ok hfirst, itemAt_eq_ok hlast, ok_bind,
      List.headD_cons]
    by_cases hzero : first = 0
    · subst hzero
      by_cases hend : (0 :: pointers).getLastD 0 = columns.length
      · have hrows := mapM_cutRow "Sparsity::from_crs" ncol
          (List.drop_zero (l := 0 :: pointers)) (Nat.zero_le columns.length)
        rw [hpointers, ← List.range_eq_range'] at hrows
        simp only [hend, not_true, if_false, hrows, orReject_bind]
        rfl
      · simp only [hend, not_true, not_false_iff, if_false, if_true]
        rfl
    · simp only [hzero, not_false_iff, if_true]
      rfl
  · simp only [hlength, ne_eq, not_false_iff, if_true]
    rfl

end Strict

namespace Pattern

theorem checkTriplets_eq_ok_iff
    {op : String} {nrow ncol : Nat} {entries : List (Nat × Nat)} :
    checkTriplets op nrow ncol entries = .ok () ↔
      ∀ entry ∈ entries, entry.1 < nrow ∧ entry.2 < ncol := by
  induction entries with
  | nil => simp [checkTriplets]
  | cons entry entries ih =>
      obtain ⟨r, c⟩ := entry
      unfold checkTriplets
      rw [List.forall_mem_cons, ← ih]
      split
      · next hr => simp [Nat.not_lt.2 hr]
      · next hr =>
          split
          · next hc => simp [Nat.not_lt.2 hc]
          · next hc => simp [Nat.not_le.1 hr, Nat.not_le.1 hc]

/-- Coordinates in two lists that a pattern of this shape can be gathered from. -/
structure Coordinates (nrow ncol : Nat) (rows cols : List Nat) : Prop where
  length : rows.length = cols.length
  row_lt : ∀ r ∈ rows, r < nrow
  col_lt : ∀ c ∈ cols, c < ncol

/-- In lists of one length the coordinates are in range if each of them is. -/
theorem coordinates_iff
    {nrow ncol : Nat} {rows cols : List Nat} :
    Coordinates nrow ncol rows cols ↔ rows.length = cols.length ∧
      ∀ entry ∈ rows.zip cols, entry.1 < nrow ∧ entry.2 < ncol := by
  constructor
  · exact fun h => ⟨h.length, fun entry he =>
      ⟨h.row_lt _ (List.of_mem_zip he).1, h.col_lt _ (List.of_mem_zip he).2⟩⟩
  · rintro ⟨hlength, h⟩
    refine ⟨hlength, fun r hr => ?_, fun c hc => ?_⟩
    · rw [← List.map_fst_zip (Nat.le_of_eq hlength)] at hr
      obtain ⟨entry, he, rfl⟩ := List.mem_map.1 hr
      exact (h entry he).1
    · rw [← List.map_snd_zip (Nat.le_of_eq hlength.symm)] at hc
      obtain ⟨entry, he, rfl⟩ := List.mem_map.1 hc
      exact (h entry he).2

/-- Gathering succeeds on coordinates in range, as far as indices reach. -/
theorem ofTriplets_eq_ok_iff
    {nrow ncol : Nat} {rows cols : List Nat} {p : Pattern} :
    ofTriplets nrow ncol rows cols = .ok p ↔
      (nrow ≤ maxIndex ∧ ncol ≤ maxIndex ∧ (rows.zip cols).toFinset.card ≤ maxIndex) ∧
        Coordinates nrow ncol rows cols ∧
        ofSortedEntries nrow ncol (distinctEntries (rows.zip cols)) = p := by
  simp only [ofTriplets, check_bind_eq_ok_iff, ite_throw_eq_ok_iff, checkShape_eq_ok_iff,
    checkTriplets_eq_ok_iff, checkCount_eq_ok_iff, coordinates_iff, not_not,
    length_distinctEntries]
  constructor
  · rintro ⟨⟨hnrow, hncol⟩, hlength, hrange, hcount, h⟩
    cases h
    exact ⟨⟨hnrow, hncol, hcount⟩, ⟨hlength, hrange⟩, rfl⟩
  · rintro ⟨⟨hnrow, hncol, hcount⟩, ⟨hlength, hrange⟩, rfl⟩
    exact ⟨⟨hnrow, hncol⟩, hlength, hrange, hcount, rfl⟩

/-- Reading accepts what is in compressed form, as far as indices reach. -/
theorem exists_ofCompressed_eq_ok_iff
    {nrow ncol : Nat} {rowPtr columns : List Nat} :
    (∃ p, ofCompressed nrow ncol rowPtr columns = .ok p) ↔
      (nrow ≤ maxIndex ∧ ncol ≤ maxIndex ∧ columns.length ≤ maxIndex) ∧
        CompressedForm nrow ncol rowPtr columns := by
  constructor
  · rintro ⟨p, h⟩
    obtain ⟨hrange, hp, rfl, rfl, rfl, rfl⟩ := ofCompressed_eq_ok_iff.1 h
    exact ⟨hrange, hp.compressedForm⟩
  · rintro ⟨hrange, hform⟩
    obtain ⟨p, hp⟩ := exists_of_compressedForm hform
    exact ⟨p, ofCompressed_eq_ok_iff.2 ⟨hrange, hp⟩⟩

/-- The entries of a well-formed pattern of some shape determine it. -/
theorem WellFormed.eq_of_entries
    {p q : Pattern} (hp : p.WellFormed) (hq : q.WellFormed) (hshape : p.shape = q.shape)
    (h : ∀ entry, entry ∈ p.entries ↔ entry ∈ q.entries) :
    p = q := by
  refine hp.eq_of_mem_iff hq (congrArg Prod.fst hshape) (congrArg Prod.snd hshape) fun r _ c => ?_
  rw [← mem_entries_iff, h, mem_entries_iff]

/--
Reading compressed arrays never leaves them, accepts them exactly if they are in compressed form
and within the index range, and stores what was given. Gathering coordinates accepts them exactly
if they are in range and not too many, and its result depends on the set of them only. A
well-formed pattern is the only one with its shape and its entries.
-/
theorem constructors_exact :
    (∀ nrow ncol rowPtr columns,
      Strict.ofCompressed nrow ncol rowPtr columns =
          orReject (ofCompressed nrow ncol rowPtr columns) ∧
        ((∃ p, ofCompressed nrow ncol rowPtr columns = .ok p) ↔
          (nrow ≤ maxIndex ∧ ncol ≤ maxIndex ∧ columns.length ≤ maxIndex) ∧
            CompressedForm nrow ncol rowPtr columns) ∧
        ∀ p, ofCompressed nrow ncol rowPtr columns = .ok p →
          p.WellFormed ∧ StoredPattern.ofPattern p = ⟨nrow, ncol, rowPtr, columns⟩ ∧
            (StoredPattern.ofPattern p).toPattern = .ok p) ∧
    (∀ nrow ncol rows cols,
      ((∃ p, ofTriplets nrow ncol rows cols = .ok p) ↔
          (nrow ≤ maxIndex ∧ ncol ≤ maxIndex ∧ (rows.zip cols).toFinset.card ≤ maxIndex) ∧
            Coordinates nrow ncol rows cols) ∧
        ∀ p, ofTriplets nrow ncol rows cols = .ok p →
          p.WellFormed ∧ p.shape = (nrow, ncol) ∧
            (∀ entry, entry ∈ p.entries ↔ entry ∈ rows.zip cols) ∧
            ∀ rows' cols' : List Nat, rows'.length = cols'.length →
              (∀ entry, entry ∈ rows'.zip cols' ↔ entry ∈ rows.zip cols) →
              ofTriplets nrow ncol rows' cols' = .ok p) ∧
    ∀ p q : Pattern, p.WellFormed → q.WellFormed → p.shape = q.shape →
      (∀ entry, entry ∈ p.entries ↔ entry ∈ q.entries) → p = q := by
  refine ⟨?_, ?_, ?_⟩
  · intro nrow ncol rowPtr columns
    have hstored : ∀ p, ofCompressed nrow ncol rowPtr columns = .ok p →
        p.WellFormed ∧ StoredPattern.ofPattern p = ⟨nrow, ncol, rowPtr, columns⟩ ∧
          (StoredPattern.ofPattern p).toPattern = .ok p := by
      intro p h
      obtain ⟨-, hp, rfl, rfl, rfl, rfl⟩ := ofCompressed_eq_ok_iff.1 h
      exact ⟨hp, rfl, h⟩
    exact ⟨Strict.ofCompressed_eq nrow ncol rowPtr columns, exists_ofCompressed_eq_ok_iff, hstored⟩
  · intro nrow ncol rows cols
    refine ⟨⟨?_, ?_⟩, ?_⟩
    · rintro ⟨p, h⟩
      obtain ⟨hrange, hcoordinates, -⟩ := ofTriplets_eq_ok_iff.1 h
      exact ⟨hrange, hcoordinates⟩
    · rintro ⟨hrange, hcoordinates⟩
      exact ⟨_, ofTriplets_eq_ok_iff.2 ⟨hrange, hcoordinates, rfl⟩⟩
    · intro p h
      obtain ⟨⟨hnrow, hncol, hcount⟩, hcoordinates, rfl⟩ := ofTriplets_eq_ok_iff.1 h
      have hin := (coordinates_iff.1 hcoordinates).2
      obtain ⟨hwf, hentries⟩ := (rowMajor_distinctEntries (rows.zip cols)).entries_ofSortedEntries
        fun entry he => hin entry (mem_distinctEntries_iff.1 he)
      refine ⟨hwf, shape_ofSortedEntries .., fun entry => ?_, fun rows' cols' hlength hsame => ?_⟩
      · rw [hentries, mem_distinctEntries_iff]
      · have hset : (rows'.zip cols').toFinset = (rows.zip cols).toFinset :=
          Finset.ext fun entry => by rw [List.mem_toFinset, List.mem_toFinset, hsame]
        refine ofTriplets_eq_ok_iff.2 ⟨⟨hnrow, hncol, hset ▸ hcount⟩, coordinates_iff.2
          ⟨hlength, fun entry he => hin entry ((hsame entry).1 he)⟩, ?_⟩
        rw [distinctEntries_congr hsame]
  · intro p q hp hq
    exact hp.eq_of_entries hq

/-- The arrays of a pattern, and its coordinates in any order, give the same pattern. -/
theorem constructors_exact_agree :
    ∃ p q, ofCompressed 2 3 [0, 1, 3] [1, 0, 2] = .ok p ∧
      StoredPattern.ofPattern p = ⟨2, 3, [0, 1, 3], [1, 0, 2]⟩ ∧
      ofTriplets 2 3 [1, 0, 1, 0] [2, 1, 0, 1] = .ok q ∧
      ofTriplets 2 3 [0, 1, 1] [1, 0, 2] = .ok q ∧ p = q := by
  obtain ⟨hread, hgather, hunique⟩ := constructors_exact
  obtain ⟨-, -, hread⟩ := hread 2 3 [0, 1, 3] [1, 0, 2]
  obtain ⟨-, hgather⟩ := hgather 2 3 [1, 0, 1, 0] [2, 1, 0, 1]
  have hp : ofCompressed 2 3 [0, 1, 3] [1, 0, 2] = .ok ⟨3, #[[1], [0, 2]]⟩ := rfl
  have hq : ofTriplets 2 3 [1, 0, 1, 0] [2, 1, 0, 1] = .ok ⟨3, #[[1], [0, 2]]⟩ := by cbv
  obtain ⟨hp', hstored, -⟩ := hread _ hp
  obtain ⟨hq', -, -, hsame⟩ := hgather _ hq
  refine ⟨_, _, hp, hstored, hq, hsame [0, 1, 1] [1, 0, 2] rfl fun entry => ?_,
    hunique _ _ hp' hq' rfl fun _ => Iff.rfl⟩
  simp
  tauto

end Pattern

end SparseDiff
