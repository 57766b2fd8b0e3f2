import SparseDiff.Proofs.Dense.Views
import SparseDiff.Proofs.Meaning
import SparseDiff.Proofs.Pattern.Indices

/-!
# Accesses to operands

An operand of the shape of its reader is read through a map from the nonzeros of the reader, or
directly where both have one pattern. The map is made in one pass: a cursor moves along each row of
the operand and never back. `Strict.nonzeroMap` does this on the compressed arrays and writes words,
`Strict.slot` reads them; on patterns within the index range both find what a binary search finds
for every entry alone (`Access.between_exact`).
-/

namespace SparseDiff

namespace Strict

/-- From place `j` on, the first one whose number is not below `c`, or the end of the row. -/
def advance (others : List Nat) (c j : Nat) : Nat :=
  if h : j < others.length then
    if others[j] < c then advance others c (j + 1) else j
  else
    j
termination_by others.length - j

/--
Words for the columns of a row: the number of the same column in `others`, whose first one has
number `base`, or none. The cursor `j` stays where the last column left it.
-/
def alignRow (base : Nat) (others : List Nat) : (j : Nat) → List Nat → List UInt32
  | _, [] => []
  | j, c :: cols =>
      let k := advance others c j
      indexWord (if others[k]? = some c then some (base + k) else none) ::
        alignRow base others k cols

theorem advance_eq
    (others : List Nat) (c j : Nat) :
    advance others c j = j + ((others.drop j).takeWhile (· < c)).length := by
  fun_induction advance others c j with
  | case1 j h hlt ih =>
      rw [ih, List.drop_eq_getElem_cons h, List.takeWhile_cons_of_pos (by simpa using hlt),
        List.length_cons]
      omega
  | case2 j h hge =>
      rw [List.drop_eq_getElem_cons h, List.takeWhile_cons_of_neg (by simpa using hge)]
      rfl
  | case3 j h =>
      rw [List.drop_eq_nil_of_le (Nat.le_of_not_lt h)]
      rfl

/-- Where the cursor stops, the columns below `c` are behind it. -/
theorem drop_advance
    (others : List Nat) (c j : Nat) :
    others.drop (advance others c j) = (others.drop j).dropWhile (· < c) := by
  have hsplit : (others.drop j).takeWhile (· < c) ++ (others.drop j).dropWhile (· < c) =
      others.drop j :=
    List.takeWhile_append_dropWhile
  rw [advance_eq, ← List.drop_drop]
  nth_rewrite 2 [← hsplit]
  exact List.drop_left

theorem alignRow_eq
    (base : Nat) (others : List Nat) (j : Nat) (cols : List Nat) :
    alignRow base others j cols =
      (Pattern.alignRow (base + j) cols (others.drop j)).map indexWord := by
  induction cols generalizing j with
  | nil => rfl
  | cons c cols ih =>
      have hplace : base + advance others c j =
          base + j + ((others.drop j).takeWhile (· < c)).length := by
        rw [advance_eq]
        omega
      have hhead : others[advance others c j]? = ((others.drop j).dropWhile (· < c)).head? := by
        rw [← drop_advance, List.head?_drop]
      rw [alignRow, Pattern.alignRow, List.map_cons, ih, drop_advance, hplace, hhead]

/-- The columns of row `r`, between its two pointers. -/
def rowAt (p : Pattern) (r : Nat) : Except Failure (List Nat) := do
  let low ← itemAt p.rowPtr r
  let high ← itemAt p.rowPtr (r + 1)
  itemsBetween p.columns low high

/-- `Pattern.nonzeroMap` on compressed arrays, in words. -/
def nonzeroMap (p q : Pattern) : Except Failure (List UInt32) := do
  let rows ← (List.range p.nrow).mapM fun r => do
    let base ← itemAt q.rowPtr r
    let others ← rowAt q r
    let cols ← rowAt p r
    return alignRow base others 0 cols
  return rows.flatten

/-- Slot that the word for nonzero `k` stands for. -/
def mappedSlot (start k : Nat) (words : List UInt32) : Except Failure (Option Nat) := do
  let word ← itemAt words k
  return if word = indexWord none then none else some (start + word.toNat)

/-- The patterns have the same arrays. -/
def SameArrays (p q : Pattern) : Prop :=
  p.nrow = q.nrow ∧ p.ncol = q.ncol ∧ p.rowPtr = q.rowPtr ∧ p.columns = q.columns

instance (p q : Pattern) : Decidable (SameArrays p q) :=
  inferInstanceAs (Decidable (_ ∧ _))

/--
Slot of the operand `q` for nonzero `k` of its reader `p`. Patterns are compared by their arrays,
and a map is made only if they differ.
-/
def slot (p q : Pattern) (start k : Nat) : Except Failure (Option Nat) := do
  if SameArrays p q then
    return some (start + k)
  else
    mappedSlot start k (← nonzeroMap p q)

/-- Between the two pointers of a row stand its columns. -/
theorem rowAt_eq
    {p : Pattern} {r : Nat} (hr : r < p.nrow) :
    rowAt p r = .ok (p.row r) := by
  have hrow : p.rows.toList[r]? = some (p.row r) := by
    have hr' : r < p.rows.size := hr
    simp [Pattern.row, Array.getD_eq_getD_getElem?, hr']
  have hlow : p.rowPtr[r]? = some (p.rowStart r) := Pattern.rowStart_eq_rowPtr p hr.le
  have hhigh : p.rowPtr[r + 1]? = some (p.rowStart (r + 1)) := Pattern.rowStart_eq_rowPtr p hr
  have hnext : p.rowStart (r + 1) = p.rowStart r + (p.row r).length := by
    rw [Pattern.rowStart, List.take_add_one, hrow]
    simp [Pattern.rowStart, total_eq_sum]
  have hend := Pattern.rowStart_add_length_le hr
  rw [← Pattern.length_columns] at hend
  have hslice : (p.columns.take (p.rowStart (r + 1))).drop (p.rowStart r) = p.row r := by
    have hstored : storedRow p.rowPtr p.columns r = p.row r := storedRow_of_rows hrow
    simpa [storedRow, hlow, hhigh] using hstored
  rw [rowAt, itemAt_eq_ok hlow, itemAt_eq_ok hhigh, ok_bind, ok_bind, itemsBetween, inRange,
    if_pos (by omega), ok_bind, hslice]
  rfl

/-- The one pass finds the words of the map, and asks for no index that is not there. -/
theorem nonzeroMap_eq
    {p q : Pattern} (h : p.nrow = q.nrow) :
    nonzeroMap p q = .ok ((p.nonzeroMap q).map indexWord) := by
  have hrow : ∀ r ∈ List.range p.nrow, (do
      let base ← itemAt q.rowPtr r
      let others ← rowAt q r
      let cols ← rowAt p r
      return alignRow base others 0 cols : Except Failure (List UInt32)) =
        .ok ((Pattern.alignRow (q.rowStart r) (p.row r) (q.row r)).map indexWord) := by
    intro r hr
    have hlt := List.mem_range.1 hr
    rw [itemAt_eq_ok (Pattern.rowStart_eq_rowPtr q (by omega)), rowAt_eq (p := q) (by omega),
      rowAt_eq hlt]
    simp only [ok_bind, alignRow_eq, Nat.add_zero, List.drop_zero]
    rfl
  have hrows : p.rows.toList.zipIdx = (List.range p.nrow).map fun r => (p.row r, r) := by
    refine List.ext_getElem? fun r => ?_
    rw [List.getElem?_zipIdx, List.getElem?_map]
    rcases Nat.lt_or_ge r p.rows.size with hr | hr
    · simp [Pattern.row, Array.getD_eq_getD_getElem?, Pattern.nrow, hr]
    · simp [Pattern.nrow, Nat.not_lt.2 hr]
  rw [nonzeroMap, mapM_eq_ok_map hrow, ok_bind, Pattern.nonzeroMap_eq_flatMap h, hrows,
    List.flatMap_map, List.map_flatMap]
  rfl

/-- Patterns with the same arrays are the same. -/
theorem sameArrays_iff
    {p q : Pattern} :
    SameArrays p q ↔ p = q := by
  constructor
  · rintro ⟨hnrow, hncol, hptr, hcolumns⟩
    have hrow : ∀ r < p.nrow, p.row r = q.row r := by
      intro r hr
      have hp := rowAt_eq hr
      rw [rowAt, hptr, hcolumns] at hp
      exact Except.ok.inj (hp.symm.trans (rowAt_eq (hnrow ▸ hr)))
    obtain ⟨ncol, rows⟩ := p
    obtain ⟨ncol', rows'⟩ := q
    obtain rfl : ncol = ncol' := hncol
    congr 1
    refine Array.ext hnrow fun r hr hr' => ?_
    simpa [Pattern.row, Array.getD_eq_getD_getElem?, hr, hr'] using hrow r hr
  · rintro rfl
    exact ⟨rfl, rfl, rfl, rfl⟩

theorem slot_eq
    {p q : Pattern} (h : p.nrow = q.nrow) (hcount : q.nnz ≤ maxIndex) (start k : Nat) :
    slot p q start k = (Access.between p q).slot start k := by
  unfold slot Access.between
  by_cases heq : p = q
  · rw [if_pos (sameArrays_iff.2 heq), if_pos heq]
    rfl
  · rw [if_neg (fun hsame => heq (sameArrays_iff.1 hsame)), if_neg heq, nonzeroMap_eq h, ok_bind]
    simp only [mappedSlot, itemAt, Access.slot, List.getElem?_map, List.getElem?_toArray]
    cases hk : (p.nonzeroMap q)[k]? with
    | none => rfl
    | some entry =>
        cases entry with
        | none => rfl
        | some j =>
          have hfits : FitsWord j := fitsWord_iff.2
            ((Pattern.lt_of_mem_nonzeroMap h (List.mem_of_getElem? hk)).le.trans hcount)
          simp [hfits.toNat_eq, hfits.ne_none]

end Strict

namespace Access

/--
Nonzero `k` of `p` lies at entry `(r, c)`. All ways from there to the nonzero of `q` at this entry
end at one number, or at none: the search, the map, its words, and the slots through the chosen
access, through the map alone, and through the stored arrays.
-/
structure Finds (p q : Pattern) (words : List UInt32) (k r c : Nat) : Prop where
  search : q.searchIndex? r c = q.nzIndex? r c
  number : (p.nonzeroMap q)[k]? = some (q.nzIndex? r c)
  word : words[k]? = some (indexWord (q.nzIndex? r c))
  fits : ∀ j, q.nzIndex? r c = some j → FitsWord j
  chosen : ∀ start, (between p q).slot start k = .ok ((q.nzIndex? r c).map (start + ·))
  mapped : ∀ start, (Access.mapped (p.nonzeroMap q).toArray).slot start k =
    .ok ((q.nzIndex? r c).map (start + ·))
  stored : ∀ start, Strict.slot p q start k = .ok ((q.nzIndex? r c).map (start + ·))

/-- The map is left out exactly where it would be the identity. -/
theorem between_eq_same_iff
    {p q : Pattern} (hp : p.WellFormed) (hq : q.WellFormed) (hshape : p.shape = q.shape) :
    between p q = .same ↔ ∀ entry, entry ∈ p.entries ↔ entry ∈ q.entries := by
  unfold between
  split
  · next heq => exact iff_of_true rfl fun entry => by rw [heq]
  · next hne =>
      exact iff_of_false (fun h => nomatch h) fun hsame => hne (hp.eq_of_entries hq hshape hsame)

/--
Accesses between well-formed patterns of one shape are exact, if the operand stays within the index
range. The one pass along the rows reads nothing out of bounds, and writes a word for every nonzero
of the reader: the number of the operand's nonzero at the same entry, or that there is none. The
access reads the slot of this number, or none, with the map and without. The map is left out
exactly where the patterns have the same entries.
-/
theorem between_exact
    {p q : Pattern} (hp : p.WellFormed) (hq : q.WellFormed) (hshape : p.shape = q.shape)
    (hcount : q.nnz ≤ maxIndex) :
    (∃ words, Strict.nonzeroMap p q = .ok words ∧ words.length = p.nnz ∧
      ∀ k r c : Nat, p.entries[k]? = some (r, c) → Finds p q words k r c) ∧
    (between p q = .same ↔ ∀ entry, entry ∈ p.entries ↔ entry ∈ q.entries) := by
  have hnrow : p.nrow = q.nrow := congrArg Prod.fst hshape
  have hlength : ((p.nonzeroMap q).map indexWord).length = p.nnz := by
    rw [List.length_map, Pattern.length_nonzeroMap hnrow]
  have hfinds : ∀ k r c : Nat, p.entries[k]? = some (r, c) →
      Finds p q ((p.nonzeroMap q).map indexWord) k r c := by
    intro k r c hk
    have hnumber : (p.nonzeroMap q)[k]? = some (q.nzIndex? r c) := by
      rw [Pattern.nonzeroMap_eq_map hp hq hshape, List.getElem?_map, hk]
      rfl
    have hlt : k < p.nnz := by
      rw [← Pattern.length_entries]
      exact (List.getElem?_eq_some_iff.1 hk).1
    have hchosen : ∀ start,
        (between p q).slot start k = .ok ((q.nzIndex? r c).map (start + ·)) := by
      intro start
      rw [(fits_between hshape).slot k hlt, index?_between hp hq hshape hk]
    exact
      { search := Pattern.searchIndex?_eq hq r c
        number := hnumber
        word := by
          rw [List.getElem?_map, hnumber]
          rfl
        fits := fun j hj => fitsWord_iff.2 ((Pattern.nzIndex?_lt_nnz hq hj).le.trans hcount)
        chosen := hchosen
        mapped := fun start => by simp only [Access.slot, List.getElem?_toArray, hnumber]
        stored := fun start => by rw [Strict.slot_eq hnrow hcount, hchosen] }
  exact ⟨⟨_, Strict.nonzeroMap_eq hnrow, hlength, hfinds⟩, between_eq_same_iff hp hq hshape⟩

/-- Rows that meet in one column, where the cursor passes a column on either side. -/
theorem between_exact_crossing :
    ∃ words, Strict.nonzeroMap ⟨4, #[[0, 2, 3], [1]]⟩ ⟨4, #[[1, 2], [0, 1]]⟩ = .ok words ∧
      words[1]? = some 1 ∧ words[2]? = some (indexWord none) ∧
      (between ⟨4, #[[0, 2, 3], [1]]⟩ ⟨4, #[[1, 2], [0, 1]]⟩).slot 10 0 = .ok none ∧
      (between ⟨4, #[[0, 2, 3], [1]]⟩ ⟨4, #[[1, 2], [0, 1]]⟩).slot 10 3 = .ok (some 13) ∧
      between ⟨4, #[[0, 2, 3], [1]]⟩ ⟨4, #[[1, 2], [0, 1]]⟩ ≠ .same := by
  have hp : (Pattern.mk 4 #[[0, 2, 3], [1]]).WellFormed := ⟨by decide, by decide⟩
  have hq : (Pattern.mk 4 #[[1, 2], [0, 1]]).WellFormed := ⟨by decide, by decide⟩
  obtain ⟨⟨words, hwords, -, hfinds⟩, hsame⟩ := between_exact hp hq rfl (by decide)
  have hdiffer : ¬ ∀ entry, entry ∈ (Pattern.mk 4 #[[0, 2, 3], [1]]).entries ↔
      entry ∈ (Pattern.mk 4 #[[1, 2], [0, 1]]).entries := fun h =>
    absurd ((h (0, 0)).1 (by decide)) (by decide)
  exact ⟨words, hwords, (hfinds 1 0 2 rfl).word, (hfinds 2 0 3 rfl).word,
    (hfinds 0 0 0 rfl).chosen 10, (hfinds 3 1 1 rfl).chosen 10, fun h => hdiffer (hsame.1 h)⟩

end Access

end SparseDiff
