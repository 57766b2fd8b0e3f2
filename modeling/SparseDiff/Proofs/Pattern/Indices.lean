import SparseDiff.Proofs.Pattern.Algebra
import SparseDiff.Proofs.Pattern.Construction
import SparseDiff.Proofs.Pattern.Movement

/-!
# Index ranges of built patterns

Columns and nonzero numbers are written into words of 32 bits, and the largest word says that
there is no number. `Constructed` holds of every pattern that the constructors and the
transformations can give, one after the other in any order. Dimensions always stay within the
index range. The number of nonzeros does too where no union outgrows it: every other result is
counted, or has no more nonzeros than one of its operands (`Makes.sized`). A union is not
counted, so that two halves of a matrix can make a pattern whose last nonzero number is no word
any more.
-/

namespace SparseDiff

/-- The word for a nonzero number. The largest word stands for none. -/
def indexWord : Option Nat → UInt32
  | some k => .ofNat k
  | none => .ofNat (UInt32.size - 1)

/-- The word for `k` is not cut off, and is not the word for none. -/
structure FitsWord (k : Nat) : Prop where
  toNat_eq : (indexWord (some k)).toNat = k
  ne_none : indexWord (some k) ≠ indexWord none

theorem fitsWord_iff
    {k : Nat} :
    FitsWord k ↔ k ≤ maxIndex := by
  have hnone : (indexWord none).toNat = UInt32.size - 1 := rfl
  have htoNat : (indexWord (some k)).toNat = k % UInt32.size := UInt32.toNat_ofNat'
  constructor
  · intro h
    have hlt : k < UInt32.size := h.toNat_eq ▸ (indexWord (some k)).toNat_lt
    have hne : k ≠ UInt32.size - 1 := fun heq => h.ne_none (by rw [heq]; rfl)
    rw [maxIndex]
    omega
  · intro h
    have hlt : k < UInt32.size - 1 := Nat.lt_of_le_of_lt h (by decide)
    have hmod : k % UInt32.size = k := Nat.mod_eq_of_lt (Nat.lt_of_lt_of_le hlt (Nat.sub_le ..))
    refine ⟨htoNat.trans hmod, fun heq => ?_⟩
    rw [← UInt32.toNat_inj, htoNat, hmod, hnone] at heq
    exact Nat.ne_of_lt hlt heq

namespace Pattern

/-- One successful call on the patterns `parts` gives `q`. Unions stand apart. -/
inductive Makes : List Pattern → Pattern → Prop
  | ofCompressed {nrow ncol : Nat} {rowPtr columns : List Nat} {q : Pattern}
      (h : Pattern.ofCompressed nrow ncol rowPtr columns = .ok q) : Makes [] q
  | ofTriplets {nrow ncol : Nat} {rows cols : List Nat} {q : Pattern}
      (h : Pattern.ofTriplets nrow ncol rows cols = .ok q) : Makes [] q
  | dense {nrow ncol : Nat} {q : Pattern} (h : Pattern.dense nrow ncol = .ok q) : Makes [] q
  | empty {nrow ncol : Nat} {q : Pattern} (h : Pattern.empty nrow ncol = .ok q) : Makes [] q
  | scalar : Makes [] Pattern.scalar
  | diagonal {n : Nat} {q : Pattern} (h : Pattern.diagonal n = .ok q) : Makes [] q
  | inter {p p' q : Pattern} (h : p.inter p' = .ok q) : Makes [p, p'] q
  | transpose (p : Pattern) : Makes [p] p.transpose
  | product {p p' q : Pattern} (h : p.product p' = .ok q) : Makes [p, p'] q
  | sub {p q : Pattern} {rows cols map : List Nat} (h : p.sub rows cols = .ok (q, map)) :
      Makes [p] q
  | reshape {p q : Pattern} {nrow ncol : Nat} (h : p.reshape nrow ncol = .ok q) : Makes [p] q
  | horzcat {parts : List Pattern} {q : Pattern} (h : Pattern.horzcat parts = .ok q) :
      Makes parts q
  | vertcat {parts : List Pattern} {q : Pattern} (h : Pattern.vertcat parts = .ok q) :
      Makes parts q

/-- Patterns that successful calls build up, as long as every union satisfies `keep`. -/
inductive Constructed (keep : Pattern → Prop) : Pattern → Prop
  | make {parts : List Pattern} {q : Pattern} (hparts : ∀ p ∈ parts, Constructed keep p)
      (h : Makes parts q) : Constructed keep q
  | union {p q u : Pattern} (hp : Constructed keep p) (hq : Constructed keep q)
      (h : p.union q = .ok u) (hu : keep u) : Constructed keep u

/-- A well-formed pattern whose dimensions stay within the index range. -/
structure Sized (p : Pattern) : Prop where
  wellFormed : p.WellFormed
  nrow_le : p.nrow ≤ maxIndex
  ncol_le : p.ncol ≤ maxIndex

theorem Indexable.sized
    {p : Pattern} (h : p.Indexable) (hp : p.WellFormed) :
    p.Sized :=
  ⟨hp, h.nrow_le, h.ncol_le⟩

theorem Sized.of_shape
    {p : Pattern} (hp : p.WellFormed) {nrow ncol : Nat} (hshape : p.shape = (nrow, ncol))
    (hnrow : nrow ≤ maxIndex) (hncol : ncol ≤ maxIndex) :
    p.Sized :=
  ⟨hp, (congrArg Prod.fst hshape).trans_le hnrow, (congrArg Prod.snd hshape).trans_le hncol⟩

theorem shape_eq_of_checkSameShape
    {op : String} {p q : Pattern} (h : checkSameShape op p q = .ok ()) :
    p.shape = q.shape := by
  by_contra hne
  rw [checkSameShape, if_pos hne] at h
  cases h

/-- Fewer entries make fewer nonzeros. -/
theorem WellFormed.nnz_le
    {p q : Pattern} (hp : p.WellFormed) (h : p.entries ⊆ q.entries) :
    p.nnz ≤ q.nnz := by
  rw [← length_entries, ← length_entries]
  exact (hp.rowMajor.nodup.subperm h).length_le

/--
A call other than a union keeps dimensions within the index range. It counts the nonzeros of its
result, or gives no more of them than one of its operands has.
-/
theorem Makes.sized
    {parts : List Pattern} {q : Pattern} (h : Makes parts q) (hparts : ∀ p ∈ parts, p.Sized) :
    q.Sized ∧ (q.nnz ≤ maxIndex ∨ ∃ p ∈ parts, q.nnz ≤ p.nnz) := by
  have hwf : ∀ p ∈ parts, p.WellFormed := fun p hp => (hparts p hp).wellFormed
  cases h with
  | ofCompressed h =>
      obtain ⟨⟨hnrow, hncol, hcount⟩, hq, rfl, rfl, -, rfl⟩ := ofCompressed_eq_ok_iff.1 h
      exact ⟨⟨hq, hnrow, hncol⟩, .inl (length_columns q ▸ hcount)⟩
  | @ofTriplets _ _ rows cols _ h =>
      obtain ⟨⟨hnrow, hncol, hcount⟩, hcoordinates, rfl⟩ := ofTriplets_eq_ok_iff.1 h
      have hin := (coordinates_iff.1 hcoordinates).2
      obtain ⟨hq, hentries⟩ := (rowMajor_distinctEntries (rows.zip cols)).entries_ofSortedEntries
        fun entry he => hin entry (mem_distinctEntries_iff.1 he)
      refine ⟨.of_shape hq (shape_ofSortedEntries ..) hnrow hncol, .inl ?_⟩
      rwa [← length_entries, hentries, length_distinctEntries]
  | dense h =>
      obtain ⟨hq, -⟩ := dense_eq_ok h
      obtain ⟨hshape, h⟩ := check_bind_eq_ok_iff.1 h
      obtain ⟨hcount, h⟩ := check_bind_eq_ok_iff.1 h
      obtain ⟨hnrow, hncol⟩ := checkShape_eq_ok_iff.1 hshape
      cases h
      refine ⟨⟨hq, by simpa [nrow] using hnrow, hncol⟩, .inl ?_⟩
      simpa [nnz, total_eq_sum] using checkCount_eq_ok_iff.1 hcount
  | empty h =>
      obtain ⟨hshape, h⟩ := check_bind_eq_ok_iff.1 h
      obtain ⟨hnrow, hncol⟩ := checkShape_eq_ok_iff.1 hshape
      cases h
      refine ⟨⟨⟨by simp, by simp⟩, by simpa [nrow] using hnrow, hncol⟩, .inl ?_⟩
      simp [nnz, total_eq_sum]
  | scalar => exact ⟨⟨wellFormed_scalar, by decide, by decide⟩, .inl (by decide)⟩
  | diagonal h =>
      obtain ⟨hshape, h⟩ := check_bind_eq_ok_iff.1 h
      obtain ⟨hn, -⟩ := checkShape_eq_ok_iff.1 hshape
      cases h
      refine ⟨⟨⟨by simp, by simp⟩, by simpa [nrow] using hn, hn⟩, .inl ?_⟩
      simpa [nnz, total_eq_sum, Function.comp_def] using hn
  | @inter p p' _ h =>
      obtain ⟨hsame, -⟩ := check_bind_eq_ok_iff.1 h
      have hp := hparts p (by simp)
      obtain ⟨i, hi, hdescribes⟩ :=
        exists_inter_eq_ok hp.wellFormed (shape_eq_of_checkSameShape hsame)
      obtain rfl : i = q := Except.ok.inj (hi.symm.trans h)
      refine ⟨.of_shape hdescribes.wellFormed hdescribes.shape_eq hp.nrow_le hp.ncol_le,
        .inr ⟨p, by simp, hdescribes.wellFormed.nnz_le fun entry hentry => ?_⟩⟩
      exact ((hdescribes.mem_entries_iff _ _).1 hentry).1
  | transpose p =>
      have hp := hparts p (by simp)
      exact ⟨.of_shape hp.wellFormed.transpose (shape_transpose p) hp.ncol_le hp.nrow_le,
        .inr ⟨p, by simp, (nnz_transpose hp.wellFormed).le⟩⟩
  | @product p p' _ h =>
      have hp := hparts p (by simp)
      have hp' := hparts p' (by simp)
      obtain ⟨hinner, hrows⟩ := ite_throw_eq_ok_iff.1 h
      obtain ⟨-, hchecked⟩ := check_bind_eq_ok_iff.1 hrows
      have hq := indexable_of_checked hchecked
      obtain ⟨m, hm, heq⟩ :=
        exists_product_eq hp'.wellFormed hp.nrow_le hp'.ncol_le (not_not.1 hinner)
      rw [heq] at h
      split at h
      · cases h
        exact ⟨hq.sized hm.wellFormed, .inl hq.nnz_le⟩
      · cases h
  | @sub p _ _ _ _ h =>
      obtain ⟨-, -, hq, -⟩ := sub_eq_ok h
      exact ⟨hq.sized (arranges_sub (hwf p (by simp)) h).wellFormed, .inl hq.nnz_le⟩
  | @reshape p _ _ _ h =>
      obtain ⟨hq, -, hentries⟩ := entries_reshape (hwf p (by simp)) h
      obtain ⟨⟨hnrow, hncol⟩, -, -⟩ := reshape_eq_ok h
      refine ⟨.of_shape hq (shape_reshape h) hnrow hncol, .inr ⟨p, by simp, ?_⟩⟩
      rw [← length_entries, hentries, List.length_map, length_entries]
  | horzcat h =>
      obtain ⟨-, -, hq, -⟩ := horzcat_eq_ok h
      exact ⟨hq.sized (arranges_horzcat hwf h).wellFormed, .inl hq.nnz_le⟩
  | vertcat h =>
      obtain ⟨-, -, hq, -⟩ := vertcat_eq_ok h
      exact ⟨hq.sized (arranges_vertcat hwf h).wellFormed, .inl hq.nnz_le⟩

/-- A union has the shape of its operands. -/
theorem Sized.union
    {p q u : Pattern} (hp : p.Sized) (hq : q.Sized) (h : p.union q = .ok u) :
    u.Sized := by
  obtain ⟨hsame, -⟩ := check_bind_eq_ok_iff.1 h
  obtain ⟨u', hu', hdescribes⟩ :=
    exists_union_eq_ok hp.wellFormed hq.wellFormed (shape_eq_of_checkSameShape hsame)
  obtain rfl : u' = u := Except.ok.inj (hu'.symm.trans h)
  exact .of_shape hdescribes.wellFormed hdescribes.shape_eq hp.nrow_le hp.ncol_le

section Constructed

variable {keep : Pattern → Prop} {p : Pattern}

theorem Constructed.sized
    (h : Constructed keep p) :
    p.Sized := by
  induction h with
  | make _ h ih => exact (h.sized ih).1
  | union _ _ h _ ihp ihq => exact ihp.union ihq h

/-- If unions stay within the index range, so does everything built from them. -/
theorem Constructed.indexable
    (hkeep : ∀ u, keep u → u.nnz ≤ maxIndex) (h : Constructed keep p) :
    p.Indexable := by
  refine ⟨h.sized.nrow_le, h.sized.ncol_le, ?_⟩
  induction h with
  | make hparts h ih =>
      rcases (h.sized fun p hp => (hparts p hp).sized).2 with hcount | ⟨p, hp, hle⟩
      · exact hcount
      · exact hle.trans (ih p hp)
  | union _ _ _ hu _ _ => exact hkeep _ hu

end Constructed

/-- Every number that a map of nonzeros takes from `p` fits a word. -/
structure Numbered (p : Pattern) : Prop where
  number : ∀ k < p.nnz, FitsWord k
  transposed : ∀ k ∈ p.transposeMap, FitsWord k
  aligned : ∀ q : Pattern, q.nrow = p.nrow → ∀ k, some k ∈ q.nonzeroMap p → FitsWord k
  selected : ∀ rows cols q map, p.sub rows cols = .ok (q, map) → ∀ k ∈ map, FitsWord k

/-- A map as long as its result takes only nonzeros that the parts have. -/
theorem Arranges.lt_nnz
    {parts : List Pattern} {q : Pattern} {map : List (Nat × Nat)} {origin : Origin}
    (h : Arranges parts q map origin) (hlength : map.length = q.nnz) {d j : Nat}
    (hmem : (d, j) ∈ map) :
    ∃ p, parts[d]? = some p ∧ j < p.nnz := by
  obtain ⟨k, hk⟩ := List.mem_iff_getElem?.1 hmem
  have hlt : k < q.entries.length := by
    rw [length_entries, ← hlength]
    exact (List.getElem?_eq_some_iff.1 hk).1
  have hentry : (q.entries[k], (d, j)) ∈ q.entries.zip map :=
    mem_zip_iff.2 ⟨k, List.getElem?_eq_getElem hlt, hk⟩
  have hcol := mem_entries_iff.1 (List.getElem_mem hlt)
  obtain ⟨hd, p, hp, hj⟩ :=
    (h.moved _ (lt_nrow_of_mem_row hcol) _ (h.wellFormed.lt_ncol hcol) d j).1 hentry
  exact ⟨p, hp, by simpa using (List.getElem?_eq_some_iff.1 hj).1⟩

theorem Indexable.numbered
    {p : Pattern} (h : p.Indexable) (hp : p.WellFormed) :
    p.Numbered := by
  have hfits : ∀ k < p.nnz, FitsWord k := fun k hk => fitsWord_iff.2 (hk.le.trans h.nnz_le)
  refine ⟨hfits, fun k hk => hfits k ?_,
    fun q hnrow k hk => hfits k (lt_of_mem_nonzeroMap hnrow hk),
    fun rows cols q map hsub k hk => ?_⟩
  · exact List.mem_range.1 ((transposeMap_perm hp).mem_iff.1 hk)
  · obtain ⟨-, -, -, hq, hmap⟩ := sub_eq_ok hsub
    have hlength : (Graph.fromOnly map).length = q.nnz := by
      rw [Graph.fromOnly, List.length_map, hmap, hq, nnz_labels]
    obtain ⟨p', hp', hlt⟩ := (arranges_sub hp hsub).lt_nnz hlength (List.mem_map_of_mem hk)
    obtain rfl : p = p' := Option.some.inj hp'
    exact hfits k hlt

/-- Numbers in the map of joined parts fit, if those of the parts do. -/
theorem Arranges.fitsWord
    {parts : List Pattern} {q : Pattern} {map : List (Nat × Nat)} {origin : Origin}
    (h : Arranges parts q map origin) (hlength : map.length = q.nnz)
    (hparts : ∀ p ∈ parts, p.Indexable) :
    ∀ item ∈ map, FitsWord item.2 := by
  intro item hitem
  obtain ⟨p, hp, hlt⟩ := h.lt_nnz hlength hitem
  exact fitsWord_iff.2 (hlt.le.trans (hparts p (List.mem_of_getElem? hp)).nnz_le)

/--
However patterns are built up, their dimensions stay within the index range and their columns fit
words. As long as no union has too many nonzeros, the same holds of the number of nonzeros, and
every nonzero number fits a word wherever a map takes it: in the map of a transpose, of a
selection, of joined parts, and of two patterns of one shape.
-/
theorem constructed_within_range
    (keep : Pattern → Prop) :
    (∀ p, Constructed keep p → p.Sized ∧ ∀ c ∈ p.columns, FitsWord c) ∧
    ((∀ u, keep u → u.nnz ≤ maxIndex) →
      (∀ p, Constructed keep p → p.Indexable ∧ p.Numbered) ∧
      ∀ parts q, (∀ p ∈ parts, Constructed keep p) →
        (horzcat parts = .ok q → ∀ item ∈ Graph.horzcatMap q.nrow parts, FitsWord item.2) ∧
        (vertcat parts = .ok q → ∀ item ∈ Graph.vertcatMap parts, FitsWord item.2)) := by
  constructor
  · intro p hp
    have hcolumns : ∀ c ∈ p.columns, FitsWord c := by
      intro c hc
      obtain ⟨row, hrow, hc⟩ := List.mem_flatten.1 hc
      have hlt := hp.sized.wellFormed.bounded row hrow c hc
      exact fitsWord_iff.2 (hlt.le.trans hp.sized.ncol_le)
    exact ⟨hp.sized, hcolumns⟩
  intro hkeep
  constructor
  · intro p hp
    have hindexable := hp.indexable hkeep
    exact ⟨hindexable, hindexable.numbered hp.sized.wellFormed⟩
  · intro parts q hparts
    have hwf : ∀ p ∈ parts, p.WellFormed := fun p hp => (hparts p hp).sized.wellFormed
    have hindexable : ∀ p ∈ parts, p.Indexable := fun p hp => (hparts p hp).indexable hkeep
    constructor
    · intro hbeside
      exact (arranges_horzcat hwf hbeside).fitsWord (length_horzcatMap hbeside) hindexable
    · intro hstacked
      exact (arranges_vertcat hwf hstacked).fitsWord (length_vertcatMap hstacked) hindexable

/-- A lower triangle as the union of a diagonal and one entry below it, stacked on itself. -/
theorem constructed_within_range_triangle :
    Constructed (·.nnz ≤ maxIndex) ⟨2, #[[0], [0, 1]]⟩ ∧
      (Pattern.mk 2 #[[0], [0, 1]]).Sized ∧ FitsWord 1 ∧
      (Pattern.mk 2 #[[0], [0, 1]]).Indexable ∧ (Pattern.mk 2 #[[0], [0, 1]]).Numbered ∧
      (0, 2) ∈ Graph.vertcatMap [⟨2, #[[0], [0, 1]]⟩, ⟨2, #[[0], [0, 1]]⟩] ∧ FitsWord 2 := by
  have hnil : ∀ p ∈ ([] : List Pattern), Constructed (·.nnz ≤ maxIndex) p := by simp
  have hdiagonal : diagonal 2 = .ok ⟨2, #[[0], [1]]⟩ := rfl
  have hbelow : ofTriplets 2 2 [1] [0] = .ok ⟨2, #[[], [0]]⟩ := by cbv
  have hunion : union ⟨2, #[[0], [1]]⟩ ⟨2, #[[], [0]]⟩ = .ok ⟨2, #[[0], [0, 1]]⟩ := by cbv
  have htriangle : Constructed (·.nnz ≤ maxIndex) ⟨2, #[[0], [0, 1]]⟩ :=
    .union (.make hnil (.diagonal hdiagonal)) (.make hnil (.ofTriplets hbelow)) hunion (by decide)
  have hstacked : vertcat [⟨2, #[[0], [0, 1]]⟩, ⟨2, #[[0], [0, 1]]⟩] =
      .ok ⟨2, #[[0], [0, 1], [0], [0, 1]]⟩ := rfl
  have hmember : (0, 2) ∈ Graph.vertcatMap [⟨2, #[[0], [0, 1]]⟩, ⟨2, #[[0], [0, 1]]⟩] := by decide
  obtain ⟨hcolumns, hnumbers⟩ := constructed_within_range (·.nnz ≤ maxIndex)
  obtain ⟨hsized, hfits⟩ := hcolumns _ htriangle
  obtain ⟨hindexable, hmaps⟩ := hnumbers fun _ hu => hu
  obtain ⟨hrange, hnumbered⟩ := hindexable _ htriangle
  obtain ⟨-, hmap⟩ := hmaps [⟨2, #[[0], [0, 1]]⟩, ⟨2, #[[0], [0, 1]]⟩] _ (by simpa using htriangle)
  exact ⟨htriangle, hsized, hfits 1 (by decide), hrange, hnumbered, hmember,
    hmap hstacked _ hmember⟩

theorem dense_eq
    {nrow ncol : Nat} (hnrow : nrow ≤ maxIndex) (hncol : ncol ≤ maxIndex)
    (hcount : nrow * ncol ≤ maxIndex) :
    dense nrow ncol = .ok ⟨ncol, Array.replicate nrow (List.range ncol)⟩ := by
  rw [dense, checkShape_eq_ok_iff.2 ⟨hnrow, hncol⟩, ok_bind, checkCount_eq_ok_iff.2 hcount]
  rfl

theorem empty_eq
    {nrow ncol : Nat} (hnrow : nrow ≤ maxIndex) (hncol : ncol ≤ maxIndex) :
    empty nrow ncol = .ok ⟨ncol, Array.replicate nrow []⟩ := by
  rw [empty, checkShape_eq_ok_iff.2 ⟨hnrow, hncol⟩]
  rfl

/-- Two patterns of one width are stacked if the result stays within the index range. -/
theorem vertcat_pair_eq
    {p q : Pattern} (hncol : q.ncol = p.ncol) (hrows : p.nrow + q.nrow ≤ maxIndex)
    (hcols : p.ncol ≤ maxIndex) (hcount : p.nnz + q.nnz ≤ maxIndex) :
    vertcat [p, q] = .ok ⟨p.ncol, p.rows ++ q.rows⟩ := by
  let both : Pattern := ⟨p.ncol, p.rows ++ q.rows⟩
  have hnnz : both.nnz = p.nnz + q.nnz := by simp [both, nnz, total_eq_sum]
  have hnrow : both.nrow = p.nrow + q.nrow := by simp [both, nrow]
  have hchecked : checked "Sparsity::vertcat" both = .ok both := by
    rw [checked_eq _ (hnrow.trans_le hrows) hcols, if_pos (hnnz.trans_le hcount)]
  have hshape : checkShape "Sparsity::vertcat" (total ([p, q].map nrow)) p.ncol = .ok () :=
    checkShape_eq_ok_iff.2 ⟨by simpa [total] using hrows, hcols⟩
  have hfind : [p, q].find? (fun part => part.ncol ≠ p.ncol) = none := by simp [hncol]
  have hflat : ([p, q].flatMap fun part => part.rows.toList).toArray = p.rows ++ q.rows := by simp
  rw [vertcat, List.head?_cons, Option.map_some, Option.getD_some, hflat]
  simp only [hfind]
  rw [hshape]
  exact hchecked

/-- An upper and a lower half, each within the index range, have a union of twice as many. -/
theorem exists_constructed_union_of_halves
    {h w : Nat} (hrows : h + h ≤ maxIndex) (hcols : w ≤ maxIndex) (hcount : h * w ≤ maxIndex) :
    ∃ u, Constructed (fun _ => True) u ∧ u.nnz = h * w + h * w := by
  have hdense := dense_eq (Nat.le_of_add_right_le hrows) hcols hcount
  have hempty := empty_eq (Nat.le_of_add_right_le hrows) hcols
  let full : Pattern := ⟨w, Array.replicate h (List.range w)⟩
  let bare : Pattern := ⟨w, Array.replicate h []⟩
  have hrows' : full.nrow + bare.nrow ≤ maxIndex := by simpa [full, bare, nrow] using hrows
  have hfull : full.nnz = h * w := by simp [full, nnz, total_eq_sum]
  have hbare : bare.nnz = 0 := by simp [bare, nnz, total_eq_sum]
  have hupper : vertcat [full, bare] = .ok ⟨w, full.rows ++ bare.rows⟩ :=
    vertcat_pair_eq rfl hrows' hcols (by omega)
  have hlower : vertcat [bare, full] = .ok ⟨w, bare.rows ++ full.rows⟩ :=
    vertcat_pair_eq rfl (by omega) hcols (by omega)
  have hmerge : mergeRows (List.range w) [] = List.range w := by
    cases List.range w <;> simp [mergeRows]
  have hunion : union ⟨w, full.rows ++ bare.rows⟩ ⟨w, bare.rows ++ full.rows⟩ =
      .ok ⟨w, Array.replicate (h + h) (List.range w)⟩ := by
    have hsame : checkSameShape "Sparsity::union" ⟨w, full.rows ++ bare.rows⟩
        ⟨w, bare.rows ++ full.rows⟩ = .ok () := by
      simp [checkSameShape, shape, nrow, full, bare]
    have hzip : (full.rows ++ bare.rows).zipWith mergeRows (bare.rows ++ full.rows) =
        Array.replicate (h + h) (List.range w) := by
      simp [full, bare, Array.zipWith_append, Array.zipWith_replicate, hmerge, mergeRows]
    rw [union, hsame, ok_bind, hzip]
    rfl
  have hparts : ∀ p ∈ [full, bare], Constructed (fun _ => True) p := by
    have hnil : ∀ p ∈ ([] : List Pattern), Constructed (fun _ => True) p := by simp
    simp only [List.forall_mem_cons]
    exact ⟨.make hnil (.dense hdense), .make hnil (.empty hempty), by simp⟩
  refine ⟨_, .union (.make hparts (.vertcat hupper)) (.make ?_ (.vertcat hlower)) hunion trivial,
    ?_⟩
  · exact fun p hp => hparts p (by simpa [or_comm] using hp)
  · simp [nnz, total_eq_sum, Nat.add_mul]

/--
The upper and the lower half of a square of order `2 ^ 16` are patterns like any other, and their
union is accepted. The word of its last nonzero number says that there is none.
-/
theorem constructed_beyond_range :
    ∃ p k, Constructed (fun _ => True) p ∧ maxIndex < p.nnz ∧ k < p.nnz ∧
      indexWord (some k) = indexWord none := by
  obtain ⟨u, hu, hnnz⟩ := exists_constructed_union_of_halves (h := 2 ^ 15) (w := 2 ^ 16)
    (by decide) (by decide) (by decide)
  refine ⟨u, UInt32.size - 1, hu, ?_, ?_, rfl⟩
  · rw [hnnz]
    decide
  · rw [hnnz]
    decide

end Pattern

end SparseDiff
