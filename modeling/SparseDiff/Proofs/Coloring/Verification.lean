import SparseDiff.Coloring.Verify
import SparseDiff.Proofs.Coloring.Greedy
import SparseDiff.Proofs.Run

/-!
# What the verification of colorings finds

Each half of a verification goes through the rows or the columns of a pattern with one table of
marks, which is never cleared. `Coloring.Used` says what the table knows in the middle of a line:
the colors used so far, apart from marks of earlier lines, and that no color was used twice. So a
half succeeds only if no color is used twice in any line, and an entry that it reports collides
(`Coloring.returns_checkRows`, `Coloring.returns_checkColumns`).
-/

namespace SparseDiff

namespace Coloring

/-- Every color in use is below the number of colors. -/
theorem lt_ncolors
    {c : Coloring} {v k : Nat} (h : c.colorOf v = some k) :
    k < c.ncolors := by
  have hmem : some k ∈ c.colors.toList := by
    have hget : c.colors[v]? = some (some k) := Option.join_eq_some_iff.1 h
    rw [← Array.getElem?_toList] at hget
    exact List.mem_of_getElem? hget
  have hge : ∀ (colors : List (Option Nat)) (n : Nat),
      n ≤ colors.foldl (fun n color => max n ((color.map (· + 1)).getD 0)) n := by
    intro colors
    induction colors with
    | nil => exact fun n => Nat.le_refl n
    | cons color colors ih => exact fun n => Nat.le_trans (Nat.le_max_left ..) (ih _)
  have hfold : ∀ (colors : List (Option Nat)) (n : Nat), some k ∈ colors →
      k < colors.foldl (fun n color => max n ((color.map (· + 1)).getD 0)) n := by
    intro colors
    induction colors with
    | nil => simp
    | cons color colors ih =>
        intro n hk
        rw [List.foldl_cons]
        rcases List.mem_cons.1 hk with rfl | hk
        · exact Nat.lt_of_lt_of_le (Nat.lt_succ_self k)
            (Nat.le_trans (Nat.le_max_right ..) (hge colors _))
        · exact ih _ hk
  exact hfold _ _ hmem

theorem color_eq
    {c : Coloring} {v : Nat} (hv : v < c.colors.size) :
    c.color v = .ok (c.colorOf v) := by
  simp [color, colorOf, hv]

/--
The marks in line `line` after its items `done`: those of this line are the colors of `done`, all
different, and the others are of earlier lines.
-/
structure Used (c : Coloring) (line : Nat) (done : List Nat) (marks : Marks) : Prop where
  size : marks.size = c.ncolors
  own : ∀ k : Nat, marks[k]? = some (some line) ↔ ∃ v ∈ done, c.colorOf v = some k
  stale : ∀ k l : Nat, marks[k]? = some (some l) → l ≤ line
  distinct : done.Pairwise fun a b => ∀ k, c.colorOf a = some k → c.colorOf b ≠ some k

variable {c : Coloring} {line : Nat} {done : List Nat} {marks : Marks}

/-- Before the first line nothing is marked. -/
theorem used_replicate
    (c : Coloring) :
    c.Used 0 [] (Array.replicate c.ncolors none) := by
  refine ⟨Array.size_replicate, fun k => ?_, fun k l hk => ?_, List.Pairwise.nil⟩
  · rw [Array.getElem?_replicate]
    split <;> simp
  · rw [Array.getElem?_replicate] at hk
    split at hk <;> cases hk

/-- At the end of a line all marks become stale. -/
theorem Used.next_line
    (h : c.Used line done marks) :
    c.Used (line + 1) [] marks := by
  refine ⟨h.size, fun k => ?_, fun k l hk => Nat.le_succ_of_le (h.stale k l hk),
    List.Pairwise.nil⟩
  constructor
  · intro hk
    have hle := h.stale k _ hk
    omega
  · rintro ⟨v, hv, -⟩
    cases hv

theorem Used.skip
    (h : c.Used line done marks) {v : Nat} (hv : c.colorOf v = none) :
    c.Used line (done ++ [v]) marks := by
  refine ⟨h.size, fun k => (h.own k).trans ?_, h.stale, ?_⟩
  · simp [hv]
  · exact List.pairwise_append.2 ⟨h.distinct, List.pairwise_singleton _ _, by simp [hv]⟩

/-- A color is refused exactly if an earlier item of the line has it. -/
theorem Used.returns_useColor
    (h : c.Used line done marks) {v k : Nat} (hv : c.colorOf v = some k) (op : String)
    (row col : Nat) :
    Returns (useColor op row col line k marks) (c.Used line (done ++ [v])) fun failure =>
      failure = .rejected (.collision op row col (some k)) ∧ ∃ u ∈ done, c.colorOf u = some k := by
  have hlt : k < marks.size := by
    rw [h.size]
    exact lt_ncolors hv
  unfold useColor
  rw [Array.getElem?_eq_getElem hlt]
  by_cases hlast : marks[k] = some line
  · simp only [hlast, if_true]
    exact ⟨rfl, (h.own k).1 (Array.getElem?_eq_some_iff.2 ⟨hlt, hlast⟩)⟩
  · simp only [hlast, if_false]
    have hnew : ∀ u ∈ done, c.colorOf u ≠ some k := by
      intro u hu huk
      exact hlast (Array.getElem?_eq_some_iff.1 ((h.own k).2 ⟨u, hu, huk⟩)).2
    have hget : ∀ k' : Nat, (marks.setIfInBounds k (some line))[k']? =
        if k' = k then some (some line) else marks[k']? := by
      intro k'
      split
      · next heq => rw [heq, Array.getElem?_setIfInBounds_self_of_lt hlt]
      · next hne => exact Array.getElem?_setIfInBounds_ne (Ne.symm hne)
    refine ⟨by rw [Array.size_setIfInBounds, h.size], fun k' => ?_, fun k' l hk' => ?_, ?_⟩
    · rw [hget]
      split
      · next heq => simp [heq, hv]
      · next hne =>
          rw [h.own]
          simp [hv, Ne.symm hne]
    · rw [hget] at hk'
      split at hk'
      · cases hk'
        exact Nat.le_refl line
      · exact h.stale k' l hk'
    · refine List.pairwise_append.2 ⟨h.distinct, List.pairwise_singleton _ _,
        fun u hu w hw k' hk' => ?_⟩
      rw [List.mem_singleton.1 hw, hv]
      rintro ⟨⟩
      exact hnew u hu hk'

theorem Used.eq_of_color
    (h : c.Used line done marks) {u v k : Nat} (hu : u ∈ done) (hv : v ∈ done)
    (huk : c.colorOf u = some k) (hvk : c.colorOf v = some k) :
    u = v := by
  have : Std.Symm fun a b => ∀ k, c.colorOf a = some k → c.colorOf b ≠ some k :=
    ⟨fun a b hab k hb ha => hab k ha hb⟩
  by_contra hne
  exact h.distinct.forall hu hv hne k huk hvk

/-- Nonzero `(r, col)` has no color, or shares its color with another nonzero of its row. -/
def CollidesInRow (c : Coloring) (p : Pattern) (r col : Nat) (k : Option Nat) : Prop :=
  col ∈ p.row r ∧ c.colorOf col = k ∧
    (k = none ∨ ∃ col' ∈ p.row r, col' ≠ col ∧ c.colorOf col' = k)

/-- Nonzero `(r, col)` has a color, which another row with a nonzero in this column has too. -/
def CollidesInColumn (c : Coloring) (p : Pattern) (r col : Nat) (k : Option Nat) : Prop :=
  col ∈ p.row r ∧ c.colorOf r = k ∧ k ≠ none ∧ ∃ r' ≠ r, col ∈ p.row r' ∧ c.colorOf r' = k

/-- The columns of row `r` are colored, and no two alike. -/
def SeparatesRow (c : Coloring) (p : Pattern) (r : Nat) : Prop :=
  (∀ col ∈ p.row r, (c.colorOf col).isSome) ∧
    (p.row r).Pairwise fun a b => c.colorOf a ≠ c.colorOf b

variable {p : Pattern}

/-- An earlier item of an increasing list is another item. -/
theorem ne_of_increasing
    {items rest : List Nat} {x y : Nat} (h : items.Pairwise (· < ·))
    (hitems : items = done ++ x :: rest) (hy : y ∈ done) :
    y ∈ items ∧ y ≠ x := by
  rw [hitems] at h
  have hlt := (List.pairwise_append.1 h).2.2 y hy x (List.mem_cons_self ..)
  exact ⟨hitems ▸ List.mem_append_left _ hy, Nat.ne_of_lt hlt⟩

/-- A row passes with colors of its own, or an entry of it is reported that collides. -/
theorem returns_row
    (hp : p.WellFormed) (hsize : c.colors.size = p.ncol) {r : Nat} (h : c.Used r [] marks)
    (op : String) :
    Returns ((p.row r).foldlM (checkEntry op c r) marks)
      (fun marks' => c.SeparatesRow p r ∧ c.Used (r + 1) [] marks') fun failure =>
        ∃ col k, failure = .rejected (.collision op r col k) ∧ c.CollidesInRow p r col k := by
  refine Returns.imp (Q := fun marks' => (∀ col ∈ p.row r, (c.colorOf col).isSome) ∧
    c.Used r (p.row r) marks') (returns_foldlM (I := fun done marks' =>
      (∀ col ∈ done, (c.colorOf col).isSome) ∧ c.Used r done marks') ?_ ⟨by simp, h⟩) ?_
    fun _ hfailure => hfailure
  · intro done col rest hrow marks' hdone
    obtain ⟨hcolored, hused⟩ := hdone
    have hcol : col ∈ p.row r := by simp [hrow]
    have hlt : col < c.colors.size := hsize.symm ▸ hp.lt_ncol hcol
    unfold checkEntry
    rw [color_eq hlt]
    cases hk : c.colorOf col with
    | none => exact ⟨col, none, rfl, hcol, hk, .inl rfl⟩
    | some k =>
        refine (hused.returns_useColor hk op r col).imp (fun _ hnext => ⟨?_, hnext⟩) ?_
        · exact List.forall_mem_append.2 ⟨hcolored, by simp [hk]⟩
        · rintro _ ⟨rfl, u, hu, huk⟩
          obtain ⟨hmem, hne⟩ := ne_of_increasing (hp.row_increasing r) hrow hu
          exact ⟨col, some k, rfl, hcol, hk, .inr ⟨u, hmem, hne, huk⟩⟩
  · rintro marks' ⟨hcolored, hused⟩
    refine ⟨⟨hcolored, hused.distinct.imp_of_mem fun {a b} ha _ hab heq => ?_⟩, hused.next_line⟩
    obtain ⟨k, hk⟩ := Option.isSome_iff_exists.1 (hcolored a ha)
    exact hab k hk (heq.symm.trans hk)

/-- The selected rows pass with colors of their own, or an entry is reported that collides. -/
theorem returns_checkRows
    (hp : p.WellFormed) (hsize : c.colors.size = p.ncol) {selected : Nat → Prop} (op : String)
    {test : Nat → Except Failure Bool}
    (htest : ∀ r < p.nrow, ∃ b, test r = .ok b ∧ (b = true ↔ selected r)) :
    Returns (checkRows op p c test) (fun _ => ∀ r < p.nrow, selected r → c.SeparatesRow p r)
      fun failure => ∃ r col k, failure = .rejected (.collision op r col k) ∧ selected r ∧
        c.CollidesInRow p r col k := by
  refine Returns.bind (Q := fun marks => (∀ r < p.nrow, selected r → c.SeparatesRow p r) ∧
    c.Used p.nrow [] marks) (returns_foldlM_range (I := fun n marks =>
      (∀ r < n, selected r → c.SeparatesRow p r) ∧ c.Used n [] marks) ?_
        ⟨by simp, used_replicate c⟩) fun _ h => h.1
  intro r hr marks h
  obtain ⟨hrows, hused⟩ := h
  obtain ⟨b, hb, hselected⟩ := htest r hr
  have hnext : (selected r → c.SeparatesRow p r) →
      ∀ r' < r + 1, selected r' → c.SeparatesRow p r' := by
    intro hrow r' hr'
    rcases Nat.lt_succ_iff_lt_or_eq.1 hr' with hlt | rfl
    · exact hrows r' hlt
    · exact hrow
  rw [hb]
  cases b with
  | false =>
      have hother : ¬ selected r := fun h => Bool.false_ne_true (hselected.2 h)
      exact ⟨hnext fun h => absurd h hother, hused.next_line⟩
  | true =>
      refine (returns_row hp hsize hused op).imp (fun _ h => ⟨hnext fun _ => h.1, h.2⟩) ?_
      rintro _ ⟨col, k, rfl, hcollides⟩
      exact ⟨r, col, k, rfl, hselected.1 rfl, hcollides⟩

/-- No two rows with a nonzero in column `col` have one color. -/
def SeparatesColumn (c : Coloring) (p : Pattern) (col : Nat) : Prop :=
  ∀ r r' k, col ∈ p.row r → col ∈ p.row r' → c.colorOf r = some k → c.colorOf r' = some k → r = r'

/-- A column passes with distinct colors, or an entry of it is reported that collides. -/
theorem returns_column
    (hp : p.WellFormed) (hsize : c.colors.size = p.nrow) {col : Nat} (h : c.Used col [] marks)
    (op : String) :
    Returns ((p.transpose.row col).foldlM (checkAdjointEntry op c col) marks)
      (fun marks' => c.SeparatesColumn p col ∧ c.Used (col + 1) [] marks') fun failure =>
        ∃ r k, failure = .rejected (.collision op r col k) ∧ c.CollidesInColumn p r col k := by
  refine Returns.imp (Q := c.Used col (p.transpose.row col))
    (returns_foldlM (I := c.Used col) ?_ h) ?_ fun _ hfailure => hfailure
  · intro done r rest hcolumn marks' hused
    have hr : col ∈ p.row r := (Pattern.mem_row_transpose_iff hp).1 (by simp [hcolumn])
    have hlt : r < c.colors.size := hsize.symm ▸ Pattern.lt_nrow_of_mem_row hr
    unfold checkAdjointEntry
    rw [color_eq hlt]
    cases hk : c.colorOf r with
    | none => exact hused.skip hk
    | some k =>
        refine (hused.returns_useColor hk op r col).imp (fun _ hnext => hnext) ?_
        rintro _ ⟨rfl, u, hu, huk⟩
        obtain ⟨hmem, hne⟩ := ne_of_increasing (hp.transpose.row_increasing col) hcolumn hu
        exact ⟨r, some k, rfl, hr, hk, Option.some_ne_none k, u, hne,
          (Pattern.mem_row_transpose_iff hp).1 hmem, huk⟩
  · intro marks' hused
    refine ⟨fun r r' k hr hr' hk hk' => ?_, hused.next_line⟩
    exact hused.eq_of_color ((Pattern.mem_row_transpose_iff hp).2 hr)
      ((Pattern.mem_row_transpose_iff hp).2 hr') hk hk'

/-- All columns pass with distinct colors, or an entry is reported that collides. -/
theorem returns_checkColumns
    (hp : p.WellFormed) (hsize : c.colors.size = p.nrow) (op : String) :
    Returns (checkColumns op p.transpose c) (fun _ => ∀ col < p.ncol, c.SeparatesColumn p col)
      fun failure => ∃ r col k, failure = .rejected (.collision op r col k) ∧
        c.CollidesInColumn p r col k := by
  unfold checkColumns
  rw [Pattern.nrow_transpose]
  refine Returns.bind (Q := fun marks => (∀ col < p.ncol, c.SeparatesColumn p col) ∧
    c.Used p.ncol [] marks) (returns_foldlM_range (I := fun n marks =>
      (∀ col < n, c.SeparatesColumn p col) ∧ c.Used n [] marks) ?_
        ⟨by simp, used_replicate c⟩) fun _ h => h.1
  intro col _ marks h
  obtain ⟨hcolumns, hused⟩ := h
  refine (returns_column hp hsize hused op).imp (fun _ h => ⟨fun col' hcol' => ?_, h.2⟩) ?_
  · rcases Nat.lt_succ_iff_lt_or_eq.1 hcol' with hlt | rfl
    · exact hcolumns col' hlt
    · exact h.1
  · rintro _ ⟨r, k, rfl, hcollides⟩
    exact ⟨r, col, k, rfl, hcollides⟩

/-- It is enough to separate the rows one by one. -/
theorem separates_of_rows
    (hsize : c.colors.size = p.ncol) {selected : Nat → Prop}
    (h : ∀ r < p.nrow, selected r → c.SeparatesRow p r) :
    c.Separates p selected := by
  refine ⟨hsize, fun r col hr hcol => ?_, fun r a b hr ha hb hne => ?_⟩
  · exact (h r (Pattern.lt_nrow_of_mem_row hcol) hr).1 col hcol
  · have : Std.Symm fun a b => c.colorOf a ≠ c.colorOf b := ⟨fun a b hab => hab.symm⟩
    exact (h r (Pattern.lt_nrow_of_mem_row ha) hr).2.forall ha hb hne

theorem Separates.row
    (hp : p.WellFormed) {selected : Nat → Prop} (h : c.Separates p selected) {r : Nat}
    (hr : selected r) :
    c.SeparatesRow p r :=
  ⟨fun col => h.isSome r col hr, (hp.row_increasing r).imp_of_mem fun {a b} ha hb hab =>
    h.ne r a b hr ha hb (Nat.ne_of_lt hab)⟩

theorem Separates.not_collides
    {selected : Nat → Prop} (h : c.Separates p selected) {r col : Nat} {k : Option Nat}
    (hr : selected r) :
    ¬ c.CollidesInRow p r col k := by
  rintro ⟨hcol, hk, hnone | ⟨col', hcol', hne, hk'⟩⟩
  · have hsome := h.isSome r col hr hcol
    rw [hk, hnone] at hsome
    cases hsome
  · exact h.ne r col' col hr hcol' hcol hne (hk'.trans hk.symm)

/-- The same if no row is left out. -/
theorem returns_checkAllRows
    (hp : p.WellFormed) (hsize : c.colors.size = p.ncol) (op : String) :
    Returns (checkRows op p c fun _ => .ok true) (fun _ => ∀ r < p.nrow, c.SeparatesRow p r)
      fun failure => ∃ r col k, failure = .rejected (.collision op r col k) ∧
        c.CollidesInRow p r col k := by
  have hall : Returns (checkRows op p c fun _ => .ok true)
      (fun _ => ∀ r < p.nrow, True → c.SeparatesRow p r)
      fun failure => ∃ r col k, failure = .rejected (.collision op r col k) ∧ True ∧
        c.CollidesInRow p r col k :=
    returns_checkRows hp hsize op fun _ _ => ⟨true, rfl, by simp⟩
  refine hall.imp (fun _ h r hr => h r hr trivial) ?_
  rintro failure ⟨r, col, k, heq, -, hcollides⟩
  exact ⟨r, col, k, heq, hcollides⟩

/-- The check of all rows succeeds exactly if the coloring separates the columns of every row. -/
theorem checkRows_eq_ok_iff
    (hp : p.WellFormed) (hsize : c.colors.size = p.ncol) (op : String) :
    checkRows op p c (fun _ => .ok true) = .ok () ↔ ∀ r < p.nrow, c.SeparatesRow p r := by
  refine (returns_checkAllRows hp hsize op).eq_ok_iff ?_
  rintro _ ⟨r, col, k, -, hcollides⟩ hrows
  have hseparates : c.Separates p fun _ => True := separates_of_rows hsize fun r hr _ => hrows r hr
  exact hseparates.not_collides trivial hcollides

end Coloring

theorem verifySymmetric_eq_ok
    {p : Pattern} (hp : p.WellFormed) {c : Coloring} (h : c.Separates p fun _ => True) :
    verifySymmetric p c = .ok () :=
  (Coloring.checkRows_eq_ok_iff hp h.size _).2 fun _ _ => h.row hp trivial

namespace Partition

/-- Every entry of the pattern can be read from a sum of columns or from a sum of rows. -/
structure Recoverable (parts : Partition) (p : Pattern) : Prop where
  forward : parts.forward.Separates p fun r => parts.adjoint.colorOf r = none
  adjoint_size : parts.adjoint.colors.size = p.nrow
  adjoint_ne : ∀ r r' c k, c ∈ p.row r → c ∈ p.row r' → parts.adjoint.colorOf r = some k →
    parts.adjoint.colorOf r' = some k → r = r'

/-- Nonzero `(r, c)` collides in the half that its row is left to; the color there is `k`. -/
def Collides (parts : Partition) (p : Pattern) (r c : Nat) (k : Option Nat) : Prop :=
  parts.adjoint.colorOf r = none ∧ parts.forward.CollidesInRow p r c k ∨
    parts.adjoint.CollidesInColumn p r c k

variable {p : Pattern} {parts : Partition}

theorem Recoverable.not_collides
    (h : parts.Recoverable p) {r c : Nat} {k : Option Nat} :
    ¬ parts.Collides p r c k := by
  rintro (⟨hr, hcollides⟩ | ⟨hc, hk, hsome, r', hne, hc', hk'⟩)
  · exact h.forward.not_collides hr hcollides
  · obtain ⟨color, rfl⟩ := Option.ne_none_iff_exists'.1 hsome
    exact hne (h.adjoint_ne r' r c color hc' hc hk' hk)

/-- A partition passes if all entries can be recovered, or an entry is reported that collides. -/
theorem returns_verifyPartition
    (hp : p.WellFormed) (hforward : parts.forward.colors.size = p.ncol)
    (hadjoint : parts.adjoint.colors.size = p.nrow) :
    Returns (verifyPartition p parts) (fun _ => parts.Recoverable p) fun failure =>
      ∃ r c k, failure = .rejected (.collision "verify_partition" r c k) ∧
        parts.Collides p r c k := by
  have htest : ∀ r < p.nrow, ∃ b,
      (do return !(← parts.isAdjointRow r) : Except Failure Bool) = .ok b ∧
        (b = true ↔ parts.adjoint.colorOf r = none) := by
    intro r hr
    refine ⟨!(parts.adjoint.colorOf r).isSome, ?_, by simp⟩
    rw [isAdjointRow, Coloring.color_eq (hadjoint.symm ▸ hr)]
    rfl
  refine Returns.bind ((Coloring.returns_checkRows hp hforward "verify_partition" htest).imp
    (fun _ h => Coloring.separates_of_rows hforward h) ?_) fun _ hrows =>
      (Coloring.returns_checkColumns hp hadjoint "verify_partition").imp (fun _ hcolumns => ?_) ?_
  · rintro _ ⟨r, c, k, rfl, hr, hcollides⟩
    exact ⟨r, c, k, rfl, .inl ⟨hr, hcollides⟩⟩
  · exact ⟨hrows, hadjoint, fun r r' c k hc => hcolumns c (hp.lt_ncol hc) r r' k hc⟩
  · rintro _ ⟨r, c, k, rfl, hcollides⟩
    exact ⟨r, c, k, rfl, .inr hcollides⟩

/-- The verification succeeds exactly if every entry can be recovered. -/
theorem verifyPartition_eq_ok_iff
    (hp : p.WellFormed) (hforward : parts.forward.colors.size = p.ncol)
    (hadjoint : parts.adjoint.colors.size = p.nrow) :
    verifyPartition p parts = .ok () ↔ parts.Recoverable p := by
  refine (returns_verifyPartition hp hforward hadjoint).eq_ok_iff ?_
  rintro _ ⟨r, c, k, -, hcollides⟩ hrecoverable
  exact hrecoverable.not_collides hcollides

end Partition

end SparseDiff
