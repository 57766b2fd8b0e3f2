import SparseDiff.Sweep.Memory
import Mathlib.Data.List.Forall2

/-!
# Computations that may fail

What it means that a computation gives a result: for `Except`, that a list of checks gives
its results one by one; for a `Run`, that from memory `m` it returns `a` and leaves `m'`.
The statement `Gives x m a m'` speaks of success, so it serves both to prove that a run
succeeds and to take a successful run apart.
-/

namespace SparseDiff

section Results

variable {ε α β : Type}

/-- A sequence succeeds if its first step does, and then the rest with its result. -/
theorem bind_eq_ok_iff
    {x : Except ε α} {f : α → Except ε β} {b : β} :
    (x >>= f) = .ok b ↔ ∃ a, x = .ok a ∧ f a = .ok b := by
  cases x with
  | error e => simp [bind, Except.bind]
  | ok a => simp [bind, Except.bind]

theorem ok_bind
    (a : α) (f : α → Except ε β) :
    (Except.ok a >>= f) = f a := rfl

theorem check_bind_eq_ok_iff
    {x : Except ε Unit} {f : Unit → Except ε α} {a : α} :
    (x >>= f) = .ok a ↔ x = .ok () ∧ f () = .ok a :=
  bind_eq_ok_iff.trans Unique.exists_iff

/-- A guarded refusal is passed where the guard does not hold. -/
theorem ite_throw_eq_ok_iff
    {c : Prop} [Decidable c] {e : ε} {f : β → Except ε α} {x : Except ε α} {a : α} :
    (if c then throw e >>= f else x) = .ok a ↔ ¬ c ∧ x = .ok a := by
  split
  · next h => simp [h, bind, Except.bind, throw, throwThe, MonadExceptOf.throw]
  · next h => simp [h]

theorem exists_eq_ok_of_isOk
    {x : Except ε α} (h : x.isOk = true) :
    ∃ a, x = .ok a := by
  cases x with
  | error e => cases h
  | ok a => exact ⟨a, rfl⟩

theorem map_eq_ok_iff
    {x : Except ε α} {f : α → β} {b : β} :
    x.map f = .ok b ↔ ∃ a, x = .ok a ∧ f a = b := by
  cases x with
  | error e => simp [Except.map]
  | ok a => simp [Except.map]

theorem orReject_eq_ok_iff
    {x : Except Error α} {a : α} :
    orReject x = .ok a ↔ x = .ok a := by
  cases x with
  | error e => simp [orReject, Except.mapError]
  | ok b => simp [orReject, Except.mapError]

/-- Items at one position of two related lists are related. -/
theorem getElem?_of_forall₂
    {R : α → β → Prop} {xs : List α} {ys : List β} (h : List.Forall₂ R xs ys)
    {i : Nat} {y : β} (hy : ys[i]? = some y) :
    ∃ x, xs[i]? = some x ∧ R x y := by
  obtain ⟨hlt, rfl⟩ := List.getElem?_eq_some_iff.1 hy
  have hlt' : i < xs.length := by
    rw [h.length_eq]
    exact hlt
  have hget := (List.forall₂_iff_get.1 h).2 i hlt' hlt
  exact ⟨xs[i], List.getElem?_eq_getElem hlt', by simpa using hget⟩

/-- The same from the left. -/
theorem getElem?_of_forall₂_left
    {R : α → β → Prop} {xs : List α} {ys : List β} (h : List.Forall₂ R xs ys)
    {i : Nat} {x : α} (hx : xs[i]? = some x) :
    ∃ y, ys[i]? = some y ∧ R x y :=
  getElem?_of_forall₂ (R := fun y x => R x y) (List.Forall₂.flip h) hx

/-- A list of computations gives its results one by one. -/
theorem mapM_eq_ok_iff
    {f : α → Except ε β} :
    ∀ {xs : List α} {ys : List β},
      xs.mapM f = .ok ys ↔ List.Forall₂ (fun x y => f x = .ok y) xs ys
  | [], ys => by
      cases ys with
      | nil => simp [pure, Except.pure]
      | cons y ys => simp [pure, Except.pure]
  | x :: xs, ys => by
      rw [List.mapM_cons, bind_eq_ok_iff]
      constructor
      · rintro ⟨y, hy, h⟩
        obtain ⟨zs, hzs, heq⟩ := bind_eq_ok_iff.1 h
        cases heq
        exact List.Forall₂.cons hy (mapM_eq_ok_iff.1 hzs)
      · intro h
        cases h with
        | @cons _ y _ zs hy hzs =>
            exact ⟨y, hy, bind_eq_ok_iff.2 ⟨zs, mapM_eq_ok_iff.2 hzs, rfl⟩⟩

/-- As many results as computations. -/
theorem length_of_mapM
    {f : α → Except ε β} {xs : List α} {ys : List β}
    (h : xs.mapM f = .ok ys) :
    ys.length = xs.length :=
  (mapM_eq_ok_iff.1 h).length_eq.symm

/-- The result at a position is the result of the item there. -/
theorem getElem?_of_mapM
    {f : α → Except ε β} {xs : List α} {ys : List β}
    (h : xs.mapM f = .ok ys)
    {i : Nat} {x : α}
    (hx : xs[i]? = some x) :
    ∃ y, ys[i]? = some y ∧ f x = .ok y := by
  obtain ⟨hlt, rfl⟩ := List.getElem?_eq_some_iff.1 hx
  have hlt' : i < ys.length := by
    rw [length_of_mapM h]
    exact hlt
  refine ⟨ys[i], List.getElem?_eq_getElem hlt', ?_⟩
  have hget := (List.forall₂_iff_get.1 (mapM_eq_ok_iff.1 h)).2 i hlt hlt'
  simpa using hget

/-- What holds of the results that the computations can give holds of all that they give. -/
theorem forall_mem_of_mapM
    {f : α → Except ε β} {P : β → Prop} {xs : List α} {ys : List β}
    (h : xs.mapM f = .ok ys) (hf : ∀ x ∈ xs, ∀ y, f x = .ok y → P y) :
    ∀ y ∈ ys, P y := by
  intro y hy
  obtain ⟨i, hi⟩ := List.mem_iff_getElem?.1 hy
  obtain ⟨x, hx, hok⟩ := getElem?_of_forall₂ (mapM_eq_ok_iff.1 h) hi
  exact hf x (List.mem_of_getElem? hx) y hok

/-- Computations that all succeed give the list of their results. -/
theorem mapM_eq_ok_map
    {f : α → Except ε β} {g : α → β} {xs : List α}
    (h : ∀ x ∈ xs, f x = .ok (g x)) :
    xs.mapM f = .ok (xs.map g) := by
  rw [mapM_eq_ok_iff, List.forall₂_map_right_iff, List.forall₂_same]
  exact h

/-- Computations that all succeed give some list of results. -/
theorem exists_mapM_eq_ok
    {f : α → Except ε β} {xs : List α} (h : ∀ x ∈ xs, ∃ y, f x = .ok y) :
    ∃ ys, xs.mapM f = .ok ys := by
  induction xs with
  | nil => exact ⟨[], rfl⟩
  | cons x xs ih =>
      obtain ⟨y, hy⟩ := h x (List.mem_cons_self ..)
      obtain ⟨ys, hys⟩ := ih fun x' hx' => h x' (List.mem_cons_of_mem _ hx')
      exact ⟨y :: ys, mapM_eq_ok_iff.2 (List.Forall₂.cons hy (mapM_eq_ok_iff.1 hys))⟩

/-- A fold whose steps all succeed, as long as its state has a property, is a plain fold. -/
theorem foldlM_eq_ok_foldl
    {f : β → α → Except ε β} {g : β → α → β} {I : β → Prop} {xs : List α}
    (hstep : ∀ x ∈ xs, ∀ b, I b → f b x = .ok (g b x) ∧ I (g b x)) {b : β} (h : I b) :
    xs.foldlM f b = .ok (xs.foldl g b) := by
  induction xs generalizing b with
  | nil => rfl
  | cons x xs ih =>
      obtain ⟨hx, hnext⟩ := hstep x (List.mem_cons_self ..) b h
      rw [List.foldlM_cons, hx, List.foldl_cons]
      exact ih (fun y hy => hstep y (List.mem_cons_of_mem _ hy)) hnext

/-- Checks that all succeed succeed together. -/
theorem forM_eq_ok
    {f : α → Except ε Unit} {xs : List α} (h : ∀ x ∈ xs, f x = .ok ()) :
    xs.forM f = .ok () := by
  induction xs with
  | nil => rfl
  | cons x xs ih =>
      have hrest := ih fun y hy => h y (List.mem_cons_of_mem _ hy)
      simp only [List.forM, h x (List.mem_cons_self ..), bind, Except.bind]
      exact hrest

/-- Checks that succeed together succeed one by one. -/
theorem eq_ok_of_forM
    {f : α → Except ε Unit} {xs : List α} (h : xs.forM f = .ok ()) :
    ∀ x ∈ xs, f x = .ok () := by
  induction xs with
  | nil => exact fun x hx => absurd hx List.not_mem_nil
  | cons x xs ih =>
      obtain ⟨_, hx, hrest⟩ := bind_eq_ok_iff.1 h
      exact List.forall_mem_cons.2 ⟨hx, ih hrest⟩

/-- Items that are all found, one by one, are found together. -/
theorem mapM_eq_some_of_getElem?
    {f : α → Option β} {xs : List α} {ys : List β} (hlength : xs.length = ys.length)
    (h : ∀ (i : Nat) (x : α), xs[i]? = some x → ∃ y, ys[i]? = some y ∧ f x = some y) :
    xs.mapM f = some ys := by
  induction xs generalizing ys with
  | nil =>
      have hnil : ys = [] := List.length_eq_zero_iff.1 hlength.symm
      rw [hnil]
      rfl
  | cons x xs ih =>
      cases ys with
      | nil => simp at hlength
      | cons y ys =>
          obtain ⟨y', hy', hx⟩ := h 0 x rfl
          cases hy'
          have hrest : xs.mapM f = some ys := ih (by simpa using hlength) fun i => h (i + 1)
          rw [List.mapM_cons, hx, hrest]
          rfl

/-- Items that are found together are found one by one. -/
theorem getElem?_of_mapM_eq_some
    {f : α → Option β} {xs : List α} {ys : List β} (h : xs.mapM f = some ys) :
    xs.length = ys.length ∧
      ∀ (i : Nat) (x : α), xs[i]? = some x → ∃ y, ys[i]? = some y ∧ f x = some y := by
  induction xs generalizing ys with
  | nil =>
      cases h
      exact ⟨rfl, fun i x hx => by cases hx⟩
  | cons x xs ih =>
      rw [List.mapM_cons] at h
      obtain ⟨y, hy, h⟩ := Option.bind_eq_some_iff.1 h
      obtain ⟨rest, hrest, heq⟩ := Option.bind_eq_some_iff.1 h
      cases heq
      obtain ⟨hlength, hitems⟩ := ih hrest
      refine ⟨congrArg (· + 1) hlength, fun i x' hx' => ?_⟩
      cases i with
      | zero =>
          cases hx'
          exact ⟨y, rfl, hy⟩
      | succ i => exact hitems i x' hx'

/-- If the computation fails, then as `E` says. -/
structure FailsAs (E : ε → Prop) (x : Except ε α) : Prop where
  of_error : ∀ e, x = .error e → E e

variable {E E' : ε → Prop}

theorem FailsAs.imp
    {x : Except ε α} (h : FailsAs E x) (himp : ∀ e, E e → E' e) :
    FailsAs E' x :=
  ⟨fun e he => himp e (h.of_error e he)⟩

theorem failsAs_ok
    (a : α) :
    FailsAs E (.ok a : Except ε α) := by
  refine ⟨fun e h => ?_⟩
  cases h

theorem failsAs_error
    {e : ε} (h : E e) :
    FailsAs E (.error e : Except ε α) := by
  refine ⟨fun e' h' => ?_⟩
  cases h'
  exact h

theorem FailsAs.bind
    {x : Except ε α} {f : α → Except ε β} (hx : FailsAs E x)
    (hf : ∀ a, x = .ok a → FailsAs E (f a)) :
    FailsAs E (x >>= f) := by
  cases x with
  | ok a => exact hf a rfl
  | error e => exact failsAs_error (hx.of_error e rfl)

theorem failsAs_forM
    {f : α → Except ε Unit} {xs : List α} (hf : ∀ x ∈ xs, FailsAs E (f x)) :
    FailsAs E (xs.forM f) := by
  induction xs with
  | nil => exact failsAs_ok ()
  | cons x xs ih =>
      exact (hf x (List.mem_cons_self ..)).bind fun _ _ =>
        ih fun y hy => hf y (List.mem_cons_of_mem _ hy)

theorem failsAs_mapM
    {f : α → Except ε β} {xs : List α} (hf : ∀ x ∈ xs, FailsAs E (f x)) :
    FailsAs E (xs.mapM f) := by
  induction xs with
  | nil => exact failsAs_ok []
  | cons x xs ih =>
      rw [List.mapM_cons]
      refine (hf x (List.mem_cons_self ..)).bind fun _ _ => FailsAs.bind ?_ fun _ _ => failsAs_ok _
      exact ih fun y hy => hf y (List.mem_cons_of_mem _ hy)

/-- The computation returns what `Q` describes, or it fails as `E` says. -/
def Returns (x : Except ε α) (Q : α → Prop) (E : ε → Prop) : Prop :=
  match x with
  | .ok a => Q a
  | .error e => E e

theorem Returns.imp
    {x : Except ε α} {Q Q' : α → Prop} (h : Returns x Q E) (hresult : ∀ a, Q a → Q' a)
    (herror : ∀ e, E e → E' e) :
    Returns x Q' E' := by
  cases x with
  | ok a => exact hresult a h
  | error e => exact herror e h

theorem Returns.bind
    {x : Except ε α} {f : α → Except ε β} {Q : α → Prop} {Q' : β → Prop} (hx : Returns x Q E)
    (hf : ∀ a, Q a → Returns (f a) Q' E) :
    Returns (x >>= f) Q' E := by
  cases x with
  | ok a => exact hf a hx
  | error e => exact hx

theorem Returns.of_error
    {x : Except ε α} {Q : α → Prop} (h : Returns x Q E) {e : ε} (hx : x = .error e) :
    E e := by
  rw [hx] at h
  exact h

/-- A check that fails only where `P` does not hold succeeds exactly where it holds. -/
theorem Returns.eq_ok_iff
    {x : Except ε Unit} {P : Prop} (h : Returns x (fun _ => P) E) (hfails : ∀ e, E e → ¬ P) :
    x = .ok () ↔ P := by
  cases x with
  | ok => exact ⟨fun _ => h, fun _ => rfl⟩
  | error e => exact ⟨fun hok => (nomatch hok), fun hP => absurd hP (hfails e h)⟩

/-- A fold returns if each step does; the invariant speaks of the items that are done. -/
theorem returns_foldlM
    {f : β → α → Except ε β} {I : List α → β → Prop} {xs : List α}
    (hstep : ∀ done x rest, xs = done ++ x :: rest → ∀ b, I done b →
      Returns (f b x) (I (done ++ [x])) E) {b : β} (h : I [] b) :
    Returns (xs.foldlM f b) (I xs) E := by
  have hrun : ∀ rest done, xs = done ++ rest → ∀ b, I done b →
      Returns (rest.foldlM f b) (I xs) E := by
    intro rest
    induction rest with
    | nil =>
        intro done hxs b hb
        rw [List.append_nil] at hxs
        rw [hxs]
        exact hb
    | cons x rest ih =>
        intro done hxs b hb
        rw [List.foldlM_cons]
        exact (hstep done x rest hxs b hb).bind fun b' hb' => ih (done ++ [x]) (by simpa) b' hb'
  exact hrun xs [] rfl b h

/-- The same for a fold over the numbers below `n`. -/
theorem returns_foldlM_range
    {f : β → Nat → Except ε β} {I : Nat → β → Prop} {n : Nat}
    (hstep : ∀ i < n, ∀ b, I i b → Returns (f b i) (I (i + 1)) E) {b : β} (h : I 0 b) :
    Returns ((List.range n).foldlM f b) (I n) E := by
  induction n with
  | zero => exact h
  | succ n ih =>
      rw [List.range_succ, List.foldlM_append]
      refine (ih fun i hi => hstep i (Nat.lt_succ_of_lt hi)).bind fun b' hb' => ?_
      rw [List.foldlM_cons]
      exact (hstep n (Nat.lt_succ_self n) b' hb').bind fun _ h => h

end Results

namespace Run

variable {F α β : Type}

/-- From memory `m` the computation returns `a` and leaves the memory `m'`. -/
def Gives
    (x : Run F α) (m : Memory F) (a : α) (m' : Memory F) : Prop :=
  x.run.run m = (.ok a, m')

/-- A computation gives at most one result. -/
theorem Gives.unique
    {x : Run F α} {m m₁ m₂ : Memory F} {a b : α}
    (h₁ : Gives x m a m₁) (h₂ : Gives x m b m₂) :
    a = b ∧ m₁ = m₂ := by
  unfold Gives at h₁ h₂
  rw [h₁] at h₂
  cases h₂
  exact ⟨rfl, rfl⟩

/-- On a memory that is dropped, only the result is left. -/
theorem alone_eq_ok_iff
    {x : Run F α} {m : Memory F} {a : α} :
    x.alone m = .ok a ↔ ∃ m', Gives x m a m' := by
  constructor
  · intro h
    exact ⟨(x.run.run m).2, Prod.ext h rfl⟩
  · rintro ⟨m', h⟩
    exact congrArg Prod.fst h

@[simp] theorem gives_pure
    {a b : α} {m m' : Memory F} :
    Gives (pure a : Run F α) m b m' ↔ a = b ∧ m' = m := by
  constructor
  · intro h
    cases h
    exact ⟨rfl, rfl⟩
  · rintro ⟨rfl, rfl⟩
    rfl

/-- A sequence goes on from where its first step returns, and stops where it fails. -/
theorem run_bind
    {x : Run F α} {f : α → Run F β} {m : Memory F} :
    (x >>= f).run.run m =
      match x.run.run m with
      | (.ok a, m') => (f a).run.run m'
      | (.error e, m') => (.error e, m') := by
  simp only [bind, ExceptT.bind, ExceptT.run, ExceptT.mk, StateT.bind, StateT.run]
  cases x m with
  | mk r m' => cases r <;> rfl

@[simp] theorem gives_bind
    {x : Run F α} {f : α → Run F β} {m m'' : Memory F} {b : β} :
    Gives (x >>= f) m b m'' ↔ ∃ a m', Gives x m a m' ∧ Gives (f a) m' b m'' := by
  unfold Gives
  rw [run_bind]
  cases h : x.run.run m with
  | mk r m' =>
      cases r with
      | error e =>
          constructor
          · intro h'
            cases h'
          · rintro ⟨a, m₁, h₁, _⟩
            cases h₁
      | ok a =>
          constructor
          · intro h'
            exact ⟨a, m', rfl, h'⟩
          · rintro ⟨a', m₁, h₁, h₂⟩
            cases h₁
            exact h₂

/-- A last step that only reshapes the result. -/
theorem alone_map_eq_ok_iff
    {x : Run F α} {g : α → β} {m : Memory F} {b : β} :
    (do return g (← x) : Run F β).alone m = .ok b ↔ ∃ a, x.alone m = .ok a ∧ b = g a := by
  simp only [alone_eq_ok_iff, gives_bind, gives_pure]
  constructor
  · rintro ⟨m', a, m'', hx, rfl, rfl⟩
    exact ⟨a, ⟨m', hx⟩, rfl⟩
  · rintro ⟨a, ⟨m', hx⟩, rfl⟩
    exact ⟨m', a, m', hx, rfl, rfl⟩

@[simp] theorem gives_get
    {m m' a : Memory F} :
    Gives (get : Run F (Memory F)) m a m' ↔ a = m ∧ m' = m := by
  constructor
  · intro h
    cases h
    exact ⟨rfl, rfl⟩
  · rintro ⟨rfl, rfl⟩
    rfl

/-- A computation that looks at the memory first. -/
theorem gives_get_bind
    {f : Memory F → Run F β} {m m' : Memory F} {b : β} :
    Gives (get >>= f) m b m' ↔ Gives (f m) m b m' := by
  simp [and_assoc]

@[simp] theorem gives_modify
    {f : Memory F → Memory F} {m m' : Memory F} {u : Unit} :
    Gives (modify f : Run F Unit) m u m' ↔ m' = f m := by
  constructor
  · intro h
    cases h
    rfl
  · rintro rfl
    rfl

@[simp] theorem gives_throw
    {e : Failure} {m m' : Memory F} {a : α} :
    ¬ Gives (throw e : Run F α) m a m' := by
  intro h
  cases h

@[simp] theorem gives_reject
    {e : Error} {m m' : Memory F} {a : α} :
    ¬ Gives (reject e : Run F α) m a m' :=
  gives_throw

@[simp] theorem gives_ofExcept
    {e : Except Failure α} {m m' : Memory F} {a : α} :
    Gives (ofExcept e : Run F α) m a m' ↔ e = .ok a ∧ m' = m := by
  cases e with
  | ok b => simp [ofExcept]
  | error e => simp [ofExcept]

@[simp] theorem gives_check
    {e : Except Error α} {m m' : Memory F} {a : α} :
    Gives (check e : Run F α) m a m' ↔ e = .ok a ∧ m' = m := by
  cases e with
  | ok b => simp [check, orReject, Except.mapError]
  | error e => simp [check, orReject, Except.mapError]

@[simp] theorem gives_requireSlots
    {slots : List Nat} {m m' : Memory F} {u : Unit} :
    Gives (requireSlots slots : Run F Unit) m u m' ↔
      (∀ s ∈ slots, s < m.values.size) ∧ m' = m := by
  have hget : Gives (requireSlots slots : Run F Unit) m u m' ↔
      Gives (if slots.all (· < m.values.size) then pure () else throw .outOfBounds :
        Run F Unit) m u m' := by
    simp [requireSlots]
  rw [hget]
  split
  · next h =>
      have hall : ∀ s ∈ slots, s < m.values.size := by
        simpa using h
      rw [gives_pure]
      exact ⟨fun h' => ⟨hall, h'.2⟩, fun h' => ⟨rfl, h'.2⟩⟩
  · next h =>
      have hall : ¬ ∀ s ∈ slots, s < m.values.size := by
        simpa using h
      exact ⟨fun h' => absurd h' gives_throw, fun h' => absurd h'.1 hall⟩

@[simp] theorem gives_forM_nil
    {f : α → Run F Unit} {m m' : Memory F} {u : Unit} :
    Gives (([] : List α).forM f) m u m' ↔ m' = m := by
  simp

@[simp] theorem gives_forM_cons
    {f : α → Run F Unit} {x : α} {xs : List α} {m m'' : Memory F} {u : Unit} :
    Gives ((x :: xs).forM f) m u m'' ↔
      ∃ m', Gives (f x) m () m' ∧ Gives (xs.forM f) m' () m'' := by
  have hcons : (x :: xs).forM f = (do f x; xs.forM f) := rfl
  rw [hcons, gives_bind]
  constructor
  · rintro ⟨_, m', hx, hxs⟩
    exact ⟨m', hx, hxs⟩
  · rintro ⟨m', hx, hxs⟩
    exact ⟨(), m', hx, hxs⟩

/--
A loop whose steps succeed as long as an invariant holds: `I` speaks of the items still to
come and of the memory.
-/
theorem gives_forM
    {f : α → Run F Unit} {g : Memory F → α → Memory F}
    {I : List α → Memory F → Prop}
    (hstep : ∀ x xs m, I (x :: xs) m → Gives (f x) m () (g m x) ∧ I xs (g m x)) :
    ∀ (xs : List α) (m : Memory F), I xs m →
      Gives (xs.forM f) m () (xs.foldl g m) ∧ I [] (xs.foldl g m)
  | [], m, h => by simpa using h
  | x :: xs, m, h => by
      obtain ⟨hx, hI⟩ := hstep x xs m h
      obtain ⟨hxs, hI'⟩ := gives_forM hstep xs (g m x) hI
      exact ⟨gives_forM_cons.2 ⟨_, hx, hxs⟩, hI'⟩

/-- The same where only a property of the memory is known, not the memory. -/
theorem exists_gives_forM
    {f : α → Run F Unit} {I : List α → Memory F → Prop}
    (hstep : ∀ x xs m, I (x :: xs) m → ∃ m', Gives (f x) m () m' ∧ I xs m') :
    ∀ (xs : List α) (m : Memory F), I xs m → ∃ m', Gives (xs.forM f) m () m' ∧ I [] m'
  | [], m, h => ⟨m, gives_forM_nil.2 rfl, h⟩
  | x :: xs, m, h => by
      obtain ⟨m₁, hx, hI⟩ := hstep x xs m h
      obtain ⟨m₂, hxs, hI'⟩ := exists_gives_forM hstep xs m₁ hI
      exact ⟨m₂, gives_forM_cons.2 ⟨m₁, hx, hxs⟩, hI'⟩

/-- A loop that succeeds has done its steps one after the other. -/
theorem eq_foldl_of_gives_forM
    {f : α → Run F Unit} {g : Memory F → α → Memory F}
    (hstep : ∀ x m m', Gives (f x) m () m' → m' = g m x)
    {xs : List α} {m m' : Memory F} (h : Gives (xs.forM f) m () m') :
    m' = xs.foldl g m := by
  induction xs generalizing m with
  | nil => exact gives_forM_nil.1 h
  | cons x xs ih =>
      obtain ⟨m₁, hx, hxs⟩ := gives_forM_cons.1 h
      rw [hstep x m m₁ hx] at hxs
      exact ih hxs

/-- A loop that succeeds, with other steps that do the same where the loop arrives. -/
theorem gives_forM_map
    {f : α → Run F Unit} {g : α → α} {I : List α → Memory F → Prop}
    (hstep : ∀ x xs m m', I (x :: xs) m → Gives (f x) m () m' → Gives (f (g x)) m () m' ∧ I xs m')
    {xs : List α} {m m' : Memory F} (hI : I xs m) (h : Gives (xs.forM f) m () m') :
    Gives ((xs.map g).forM f) m () m' := by
  induction xs generalizing m with
  | nil => exact h
  | cons x xs ih =>
      obtain ⟨m₁, hx, hxs⟩ := gives_forM_cons.1 h
      obtain ⟨hx', hI'⟩ := hstep x xs m m₁ hI hx
      exact gives_forM_cons.2 ⟨m₁, hx', ih hI' hxs⟩

/-- A loop that collects results; the invariant speaks of the items still to come. -/
theorem gives_mapM
    {f : α → Run F β} {g : α → β} {I : List α → Memory F → Prop}
    (hstep : ∀ x xs m, I (x :: xs) m → ∃ m', Gives (f x) m (g x) m' ∧ I xs m') :
    ∀ (xs : List α) (m : Memory F), I xs m →
      ∃ m', Gives (xs.mapM f) m (xs.map g) m' ∧ I [] m'
  | [], m, h => ⟨m, by simp, h⟩
  | x :: xs, m, h => by
      obtain ⟨m₁, hx, hI⟩ := hstep x xs m h
      obtain ⟨m₂, hxs, hI'⟩ := gives_mapM hstep xs m₁ hI
      refine ⟨m₂, ?_, hI'⟩
      rw [List.mapM_cons]
      simp only [gives_bind, gives_pure, List.map_cons]
      exact ⟨g x, m₁, hx, xs.map g, m₂, hxs, rfl, rfl⟩

/-- A loop that carries a value; the invariant speaks of the memory only. -/
theorem gives_foldlM
    {f : β → α → Run F β} {g : β → α → β} {I : Memory F → Prop}
    {xs : List α}
    (hstep : ∀ x ∈ xs, ∀ b m, I m → ∃ m', Gives (f b x) m (g b x) m' ∧ I m') :
    ∀ (b : β) (m : Memory F), I m →
      ∃ m', Gives (xs.foldlM f b) m (xs.foldl g b) m' ∧ I m' := by
  induction xs with
  | nil =>
      intro b m h
      exact ⟨m, by simp, h⟩
  | cons x xs ih =>
      intro b m h
      obtain ⟨m₁, hx, hI⟩ := hstep x (by simp) b m h
      obtain ⟨m₂, hxs, hI'⟩ :=
        ih (fun y hy => hstep y (List.mem_cons_of_mem _ hy)) (g b x) m₁ hI
      refine ⟨m₂, ?_, hI'⟩
      rw [List.foldlM_cons]
      exact gives_bind.2 ⟨g b x, m₁, hx, hxs⟩

/-- A loop whose steps give back the value that they are given. -/
theorem eq_of_gives_foldlM
    {f : β → α → Run F β} {xs : List α} {b b' : β}
    (hstep : ∀ x ∈ xs, ∀ m b' m', Gives (f b x) m b' m' → b' = b) {m m' : Memory F}
    (h : Gives (xs.foldlM f b) m b' m') :
    b' = b := by
  induction xs generalizing m with
  | nil => exact (gives_pure.1 h).1.symm
  | cons x xs ih =>
      rw [List.foldlM_cons] at h
      obtain ⟨b₁, m₁, hx, hxs⟩ := gives_bind.1 h
      rw [hstep x (List.mem_cons_self ..) m b₁ m₁ hx] at hxs
      exact ih (fun y hy => hstep y (List.mem_cons_of_mem _ hy)) hxs

/-- Reading from a memory does not change it. -/
theorem gives_mapM_ofExcept
    {f : α → Except Failure β} {xs : List α} {ys : List β} {m m' : Memory F} :
    Gives (xs.mapM fun x => (ofExcept (f x) : Run F β)) m ys m' ↔
      xs.mapM f = .ok ys ∧ m' = m := by
  induction xs generalizing ys m m' with
  | nil =>
      rw [List.mapM_nil, List.mapM_nil, gives_pure]
      simp [pure, Except.pure]
  | cons x xs ih =>
      rw [List.mapM_cons, List.mapM_cons]
      simp only [gives_bind, gives_ofExcept, gives_pure, ih]
      constructor
      · rintro ⟨y, _, ⟨hy, rfl⟩, zs, _, ⟨hzs, rfl⟩, rfl, rfl⟩
        simp [hy, hzs, bind, Except.bind, pure, Except.pure]
      · rintro ⟨h, rfl⟩
        obtain ⟨y, hy, h⟩ := bind_eq_ok_iff.1 h
        obtain ⟨zs, hzs, heq⟩ := bind_eq_ok_iff.1 h
        cases heq
        exact ⟨y, m', ⟨hy, rfl⟩, zs, m', ⟨hzs, rfl⟩, rfl, rfl⟩

end Run

end SparseDiff
