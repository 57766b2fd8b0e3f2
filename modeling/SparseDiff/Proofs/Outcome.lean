import SparseDiff.Proofs.Run

/-!
# How a run ends

`Run.Gives` speaks of success only. `Run.Ends x m Q E` speaks of both ways in which `x`
can end from memory `m`: with a result and a memory that `Q` describes, or with a failure
that `E` describes. It is proved step by step, and loops carry an invariant.
-/

namespace SparseDiff

namespace Run

variable {F α β : Type}

/--
From memory `m` the computation ends with a result and a memory as `Q` says, or with a
failure as `E` says.
-/
def Ends (x : Run F α) (m : Memory F) (Q : α → Memory F → Prop) (E : Failure → Prop) :
    Prop :=
  match x.run.run m with
  | (.ok a, m') => Q a m'
  | (.error e, _) => E e

section Ends

variable {x : Run F α} {m : Memory F} {Q : α → Memory F → Prop} {E : Failure → Prop}

/-- A computation that succeeds ends as `Q` says. -/
theorem ends_iff_of_gives
    {a : α} {m' : Memory F} (h : Gives x m a m') :
    Ends x m Q E ↔ Q a m' := by
  unfold Gives at h
  unfold Ends
  rw [h]

theorem Ends.of_gives
    (h : Ends x m Q E) {a : α} {m' : Memory F} (hx : Gives x m a m') :
    Q a m' :=
  (ends_iff_of_gives hx).1 h

theorem ends_iff_of_error
    {e : Failure} (h : x.alone m = .error e) :
    Ends x m Q E ↔ E e := by
  have hrun : x.run.run m = (.error e, (x.run.run m).2) := Prod.ext h rfl
  unfold Ends
  rw [hrun]

/-- There is no third way to end. -/
theorem Ends.cases
    (h : Ends x m Q E) :
    (∃ a m', Gives x m a m' ∧ Q a m') ∨ ∃ e, x.alone m = .error e ∧ E e := by
  cases hrun : x.alone m with
  | ok a =>
      obtain ⟨m', hgives⟩ := alone_eq_ok_iff.1 hrun
      exact .inl ⟨a, m', hgives, h.of_gives hgives⟩
  | error e => exact .inr ⟨e, rfl, (ends_iff_of_error hrun).1 h⟩

theorem Ends.imp
    {Q' : α → Memory F → Prop} {E' : Failure → Prop} (h : Ends x m Q E)
    (hpost : ∀ a m', Q a m' → Q' a m') (hbad : ∀ e, E e → E' e) :
    Ends x m Q' E' := by
  unfold Ends at h ⊢
  split at h
  · exact hpost _ _ h
  · exact hbad _ h

@[simp] theorem ends_pure
    {a : α} :
    Ends (pure a : Run F α) m Q E ↔ Q a m :=
  Iff.rfl

/-- A sequence fails as its first step does, or goes on from there. -/
@[simp] theorem ends_bind
    {f : α → Run F β} {Q : β → Memory F → Prop} :
    Ends (x >>= f) m Q E ↔ Ends x m (fun a m' => Ends (f a) m' Q E) E := by
  unfold Ends
  rw [run_bind]
  cases x.run.run m with
  | mk r m' => cases r <;> rfl

@[simp] theorem ends_get
    {Q : Memory F → Memory F → Prop} :
    Ends (get : Run F (Memory F)) m Q E ↔ Q m m :=
  Iff.rfl

@[simp] theorem ends_modify
    {f : Memory F → Memory F} {Q : Unit → Memory F → Prop} :
    Ends (modify f : Run F Unit) m Q E ↔ Q () (f m) :=
  Iff.rfl

/-- Slots that are there pass. -/
theorem ends_requireSlots
    {slots : List Nat} {Q : Unit → Memory F → Prop} (h : ∀ s ∈ slots, s < m.values.size) :
    Ends (requireSlots slots) m Q E ↔ Q () m :=
  ends_iff_of_gives (gives_requireSlots.2 ⟨h, rfl⟩)

/-- A computation fails with `e` exactly if it has no other way to end. -/
theorem alone_eq_error_iff
    {e : Failure} :
    x.alone m = .error e ↔ Ends x m (fun _ _ => False) fun e' => e' = e := by
  constructor
  · intro h
    exact (ends_iff_of_error h).2 rfl
  · intro h
    rcases h.cases with ⟨_, _, -, hfalse⟩ | ⟨e', herr, rfl⟩
    · exact hfalse.elim
    · exact herr

/-- A sequence fails as its first step does. -/
theorem alone_bind_of_error
    {f : α → Run F β} {e : Failure} (h : x.alone m = .error e) :
    (x >>= f).alone m = .error e :=
  alone_eq_error_iff.2 (ends_bind.2 ((alone_eq_error_iff.1 h).imp (fun _ _ h => h.elim)
    fun _ h => h))

theorem ends_ofExcept_ok
    {e : Except Failure α} {a : α} (h : e = .ok a) :
    Ends (ofExcept e : Run F α) m Q E ↔ Q a m := by
  rw [h]
  exact Iff.rfl

theorem ends_check_ok
    {e : Except Error α} {a : α} (h : e = .ok a) :
    Ends (check e : Run F α) m Q E ↔ Q a m := by
  rw [h]
  exact Iff.rfl

/-- A request that is turned down by a first check leaves the memory as it is. -/
theorem run_get_check_of_error
    {e : Memory F → Except Error α} {f : Memory F → α → Run F β} {err : Error}
    (h : e m = .error err) :
    (get >>= fun m' => check (e m') >>= f m').run.run m = (.error (.rejected err), m) := by
  have hget : (get : Run F (Memory F)).run.run m = (.ok m, m) := rfl
  have hcheck : (check (e m) : Run F α).run.run m = (.error (.rejected err), m) := by
    rw [h]
    rfl
  rw [run_bind, hget]
  dsimp only
  rw [run_bind, hcheck]

end Ends

section Loops

variable {E : Failure → Prop}

/-- A loop ends well if every step keeps an invariant, or it ends as a step does that fails. -/
theorem ends_forM
    {f : α → Run F Unit} {I : List α → Memory F → Prop}
    (hstep : ∀ x xs m, I (x :: xs) m → Ends (f x) m (fun _ m' => I xs m') E) :
    ∀ (xs : List α) (m : Memory F), I xs m → Ends (xs.forM f) m (fun _ m' => I [] m') E
  | [], _, h => h
  | x :: xs, m, h => by
      have hcons : (x :: xs).forM f = (do f x; xs.forM f) := rfl
      rw [hcons, ends_bind]
      exact (hstep x xs m h).imp (fun _ m' h' => ends_forM hstep xs m' h') fun _ he => he

/-- A loop that carries a value. -/
theorem ends_foldlM
    {f : β → α → Run F β} {I : List α → β → Memory F → Prop}
    (hstep : ∀ x xs b m, I (x :: xs) b m → Ends (f b x) m (I xs) E) :
    ∀ (xs : List α) (b : β) (m : Memory F), I xs b m → Ends (xs.foldlM f b) m (I []) E
  | [], _, _, h => h
  | x :: xs, b, m, h => by
      rw [List.foldlM_cons, ends_bind]
      exact (hstep x xs b m h).imp (fun b' m' h' => ends_foldlM hstep xs b' m' h') fun _ he => he

end Loops

end Run

/-- The refusal of a number that is not finite. -/
def Failure.IsNumeric (e : Failure) : Prop :=
  ∃ op node k, e = .rejected (.numeric op node k)

namespace Run

/--
A computation that guards `good`: it succeeds as `Q` says, but with checking on only if `good`
holds, and refuses a number that is not finite if `good` does not.
-/
def Guarded (check : Bool) (good : Prop) (x : Run F α) (m : Memory F)
    (Q : α → Memory F → Prop) : Prop :=
  Ends x m (fun a m' => Q a m' ∧ (check = true → good))
    fun e => check = true ∧ ¬ good ∧ e.IsNumeric

section Guarded

variable {check : Bool} {good good' : Prop} {x : Run F α} {m : Memory F}
  {Q Q' : α → Memory F → Prop}

theorem guarded_of_gives
    {a : α} {m' : Memory F} (h : Gives x m a m') (hpost : Q a m') :
    Guarded check True x m Q :=
  (ends_iff_of_gives h).2 ⟨hpost, fun _ => trivial⟩

theorem Guarded.imp
    (h : Guarded check good x m Q) (hpost : ∀ a m', Q a m' → Q' a m') :
    Guarded check good x m Q' :=
  Ends.imp h (fun a m' h => ⟨hpost a m' h.1, h.2⟩) fun _ he => he

theorem Guarded.congr
    (h : Guarded check good x m Q) (hiff : good ↔ good') :
    Guarded check good' x m Q :=
  propext hiff ▸ h

/-- The second step guards where the first has passed. -/
theorem Guarded.bind
    {f : α → Run F β} {R : β → Memory F → Prop} (hx : Guarded check good x m Q)
    (hf : ∀ a m', Q a m' → Guarded check good' (f a) m' R) :
    Guarded check (good ∧ good') (x >>= f) m R := by
  refine ends_bind.2 (Ends.imp hx (fun a m' h => ?_) fun e he => ?_)
  · exact Ends.imp (hf a m' h.1) (fun b m'' hb => ⟨hb.1, fun hon => ⟨h.2 hon, hb.2 hon⟩⟩)
      fun e he => ⟨he.1, fun hgood => he.2.1 hgood.2, he.2.2⟩
  · exact ⟨he.1, fun hgood => he.2.1 hgood.1, he.2.2⟩

/-- A step that succeeds and checks nothing. -/
theorem guarded_bind_of_gives
    {f : α → Run F β} {R : β → Memory F → Prop} {a : α} {m' : Memory F} (hx : Gives x m a m') :
    Guarded check good (x >>= f) m R ↔ Guarded check good (f a) m' R :=
  ends_bind.trans (ends_iff_of_gives hx)

@[simp] theorem guarded_get_bind
    {f : Memory F → Run F β} {R : β → Memory F → Prop} :
    Guarded check good (get >>= f) m R ↔ Guarded check good (f m) m R :=
  guarded_bind_of_gives (gives_get.2 ⟨rfl, rfl⟩)

/-- A last step that succeeds and checks nothing. -/
theorem Guarded.bind_gives
    {f : α → Run F β} {R : β → Memory F → Prop} (hx : Guarded check good x m Q)
    (hf : ∀ a m', Q a m' → ∃ b m'', Gives (f a) m' b m'' ∧ R b m'') :
    Guarded check good (x >>= f) m R :=
  (hx.bind fun a m' h => by
    obtain ⟨b, m'', hgives, hpost⟩ := hf a m' h
    exact guarded_of_gives hgives hpost).congr (by simp)

/-- A loop that carries a value guards what its steps do. -/
theorem guarded_foldlM
    {f : β → α → Run F β} {g : β → α → β} {test : α → Prop} {I : Memory F → Prop} {xs : List α}
    (hstep : ∀ x ∈ xs, ∀ b m, I m →
      Guarded check (test x) (f b x) m fun b' m' => b' = g b x ∧ I m') :
    ∀ (b : β) (m : Memory F), I m →
      Guarded check (∀ x ∈ xs, test x) (xs.foldlM f b) m
        fun b' m' => b' = xs.foldl g b ∧ I m' := by
  induction xs with
  | nil =>
      intro b m h
      exact ⟨⟨rfl, h⟩, fun _ x hx => absurd hx List.not_mem_nil⟩
  | cons x xs ih =>
      intro b m h
      rw [List.foldlM_cons]
      refine ((hstep x (List.mem_cons_self ..) b m h).bind fun b' m' h' => ?_).congr
        List.forall_mem_cons.symm
      obtain ⟨rfl, hI⟩ := h'
      exact ih (fun y hy => hstep y (List.mem_cons_of_mem _ hy)) (g b x) m' hI

/-- With checking on, the result is good, and nothing but the check fails. -/
theorem Guarded.ends
    (h : Guarded check good x m Q) :
    Ends x m (fun a m' => Q a m' ∧ (check = true → good)) Failure.IsNumeric :=
  Ends.imp h (fun _ _ h => h) fun _ he => he.2.2

variable {a : α}

theorem Guarded.alone_eq_ok_iff
    (h : Guarded check good x m fun b _ => b = a) {b : α} :
    x.alone m = .ok b ↔ b = a ∧ (check = true → good) := by
  rcases Ends.cases h with ⟨b', m', hgives, rfl, hgood⟩ | ⟨e, herr, hon, hbad, -⟩
  · rw [Run.alone_eq_ok_iff.2 ⟨m', hgives⟩]
    constructor
    · intro heq
      exact ⟨(Except.ok.inj heq).symm, hgood⟩
    · rintro ⟨rfl, -⟩
      rfl
  · rw [herr]
    exact iff_of_false (by simp) fun hok => hbad (hok.2 hon)

/--
A computation answers a request: one that `accepted` turns down it refuses with that error, any
other ends with a result as `Q` says or refuses a number that is not finite.
-/
structure Answers (accepted : Except Error Unit) (x : Run F α) (m : Memory F) (Q : α → Prop) :
    Prop where
  refused : ∀ e, accepted = .error e → x.alone m = .error (.rejected e)
  ends : accepted = .ok () → Ends x m (fun a _ => Q a) Failure.IsNumeric

theorem Answers.of_eq_ok
    {accepted : Except Error Unit} {Q : α → Prop} (h : Answers accepted x m Q)
    (haccepted : accepted = .ok ()) {a : α} (ha : x.alone m = .ok a) :
    Q a := by
  obtain ⟨m', hgives⟩ := Run.alone_eq_ok_iff.1 ha
  exact (h.ends haccepted).of_gives hgives

/-- A computation that only reshapes the result of another answers the same requests. -/
theorem Answers.map
    {accepted : Except Error Unit} {Q : α → Prop} (h : Answers accepted x m Q) {g : α → β}
    {R : β → Prop} (hg : ∀ a, Q a → R (g a)) :
    Answers accepted (do return g (← x)) m R where
  refused e he := alone_bind_of_error (h.refused e he)
  ends hok := ends_bind.2 ((h.ends hok).imp (fun a _ ha => hg a ha) fun _ he => he)

/-- Where the test is passed, there is a result. -/
theorem Guarded.gives
    (h : Guarded check good x m Q) (hgood : good) :
    ∃ a m', Gives x m a m' ∧ Q a m' := by
  rcases Ends.cases h with ⟨a, m', hgives, hpost, -⟩ | ⟨-, -, -, hbad, -⟩
  · exact ⟨a, m', hgives, hpost⟩
  · exact absurd hgood hbad

theorem Guarded.isNumeric_iff
    (h : Guarded check good x m Q) :
    (∃ e, x.alone m = .error e ∧ e.IsNumeric) ↔ check = true ∧ ¬ good := by
  rcases Ends.cases h with ⟨b', m', hgives, -, hgood⟩ | ⟨e, herr, hon, hbad, hnumeric⟩
  · rw [Run.alone_eq_ok_iff.2 ⟨m', hgives⟩]
    exact iff_of_false (by simp) fun hbad => hbad.2 (hgood hbad.1)
  · exact iff_of_true ⟨e, herr, hnumeric⟩ ⟨hon, hbad⟩

end Guarded

/--
Two computations return the same results, and one refuses a number that is not finite exactly if
the other does.
-/
structure SameOutcome (x : Run F α) (m : Memory F) (x' : Run F α) (m' : Memory F) : Prop where
  ok : ∀ a, x.alone m = .ok a ↔ x'.alone m' = .ok a
  numeric : (∃ e, x.alone m = .error e ∧ e.IsNumeric) ↔
    ∃ e, x'.alone m' = .error e ∧ e.IsNumeric

section SameOutcome

variable {x x' : Run F α} {m m' : Memory F}

/-- Computations that guard the same test and have the same result end alike. -/
theorem Guarded.sameOutcome
    {check : Bool} {good : Prop} {a : α} (h : Guarded check good x m fun b _ => b = a)
    (h' : Guarded check good x' m' fun b _ => b = a) :
    SameOutcome x m x' m' :=
  ⟨fun _ => h.alone_eq_ok_iff.trans h'.alone_eq_ok_iff.symm,
    h.isNumeric_iff.trans h'.isNumeric_iff.symm⟩

/-- So do computations that are refused with the same error. -/
theorem sameOutcome_of_error
    {e : Failure} (h : x.alone m = .error e) (h' : x'.alone m' = .error e) :
    SameOutcome x m x' m' := by
  refine ⟨fun a => ?_, ?_⟩
  · rw [h, h']
  · rw [h, h']

end SameOutcome

end Run

end SparseDiff
