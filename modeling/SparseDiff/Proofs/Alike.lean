import SparseDiff.Proofs.Outcome

/-!
# Two runs side by side

`Run.Alike x m x' m' R` speaks of two computations at once: both return, with results and
memories that `R` relates, or both fail, and with the same failure. It is proved step by step like
`Run.Ends`; a loop carries a relation between its two memories.
-/

namespace SparseDiff

namespace Run

variable {F α β : Type}

/--
From `m` and `m'` the two computations return results and memories as `R` says, or they fail
with the same failure.
-/
def Alike (x : Run F α) (m : Memory F) (x' : Run F α) (m' : Memory F)
    (R : α → Memory F → α → Memory F → Prop) : Prop :=
  (∃ a m₁ a' m₁', Gives x m a m₁ ∧ Gives x' m' a' m₁' ∧ R a m₁ a' m₁') ∨
    ∃ e, x.alone m = .error e ∧ x'.alone m' = .error e

section Alike

variable {x x' : Run F α} {m m' : Memory F} {R : α → Memory F → α → Memory F → Prop}

theorem alike_of_gives
    {a a' : α} {m₁ m₁' : Memory F} (hx : Gives x m a m₁) (hx' : Gives x' m' a' m₁')
    (h : R a m₁ a' m₁') :
    Alike x m x' m' R :=
  .inl ⟨a, m₁, a', m₁', hx, hx', h⟩

theorem alike_of_error
    {e : Failure} (hx : x.alone m = .error e) (hx' : x'.alone m' = .error e) :
    Alike x m x' m' R :=
  .inr ⟨e, hx, hx'⟩

theorem Alike.imp
    {S : α → Memory F → α → Memory F → Prop} (h : Alike x m x' m' R)
    (hpost : ∀ a m₁ a' m₁', R a m₁ a' m₁' → S a m₁ a' m₁') :
    Alike x m x' m' S := by
  rcases h with ⟨a, m₁, a', m₁', hx, hx', hR⟩ | ⟨e, hx, hx'⟩
  · exact alike_of_gives hx hx' (hpost _ _ _ _ hR)
  · exact alike_of_error hx hx'

/-- Where the related results are equal, the two computations have one outcome. -/
theorem Alike.alone_eq
    (h : Alike x m x' m' fun a _ a' _ => a = a') :
    x.alone m = x'.alone m' := by
  rcases h with ⟨a, m₁, a', m₁', hx, hx', rfl⟩ | ⟨e, hx, hx'⟩
  · rw [alone_eq_ok_iff.2 ⟨m₁, hx⟩, alone_eq_ok_iff.2 ⟨m₁', hx'⟩]
  · rw [hx, hx']

/-- What is known of each computation alone, as long as it returns. -/
theorem Alike.and_ends
    {Q Q' : α → Memory F → Prop} {E E' : Failure → Prop} (h : Alike x m x' m' R)
    (hx : Ends x m Q E) (hx' : Ends x' m' Q' E') :
    Alike x m x' m' fun a m₁ a' m₁' => R a m₁ a' m₁' ∧ Q a m₁ ∧ Q' a' m₁' := by
  rcases h with ⟨a, m₁, a', m₁', hgives, hgives', hR⟩ | ⟨e, he, he'⟩
  · exact alike_of_gives hgives hgives' ⟨hR, hx.of_gives hgives, hx'.of_gives hgives'⟩
  · exact alike_of_error he he'

/-- Two computations that pass one test, or fail with the one failure that refutes it. -/
theorem alike_of_ends
    {Q Q' : α → Memory F → Prop} {good : Prop} {bad : Failure → Prop}
    (hx : Ends x m (fun a m₁ => Q a m₁ ∧ good) bad)
    (hx' : Ends x' m' (fun a m₁ => Q' a m₁ ∧ good) bad) (hbad : ∀ e, bad e → ¬ good)
    (hone : ∀ e e', bad e → bad e' → e = e') :
    Alike x m x' m' fun a m₁ a' m₁' => Q a m₁ ∧ Q' a' m₁' := by
  rcases hx.cases with ⟨a, m₁, hgives, hQ, hgood⟩ | ⟨e, he, hbadx⟩
  · rcases hx'.cases with ⟨a', m₁', hgives', hQ', -⟩ | ⟨e, -, hbadx'⟩
    · exact alike_of_gives hgives hgives' ⟨hQ, hQ'⟩
    · exact absurd hgood (hbad e hbadx')
  · rcases hx'.cases with ⟨-, -, -, -, hgood⟩ | ⟨e', he', hbadx'⟩
    · exact absurd hgood (hbad e hbadx)
    · obtain rfl := hone e e' hbadx hbadx'
      exact alike_of_error he he'

/-- A sequence goes on from where its first step ends. -/
theorem alone_bind_of_gives
    {f : α → Run F β} {a : α} {m₁ : Memory F} (h : Gives x m a m₁) :
    (x >>= f).alone m = (f a).alone m₁ := by
  cases hrest : (f a).alone m₁ with
  | ok b =>
      obtain ⟨m₂, hb⟩ := alone_eq_ok_iff.1 hrest
      exact alone_eq_ok_iff.2 ⟨m₂, gives_bind.2 ⟨a, m₁, h, hb⟩⟩
  | error e =>
      rw [alone_eq_error_iff] at hrest ⊢
      exact ends_bind.2 ((ends_iff_of_gives h).2 hrest)

theorem Alike.bind
    {f f' : α → Run F β} {S : β → Memory F → β → Memory F → Prop} (h : Alike x m x' m' R)
    (hf : ∀ a m₁ a' m₁', R a m₁ a' m₁' → Alike (f a) m₁ (f' a') m₁' S) :
    Alike (x >>= f) m (x' >>= f') m' S := by
  rcases h with ⟨a, m₁, a', m₁', hx, hx', hR⟩ | ⟨e, hx, hx'⟩
  · rcases hf a m₁ a' m₁' hR with ⟨b, m₂, b', m₂', hb, hb', hS⟩ | ⟨e, hb, hb'⟩
    · exact alike_of_gives (gives_bind.2 ⟨a, m₁, hx, hb⟩) (gives_bind.2 ⟨a', m₁', hx', hb'⟩) hS
    · exact alike_of_error ((alone_bind_of_gives hx).trans hb) ((alone_bind_of_gives hx').trans hb')
  · exact alike_of_error (alone_bind_of_error hx) (alone_bind_of_error hx')

/-- First steps that return lead to their second steps. -/
theorem alike_bind_of_gives
    {f f' : α → Run F β} {S : β → Memory F → β → Memory F → Prop} {a a' : α} {m₁ m₁' : Memory F}
    (hx : Gives x m a m₁) (hx' : Gives x' m' a' m₁') (hf : Alike (f a) m₁ (f' a') m₁' S) :
    Alike (x >>= f) m (x' >>= f') m' S :=
  (alike_of_gives (R := fun b m₂ b' m₂' => b = a ∧ m₂ = m₁ ∧ b' = a' ∧ m₂' = m₁') hx hx'
    ⟨rfl, rfl, rfl, rfl⟩).bind fun b m₂ b' m₂' h => by
      obtain ⟨rfl, rfl, rfl, rfl⟩ := h
      exact hf

/-- A check that does not look at the memory. -/
theorem alike_check_bind
    {e : Except Error α} {f f' : α → Run F β} {S : β → Memory F → β → Memory F → Prop}
    (hf : ∀ a, e = .ok a → Alike (f a) m (f' a) m' S) :
    Alike (check e >>= f) m (check e >>= f') m' S := by
  cases he : e with
  | ok a =>
      exact alike_bind_of_gives (gives_check.2 ⟨rfl, rfl⟩) (gives_check.2 ⟨rfl, rfl⟩) (hf a he)
  | error err => exact alike_of_error rfl rfl

end Alike

/-- A loop whose steps are alike and keep a relation between the memories. -/
theorem alike_forM
    {f : α → Run F Unit} {I : List α → Memory F → Memory F → Prop}
    (hstep : ∀ x xs m m', I (x :: xs) m m' →
      Alike (f x) m (f x) m' fun _ m₁ _ m₁' => I xs m₁ m₁') :
    ∀ (xs : List α) (m m' : Memory F), I xs m m' →
      Alike (xs.forM f) m (xs.forM f) m' fun _ m₁ _ m₁' => I [] m₁ m₁'
  | [], _, _, h =>
      alike_of_gives (gives_forM_nil (u := ()).2 rfl) (gives_forM_nil (u := ()).2 rfl) h
  | x :: xs, m, m', h =>
      (hstep x xs m m' h).bind fun _ m₁ _ m₁' h₁ => alike_forM hstep xs m₁ m₁' h₁

/-- A loop that carries a value, the same in both runs. -/
theorem alike_foldlM
    {f : β → α → Run F β} {I : Memory F → Memory F → Prop} {xs : List α}
    (hstep : ∀ x ∈ xs, ∀ b m m', I m m' →
      Alike (f b x) m (f b x) m' fun b₁ m₁ b₁' m₁' => b₁ = b₁' ∧ I m₁ m₁') (b : β)
    {m m' : Memory F} (h : I m m') :
    Alike (xs.foldlM f b) m (xs.foldlM f b) m' fun b₁ m₁ b₁' m₁' => b₁ = b₁' ∧ I m₁ m₁' := by
  induction xs generalizing b m m' with
  | nil => exact alike_of_gives (gives_pure.2 ⟨rfl, rfl⟩) (gives_pure.2 ⟨rfl, rfl⟩) ⟨rfl, h⟩
  | cons x xs ih =>
      rw [List.foldlM_cons]
      refine (hstep x (List.mem_cons_self ..) b m m' h).bind fun b₁ m₁ b₁' m₁' h₁ => ?_
      obtain ⟨rfl, hI⟩ := h₁
      exact ih (fun y hy => hstep y (List.mem_cons_of_mem _ hy)) b₁ hI

end Run

end SparseDiff
