/-!
# Requests in sequence

A sequence of requests succeeds exactly if each of them does, and fails with the first error.
-/

namespace StackCode

variable {ε α β γ δ : Type}

theorem bind_eq_ok {x : Except ε α} {f : α → Except ε β} {b : β} :
    (x >>= f) = .ok b ↔ ∃ a, x = .ok a ∧ f a = .ok b := by
  cases x <;> simp [bind, Except.bind]

theorem ok_bind (a : α) (f : α → Except ε β) : (Except.ok a >>= f) = f a := rfl

theorem pure_eq_ok {a b : α} : (pure a : Except ε α) = .ok b ↔ a = b := by
  simp [pure, Except.pure]

theorem map_eq_ok {x : Except ε α} {f : α → β} {b : β} :
    f <$> x = .ok b ↔ ∃ a, x = .ok a ∧ f a = b := by
  cases x <;> simp [Functor.map, Except.map]

theorem throw_ne_ok {e : ε} {a : α} : (throw e : Except ε α) ≠ .ok a := nofun

theorem ok_ne_error {a : α} {e : ε} : (.ok a : Except ε α) ≠ .error e := nofun

theorem forM_eq_ok {f : α → Except ε Unit} {xs : List α} :
    xs.forM f = .ok () ↔ ∀ x ∈ xs, f x = .ok () := by
  induction xs with
  | nil => simp [List.forM, pure, Except.pure]
  | cons x xs ih =>
    rw [List.forM, bind_eq_ok, List.forall_mem_cons, ← ih]
    exact ⟨fun ⟨(), h⟩ => h, fun h => ⟨(), h⟩⟩

/-- A request gives a result of one sort or fails with an error of another. -/
def Gives (P : α → Prop) (Q : ε → Prop) : Except ε α → Prop
  | .ok a => P a
  | .error e => Q e

theorem Gives.imp {P P' : α → Prop} {Q Q' : ε → Prop} {x : Except ε α} (h : Gives P Q x)
    (hP : ∀ a, P a → P' a) (hQ : ∀ e, Q e → Q' e) : Gives P' Q' x := by
  cases x with
  | ok a => exact hP a h
  | error e => exact hQ e h

theorem Gives.bind {P : β → Prop} {Q : ε → Prop} {x : Except ε α} {f : α → Except ε β}
    (h : Gives (fun _ => True) Q x) (hf : ∀ a, Gives P Q (f a)) : Gives P Q (x >>= f) := by
  cases x with
  | ok a => exact hf a
  | error e => exact h

theorem Gives.forM {Q : ε → Prop} {f : α → Except ε Unit} {xs : List α}
    (h : ∀ x ∈ xs, Gives (fun _ => True) Q (f x)) : Gives (fun _ => True) Q (xs.forM f) := by
  induction xs with
  | nil => trivial
  | cons x xs ih =>
    exact (h x List.mem_cons_self).bind fun _ => ih fun y hy => h y (List.mem_cons_of_mem x hy)

/-- Two requests fail with the same error, or succeed with related results. -/
inductive Agrees (R : α → β → Prop) : Except ε α → Except ε β → Prop
  | ok {a : α} {b : β} : R a b → Agrees R (.ok a) (.ok b)
  | error (e : ε) : Agrees R (.error e) (.error e)

theorem Agrees.refl {R : α → α → Prop} (hR : ∀ a, R a a) (x : Except ε α) : Agrees R x x := by
  cases x with
  | ok a => exact .ok (hR a)
  | error e => exact .error e

theorem Agrees.ok_or_error {R : α → β → Prop} {x : Except ε α} {y : Except ε β} (h : Agrees R x y) :
    (∃ a b, x = .ok a ∧ y = .ok b ∧ R a b) ∨ ∃ e, x = .error e ∧ y = .error e := by
  cases h with
  | ok hab => exact .inl ⟨_, _, rfl, rfl, hab⟩
  | error e => exact .inr ⟨e, rfl, rfl⟩

theorem Agrees.bind {R : α → β → Prop} {S : γ → δ → Prop} {x : Except ε α} {y : Except ε β}
    {f : α → Except ε γ} {g : β → Except ε δ} (h : Agrees R x y)
    (hf : ∀ a b, R a b → Agrees S (f a) (g b)) : Agrees S (x >>= f) (y >>= g) := by
  cases h with
  | ok hab => exact hf _ _ hab
  | error e => exact .error e

end StackCode
