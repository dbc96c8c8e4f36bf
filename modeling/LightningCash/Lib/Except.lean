import Mathlib

/-!
# Rewriting `Except` computations

The equations that let a proof step through a `do` block in `Except ε` without unfolding the
monad: binding a success or a failure, `pure`, mapping over a bind, and the inversion of a bind
that succeeded.
-/

namespace Except

universe u v

variable {ε : Type u} {α β γ : Type v}

@[simp] theorem ok_bind (a : α) (f : α → Except ε β) : (Except.ok a >>= f) = f a := rfl

@[simp] theorem error_bind (e : ε) (f : α → Except ε β) :
    (Except.error e >>= f : Except ε β) = .error e := rfl

@[simp] theorem pure_eq_ok (a : α) : (pure a : Except ε α) = .ok a := rfl

/-- A bind succeeded: so did its first computation, and the rest from its value. -/
theorem bind_eq_ok {x : Except ε α} {f : α → Except ε β} {b : β} :
    x >>= f = .ok b ↔ ∃ a, x = .ok a ∧ f a = .ok b := by
  cases x with
  | error e => simp
  | ok a => simp

/-- Renaming the errors changes no success. -/
@[simp] theorem mapError_eq_ok {ε' : Type u} {x : Except ε α} {f : ε → ε'} {a : α} :
    x.mapError f = .ok a ↔ x = .ok a := by
  cases x <;> simp [Except.mapError]

/-- Simulation of a bind: if the abstract computation is the concrete one seen through `f`, and
the continuations agree through `f`, the two binds are equal. -/
theorem bind_eq_bind_of_map {x : Except ε α} {y : Except ε β} {f : α → β} (h : f <$> x = y)
    {g : α → Except ε γ} {g' : β → Except ε γ} (hg : ∀ a, g a = g' (f a)) :
    x >>= g = y >>= g' := by
  subst h
  cases x with
  | error e => rfl
  | ok a => exact hg a

/-! ## Postconditions

`SatisfiesM p x`: whatever `x` returns satisfies `p`; for `Except` it is
`∀ a, x = .ok a → p a` (`SatisfiesM_Except_eq`). Besides the rules for `pure` and bind that
hold in every monad, a `do` block of checks needs the ones below: a failure satisfies anything,
and a check that throws leaves only the rest to prove. Stated goal-first, they let a proof follow
the program's join points without unfolding them. -/

theorem satisfiesM_error {p : α → Prop} (e : ε) : SatisfiesM p (Except.error e : Except ε α) :=
  SatisfiesM_Except_eq.2 fun _ h ↦ nomatch h

theorem satisfiesM_ite {p : α → Prop} {c : Prop} [Decidable c] {x y : Except ε α}
    (hx : c → SatisfiesM p x) (hy : ¬c → SatisfiesM p y) : SatisfiesM p (if c then x else y) := by
  split
  · exact hx ‹_›
  · exact hy ‹_›

/-- A check that throws: only what follows it can return. -/
theorem satisfiesM_guard {p : α → Prop} {c : Prop} [Decidable c] {e : ε} {f : β → Except ε α}
    {y : Except ε α} (hy : ¬c → SatisfiesM p y) :
    SatisfiesM p (if c then throw e >>= f else y) :=
  satisfiesM_ite (fun _ ↦ satisfiesM_error e) hy

/-- What a computation that succeeded returned satisfies its postcondition. -/
theorem of_satisfiesM {p : α → Prop} {x : Except ε α} {a : α} (hx : SatisfiesM p x)
    (h : x = .ok a) : p a :=
  SatisfiesM_Except_eq.1 hx a h

/-! ## Loops

Two rules for a `foldlM` in `Except`, each proved once by induction on the list: an invariant
that every successful step keeps holds of whatever a successful loop returns; and an invariant
indexed by the elements still to come, from which every step succeeds into the next one, makes
the loop succeed and hold it at the end. -/

/-- What a successful loop returns keeps an invariant that every successful step keeps. -/
theorem foldlM_inv {f : β → α → Except ε β} (I : β → Prop)
    (hstep : ∀ b a b', I b → f b a = .ok b' → I b') :
    ∀ {l : List α} {b r : β}, I b → l.foldlM f b = .ok r → I r
  | [], b, r, hb, h => by
    rw [List.foldlM_nil, pure_eq_ok] at h
    cases h
    exact hb
  | a :: l, b, r, hb, h => by
    rw [List.foldlM_cons] at h
    obtain ⟨b', h₁, h₂⟩ := bind_eq_ok.mp h
    exact foldlM_inv I hstep (hstep b a b' hb h₁) h₂

/-- A loop that cannot fail: each step succeeds from the invariant for the elements still to
come into the invariant for the rest. -/
theorem foldlM_eq_ok_of_step {f : β → α → Except ε β} (I : List α → β → Prop)
    (hstep : ∀ a l b, I (a :: l) b → ∃ b', f b a = .ok b' ∧ I l b') :
    ∀ {l : List α} {b : β}, I l b → ∃ r, l.foldlM f b = .ok r ∧ I [] r
  | [], b, hb => ⟨b, rfl, hb⟩
  | a :: l, b, hb => by
    obtain ⟨b', h₁, h₂⟩ := hstep a l b hb
    obtain ⟨r, hr, hI⟩ := foldlM_eq_ok_of_step I hstep h₂
    refine ⟨r, ?_, hI⟩
    rw [List.foldlM_cons, h₁, ok_bind]
    exact hr

end Except
