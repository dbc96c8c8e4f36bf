import LightningCash.Lib.Except

/-!
# Refinement of `Except` computations by added failures

`Refines strict lax` says that `strict` accepts no more than `lax`: wherever `strict` succeeds,
`lax` succeeds with the same value. A checker that only ever adds rejections to another is a
refinement of it in this sense, and the relation is a congruence for the shapes a `do` block
elaborates to: binds, shared branches and guards that throw. A guard refines another when it
fires at least as often.

The rules here are stated for `if ... then .error e else ...`, the form a `do` block's
`if c then throw e` takes once its join point is inlined and `throw_bind` applied.
-/

namespace Except

universe u v

variable {ε : Type u} {α β : Type v}

@[simp] theorem throw_eq_error (e : ε) : (throw e : Except ε α) = .error e := rfl

/-- `strict` succeeds only where `lax` does, and with the same value. -/
def Refines (strict lax : Except ε α) : Prop :=
  ∀ a, strict = .ok a → lax = .ok a

namespace Refines

@[refl] theorem refl (x : Except ε α) : Refines x x := fun _ h ↦ h

theorem trans {x y z : Except ε α} (hxy : Refines x y) (hyz : Refines y z) : Refines x z :=
  fun a h ↦ hyz a (hxy a h)

/-- A failure refines everything. -/
theorem error_left (e : ε) (lax : Except ε α) : Refines (.error e) lax :=
  fun _ h ↦ nomatch h

/-- Everything refines the trivial success. -/
theorem ok_unit_right (strict : Except ε Unit) : Refines strict (.ok ()) :=
  fun _ _ ↦ rfl

theorem bind {x x' : Except ε α} {f f' : α → Except ε β} (hx : Refines x x')
    (hf : ∀ a, Refines (f a) (f' a)) : Refines (x >>= f) (x' >>= f') := by
  intro b h
  obtain ⟨a, hxa, hfa⟩ := Except.bind_eq_ok.mp h
  rw [hx a hxa, Except.ok_bind]
  exact hf a b hfa

theorem map {x x' : Except ε α} (g : α → β) (hx : Refines x x') :
    Refines (g <$> x) (g <$> x') := by
  intro b h
  cases x with
  | error e => exact nomatch h
  | ok a =>
    obtain rfl : g a = b := Except.ok.inj h
    rw [hx a rfl]
    rfl

theorem mapError {ε' : Type u} {x x' : Except ε α} (g : ε → ε') (hx : Refines x x') :
    Refines (x.mapError g) (x'.mapError g) := by
  intro b h
  cases x with
  | error e => exact nomatch h
  | ok a =>
    obtain rfl : a = b := Except.ok.inj h
    rw [hx a rfl]
    rfl

/-- Two branches on one condition. -/
theorem ite {p : Prop} [Decidable p] {x x' y y' : Except ε α} (hx : Refines x x')
    (hy : Refines y y') : Refines (if p then x else y) (if p then x' else y') := by
  split_ifs
  · exact hx
  · exact hy

/-- A guard that fires at least as often as the other's: where the lax guard fires, so does the
strict one. -/
theorem guard {p q : Prop} [Decidable p] [Decidable q] (hqp : q → p) (e e' : ε)
    {y y' : Except ε α} (hy : Refines y y') :
    Refines (if p then .error e else y) (if q then .error e' else y') := by
  by_cases hp : p
  · rw [if_pos hp]
    exact error_left e _
  · rw [if_neg hp, if_neg (mt hqp hp)]
    exact hy

/-- A guard on the strict side alone. -/
theorem guard_left {p : Prop} [Decidable p] (e : ε) {y y' : Except ε α} (hy : Refines y y') :
    Refines (if p then .error e else y) y' := by
  split_ifs
  · exact error_left e _
  · exact hy

/-- Two branches on conditions where the strict one holds whenever the lax one does; the strict
branch taken alone must then refine the lax side's other branch. -/
theorem ite_of_imp {p q : Prop} [Decidable p] [Decidable q] (hqp : q → p)
    {x x' y y' : Except ε α} (hx : Refines x x') (hxy : Refines x y') (hy : Refines y y') :
    Refines (if p then x else y) (if q then x' else y') := by
  by_cases hq : q
  · rw [if_pos (hqp hq), if_pos hq]
    exact hx
  · rw [if_neg hq]
    split_ifs
    · exact hxy
    · exact hy

/-- A check run under a condition before the rest, as a `do` block's `if c then check` leaves
it: under a stronger condition it refines the same check under a weaker one. -/
theorem ite_bind {p q : Prop} [Decidable p] [Decidable q] (hqp : q → p) (x : Except ε Unit)
    {γ : Type} {k k' : Unit → Except ε γ} (hk : Refines (k ()) (k' ())) :
    Refines (if p then x >>= k else k ()) (if q then x >>= k' else k' ()) := by
  refine ite_of_imp hqp (bind (refl x) fun () ↦ hk) ?_ hk
  intro b h
  obtain ⟨_, -, hkb⟩ := Except.bind_eq_ok.mp h
  exact hk b hkb

end Refines

end Except
