import Mathlib.Logic.Function.Iterate
import Mathlib.Data.Nat.Bitwise

/-!
# Checksums linear in exclusive or

A checksum that folds `c ↦ F c ^^^ x` over its input symbols, where the shift `F` is additive for
`^^^`. Such a fold is affine: from `c` it ends at `F^[n] c ^^^ run F 0 xs`. Two facts of that
shape are what the checksums built on it rest on.

* The check symbols. When `F` only shifts a value left by `k` bits while the value is small, the
  run from zero over `k`-bit symbols is the number those symbols spell; so appending the digits
  of `F^[n] c ^^^ r` to an input that reached `c` makes the run end at `r` (`run_append_digits`).
* Single substitutions. Changing one symbol by `e` changes the result by `F^[m] e`, where `m` is
  the number of symbols after it; when `F` has no kernel on a range it maps into itself, that is
  never zero, so the result changes (`run_substitute_ne`).

Everything is proved from the additivity of `F` alone, once.
-/

namespace XorChecksum

variable (F : ℕ → ℕ)

/-- The checksum state after the symbols `xs`, from the state `c`. -/
def run (c : ℕ) (xs : List ℕ) : ℕ := xs.foldl (fun c x ↦ F c ^^^ x) c

/-- The number that the `k`-bit symbols `xs` spell, most significant first. -/
def digitsValue (k : ℕ) (xs : List ℕ) : ℕ := xs.foldl (fun a x ↦ a * 2 ^ k + x) 0

@[simp] theorem run_nil (c : ℕ) : run F c [] = c := rfl

@[simp] theorem run_cons (c x : ℕ) (xs : List ℕ) : run F c (x :: xs) = run F (F c ^^^ x) xs := rfl

theorem run_append (c : ℕ) (xs ys : List ℕ) : run F c (xs ++ ys) = run F (run F c xs) ys := by
  simp [run, List.foldl_append]

/-- Over zeros the run is the shift iterated. -/
theorem run_replicate_zero (c n : ℕ) : run F c (List.replicate n 0) = F^[n] c := by
  induction n generalizing c with
  | zero => rfl
  | succ n ih =>
    rw [List.replicate_succ, run_cons, Nat.xor_zero, ih, Function.iterate_succ_apply]

/-- Or'ing in bits below `2 ^ k` onto a multiple of `2 ^ k` adds them: the two have no bit in
common. -/
theorem mul_two_pow_xor_of_lt {a x k : ℕ} (hx : x < 2 ^ k) : a * 2 ^ k ^^^ x = a * 2 ^ k + x := by
  rw [← Nat.shiftLeft_eq, Nat.shiftLeft_add_eq_or_of_lt hx]
  apply Nat.eq_of_testBit_eq
  intro i
  rw [Nat.testBit_xor, Nat.testBit_or, Nat.testBit_shiftLeft]
  by_cases hi : k ≤ i
  · have hbit : x.testBit i = false :=
      Nat.testBit_eq_false_of_lt (lt_of_lt_of_le hx (Nat.pow_le_pow_right (by omega) hi))
    simp [hi, hbit]
  · simp [hi]

/-- Where `F` maps the values below `2 ^ w` into themselves, so does the run over symbols below
`2 ^ w`. -/
theorem run_lt {F : ℕ → ℕ} {w : ℕ} (hB : ∀ a, a < 2 ^ w → F a < 2 ^ w) (xs : List ℕ)
    (hxs : ∀ x ∈ xs, x < 2 ^ w) : ∀ c, c < 2 ^ w → run F c xs < 2 ^ w := by
  induction xs with
  | nil => intro c hc; exact hc
  | cons x xs ih =>
    intro c hc
    exact ih (fun y hy ↦ hxs y (List.mem_cons_of_mem _ hy)) _
      (Nat.xor_lt_two_pow (hB c hc) (hxs x List.mem_cons_self))

/-- Where `F` maps the values below `B` into themselves and only `0` to `0`, no nonzero value
below `B` is ever shifted to `0`. -/
theorem iterate_ne_zero {F : ℕ → ℕ} {B : ℕ} (hB : ∀ a, a < B → F a < B) (hker : ∀ a, a < B → F a = 0 → a = 0)
    (n : ℕ) : ∀ e, e < B → e ≠ 0 → F^[n] e ≠ 0 := by
  induction n with
  | zero => intro e _ he; exact he
  | succ n ih =>
    intro e heB he
    rw [Function.iterate_succ_apply]
    exact ih (F e) (hB e heB) fun h0 ↦ he (hker e heB h0)

section Additive

variable {F} (hF : ∀ a b, F (a ^^^ b) = F a ^^^ F b)
include hF

/-- The run is affine in its starting state: a change `d` of the state comes out shifted once
per symbol. -/
theorem run_xor (xs : List ℕ) : ∀ c d, run F (c ^^^ d) xs = run F c xs ^^^ F^[xs.length] d := by
  induction xs with
  | nil => intro c d; rfl
  | cons x xs ih =>
    intro c d
    have hstep : F (c ^^^ d) ^^^ x = (F c ^^^ x) ^^^ F d := by
      rw [hF]
      ac_rfl
    rw [run_cons, run_cons, hstep, ih, List.length_cons, Function.iterate_succ_apply]

/-- From `c` the run ends at `F^[n] c` moved by the run from zero. -/
theorem run_eq_iterate_xor (c : ℕ) (xs : List ℕ) :
    run F c xs = F^[xs.length] c ^^^ run F 0 xs := by
  have h := run_xor hF xs 0 c
  rw [Nat.zero_xor] at h
  rw [h, Nat.xor_comm]

/-- Changing one symbol by `e` changes the result by `e` shifted once per later symbol. -/
theorem run_substitute (c x e : ℕ) (p q : List ℕ) :
    run F c (p ++ (x ^^^ e) :: q) = run F c (p ++ x :: q) ^^^ F^[q.length] e := by
  rw [run_append, run_append, run_cons, run_cons, ← Nat.xor_assoc, run_xor hF]

/-- A single substitution by a nonzero `e` below `B` changes the checksum. -/
theorem run_substitute_ne {B : ℕ} (hB : ∀ a, a < B → F a < B)
    (hker : ∀ a, a < B → F a = 0 → a = 0) (c x : ℕ) {e : ℕ} (heB : e < B) (he : e ≠ 0)
    (p q : List ℕ) : run F c (p ++ (x ^^^ e) :: q) ≠ run F c (p ++ x :: q) := by
  rw [run_substitute hF]
  intro h
  have hshift : F^[q.length] e = 0 := by
    have h' := congrArg (· ^^^ run F c (p ++ x :: q)) h
    simp only [Nat.xor_self] at h'
    rw [Nat.xor_comm, ← Nat.xor_assoc, Nat.xor_self, Nat.zero_xor] at h'
    exact h'
  exact iterate_ne_zero hB hker q.length e heB he hshift

end Additive

section Digits

variable {F} {k m : ℕ} (hshift : ∀ a, a < 2 ^ (k * m) → F a = a * 2 ^ k)
include hshift

/-- While the value is small, the run from zero over `k`-bit symbols spells them: from a value
`a` below `2 ^ (k * j)` with `j + |xs| ≤ m + 1`, it ends at `a` followed by the digits. -/
theorem run_of_small (xs : List ℕ) (hxs : ∀ x ∈ xs, x < 2 ^ k) :
    ∀ a j, a < 2 ^ (k * j) → j + xs.length ≤ m + 1 →
      run F a xs = xs.foldl (fun a x ↦ a * 2 ^ k + x) a := by
  induction xs with
  | nil => intro a j _ _; rfl
  | cons x xs ih =>
    intro a j ha hlen
    have hj : j ≤ m := by simp at hlen; omega
    have hsmall : a < 2 ^ (k * m) :=
      lt_of_lt_of_le ha (Nat.pow_le_pow_right (by omega) (Nat.mul_le_mul_left k hj))
    have hx : x < 2 ^ k := hxs x List.mem_cons_self
    have hnext : a * 2 ^ k + x < 2 ^ (k * (j + 1)) := by
      rw [Nat.mul_succ, Nat.pow_add]
      calc a * 2 ^ k + x < a * 2 ^ k + 2 ^ k := by omega
        _ = (a + 1) * 2 ^ k := (Nat.succ_mul a (2 ^ k)).symm
        _ ≤ 2 ^ (k * j) * 2 ^ k := Nat.mul_le_mul_right _ ha
    rw [run_cons, hshift a hsmall, mul_two_pow_xor_of_lt hx, List.foldl_cons]
    exact ih (fun y hy ↦ hxs y (List.mem_cons_of_mem _ hy)) _ (j + 1) hnext
      (by simp at hlen; omega)

/-- At most `m + 1` symbols of `k` bits: the run from zero is the number they spell. -/
theorem run_zero_eq_digitsValue (xs : List ℕ) (hxs : ∀ x ∈ xs, x < 2 ^ k)
    (hlen : xs.length ≤ m + 1) : run F 0 xs = digitsValue k xs :=
  run_of_small hshift xs hxs 0 0 (by simp) (by omega)

end Digits

/-- Appending the digits of `F^[n] c ^^^ r` (as `n` symbols) to an input that reached `c`
makes the run end at `r`. -/
theorem run_append_digits {F} (hF : ∀ a b, F (a ^^^ b) = F a ^^^ F b) {k m : ℕ}
    (hshift : ∀ a, a < 2 ^ (k * m) → F a = a * 2 ^ k) (c r : ℕ) (ds : List ℕ)
    (hds : ∀ d ∈ ds, d < 2 ^ k) (hlen : ds.length ≤ m + 1)
    (hval : digitsValue k ds = F^[ds.length] c ^^^ r) : run F c ds = r := by
  rw [run_eq_iterate_xor hF, run_zero_eq_digitsValue hshift ds hds hlen, hval, ← Nat.xor_assoc,
    Nat.xor_self, Nat.zero_xor]

end XorChecksum
