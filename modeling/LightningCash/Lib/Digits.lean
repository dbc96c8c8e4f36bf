import Mathlib

/-!
# Digit lists in a power-of-two base

Facts about `Nat.ofDigits (2 ^ w)` on lists whose digits are all below `2 ^ w`, the way a
fixed-width integer stored as little-endian machine words denotes a number. They are what a
limb-by-limb loop needs: the value bound, bit `j` of the value as bit `j % w` of digit `j / w`,
and the most-significant-first reading of the same digits. The last part writes a number as a
fixed number of digits in any base, least significant first, as a little-endian integer of a
fixed width is laid out in bytes, and reads it back.

Nothing here mentions a particular word width.
-/

namespace Digits

open Nat

/-- A remainder of a sum with one digit below the base: the digit stays, the rest wraps. -/
theorem add_mul_mod_mul {a b : ℕ} (z m : ℕ) (h : a < b) :
    (a + b * z) % (b * m) = a + b * (z % m) := by
  have hb : 0 < b := lt_of_le_of_lt (Nat.zero_le a) h
  rw [Nat.mod_mul, Nat.add_mul_mod_self_left, Nat.mod_eq_of_lt h, Nat.add_mul_div_left _ _ hb,
    Nat.div_eq_of_lt h, zero_add]

variable {w : ℕ}

theorem ofDigits_lt_two_pow (hw : 0 < w) {ds : List ℕ} (h : ∀ d ∈ ds, d < 2 ^ w) :
    ofDigits (2 ^ w) ds < 2 ^ (w * ds.length) := by
  rw [pow_mul]
  exact ofDigits_lt_base_pow_length (Nat.one_lt_two_pow hw.ne') h

/-- Bit `j` of the value is bit `j % w` of digit `j / w`. -/
theorem testBit_ofDigits (hw : 0 < w) {ds : List ℕ} (h : ∀ d ∈ ds, d < 2 ^ w) (j : ℕ) :
    (ofDigits (2 ^ w) ds).testBit j = (ds.getD (j / w) 0).testBit (j % w) := by
  induction ds generalizing j with
  | nil => simp
  | cons d ds ih =>
    have hd : d < 2 ^ w := h d List.mem_cons_self
    rw [ofDigits_cons, add_comm, Nat.testBit_two_pow_mul_add _ hd]
    by_cases hj : j < w
    · rw [if_pos hj, Nat.div_eq_of_lt hj, Nat.mod_eq_of_lt hj]
      rfl
    · have hdiv : j / w = (j - w) / w + 1 := Nat.div_eq_sub_div hw (by omega)
      have hmod : j % w = (j - w) % w := Nat.mod_eq_sub_mod (by omega)
      rw [if_neg hj, ih (fun x hx ↦ h x (List.mem_cons_of_mem _ hx)), hdiv, hmod]
      rfl

/-! ## Reading digits most significant first -/

/-- The value of digits listed most significant first, each worth `2 ^ w` of the next. -/
def topValue (w : ℕ) : List ℕ → ℕ
  | [] => 0
  | d :: ds => d * 2 ^ (w * ds.length) + topValue w ds

@[simp] theorem topValue_nil (w : ℕ) : topValue w [] = 0 := rfl

theorem topValue_cons (w d : ℕ) (ds : List ℕ) :
    topValue w (d :: ds) = d * 2 ^ (w * ds.length) + topValue w ds := rfl

theorem topValue_append_singleton (w : ℕ) (ds : List ℕ) (d : ℕ) :
    topValue w (ds ++ [d]) = 2 ^ w * topValue w ds + d := by
  induction ds with
  | nil => simp [topValue_cons]
  | cons e ds ih =>
    rw [List.cons_append, topValue_cons, topValue_cons, ih, List.length_append,
      List.length_singleton, Nat.mul_add_one, pow_add]
    ring

/-- Reading the reversed list from the top is reading the list from the bottom. -/
theorem topValue_reverse (w : ℕ) (ds : List ℕ) : topValue w ds.reverse = ofDigits (2 ^ w) ds := by
  induction ds with
  | nil => rfl
  | cons d ds ih =>
    rw [List.reverse_cons, topValue_append_singleton, ih, ofDigits_cons]
    ring

theorem topValue_lt (hw : 0 < w) {ds : List ℕ} (h : ∀ d ∈ ds, d < 2 ^ w) :
    topValue w ds < 2 ^ (w * ds.length) := by
  rw [← List.reverse_reverse ds, topValue_reverse, List.length_reverse]
  exact ofDigits_lt_two_pow hw fun d hd ↦ h d (List.mem_reverse.mp hd)

/-- Two top-first readings of the same length are ordered by their first differing digit. -/
theorem topValue_cons_lt_of_lt (hw : 0 < w) {d e : ℕ} {ds es : List ℕ}
    (hlen : ds.length = es.length) (hds : ∀ x ∈ ds, x < 2 ^ w) (hde : d < e) :
    topValue w (d :: ds) < topValue w (e :: es) := by
  rw [topValue_cons, topValue_cons, ← hlen]
  have hlt := topValue_lt hw hds
  calc d * 2 ^ (w * ds.length) + topValue w ds
      < d * 2 ^ (w * ds.length) + 2 ^ (w * ds.length) := by omega
    _ = (d + 1) * 2 ^ (w * ds.length) := by ring
    _ ≤ e * 2 ^ (w * ds.length) := Nat.mul_le_mul_right _ hde
    _ ≤ e * 2 ^ (w * ds.length) + topValue w es := Nat.le_add_right _ _

/-! ## A fixed number of digits -/

/-- The `k` lowest base-`b` digits of `n`, least significant first. -/
def lowDigits (b : ℕ) : ℕ → ℕ → List ℕ
  | 0, _ => []
  | k + 1, n => n % b :: lowDigits b k (n / b)

@[simp] theorem length_lowDigits (b k n : ℕ) : (lowDigits b k n).length = k := by
  induction k generalizing n with
  | zero => rfl
  | succ k ih => rw [lowDigits, List.length_cons, ih]

theorem lowDigits_lt {b : ℕ} (hb : 0 < b) (k n : ℕ) : ∀ d ∈ lowDigits b k n, d < b := by
  induction k generalizing n with
  | zero => simp [lowDigits]
  | succ k ih =>
    intro d hd
    rcases List.mem_cons.mp hd with rfl | hd
    · exact Nat.mod_lt n hb
    · exact ih (n / b) d hd

/-- The digits denote the number modulo the range of `k` digits. -/
theorem ofDigits_lowDigits (b k n : ℕ) : ofDigits b (lowDigits b k n) = n % b ^ k := by
  induction k generalizing n with
  | zero => simp [lowDigits, Nat.mod_one]
  | succ k ih => rw [lowDigits, ofDigits_cons, ih, pow_succ', Nat.mod_mul]

/-- A list of digits below the base is the fixed-length digit list of its value. -/
theorem lowDigits_ofDigits {b : ℕ} {ds : List ℕ} (h : ∀ d ∈ ds, d < b) :
    lowDigits b ds.length (ofDigits b ds) = ds := by
  induction ds with
  | nil => rfl
  | cons d ds ih =>
    have hd : d < b := h d List.mem_cons_self
    have hb : 0 < b := lt_of_le_of_lt (Nat.zero_le d) hd
    rw [List.length_cons, lowDigits, ofDigits_cons, Nat.add_mul_mod_self_left, Nat.mod_eq_of_lt hd,
      Nat.add_mul_div_left _ _ hb, Nat.div_eq_of_lt hd, zero_add,
      ih fun x hx ↦ h x (List.mem_cons_of_mem d hx)]

end Digits
