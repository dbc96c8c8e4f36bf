import LightningCash.Arith.Spec

/-!
# What the shift loops compute

`operator<<=` and `operator>>=` build their result in a zeroed copy: source limb `i` is split
into a part shifted within its word and a carried-over part, and each is OR-ed into its own
target limb. The proof follows the loop at the level of bits: after the first `n` source limbs,
bit `b` of target limb `j` is exactly the bit the shifted value has there, counting only those
limbs (`shlBit` and `shrBit`). At `n = WIDTH` that is every bit of `toNat a * 2 ^ shift` (cut to
the width), and of `toNat a / 2 ^ shift`.
-/

namespace LightningCash

namespace BaseUint

variable {WIDTH : ℕ}

/-! ## Bits of limbs -/

theorem getD_modify (xs : List UInt32) (i j : ℕ) (f : UInt32 → UInt32) :
    (xs.modify i f).getD j 0 = if i = j ∧ j < xs.length then f (xs.getD j 0) else xs.getD j 0 := by
  simp only [List.getD_eq_getElem?_getD, List.getElem?_modify]
  by_cases hij : i = j
  · subst hij
    by_cases hj : i < xs.length
    · simp [hj]
    · simp [hj]
  · simp [hij]

/-- A guarded `pn[i] |= y` seen from limb `j`: the loop bodies are made of these. -/
theorem getD_ite_modify_or (c : Prop) [Decidable c] (xs : List UInt32) (i j : ℕ) (y : UInt32) :
    (if c then xs.modify i (· ||| y) else xs).getD j 0 =
      (xs.getD j 0 ||| if c ∧ i = j ∧ j < xs.length then y else 0) := by
  by_cases hc : c
  · rw [if_pos hc, getD_modify]
    split_ifs <;> simp_all
  · simp [hc]

theorem length_ite_modify (c : Prop) [Decidable c] (xs : List UInt32) (i : ℕ)
    (f : UInt32 → UInt32) : (if c then xs.modify i f else xs).length = xs.length := by
  split <;> simp

theorem testBit_or (x y : UInt32) (b : ℕ) :
    (x ||| y).toNat.testBit b = (x.toNat.testBit b || y.toNat.testBit b) := by
  rw [UInt32.toNat_or, Nat.testBit_or]

theorem testBit_ite_zero (c : Prop) [Decidable c] (x : UInt32) (b : ℕ) :
    (if c then x else 0).toNat.testBit b = (decide c && x.toNat.testBit b) := by
  split_ifs with h <;> simp [h]

theorem testBit_shiftLeft {s b : ℕ} (x : UInt32) (hs : s < 32) (hb : b < 32) :
    (x <<< s.toUInt32).toNat.testBit b = (decide (s ≤ b) && x.toNat.testBit (b - s)) := by
  have hs' : s.toUInt32.toNat % 32 = s := by
    have : s.toUInt32.toNat = s := by simp; omega
    rw [this, Nat.mod_eq_of_lt hs]
  rw [UInt32.toNat_shiftLeft, hs', Nat.testBit_mod_two_pow, Nat.testBit_shiftLeft]
  simp [hb]

theorem testBit_shiftRight {t : ℕ} (x : UInt32) (ht : t < 32) (b : ℕ) :
    (x >>> t.toUInt32).toNat.testBit b = x.toNat.testBit (b + t) := by
  have ht' : t.toUInt32.toNat % 32 = t := by
    have : t.toUInt32.toNat = t := by simp; omega
    rw [this, Nat.mod_eq_of_lt ht]
  rw [UInt32.toNat_shiftRight, ht', Nat.testBit_shiftRight, add_comm]

/-- A limb has no bits from `32` up. -/
theorem testBit_limb_high (x : UInt32) {b : ℕ} (hb : 32 ≤ b) : x.toNat.testBit b = false :=
  Nat.testBit_lt_two_pow (lt_of_lt_of_le x.toNat_lt (Nat.pow_le_pow_right (by norm_num) hb))

theorem testBit_getD_of_le {xs : List UInt32} {i : ℕ} (hi : xs.length ≤ i) (b : ℕ) :
    (xs.getD i 0).toNat.testBit b = false := by
  rw [List.getD_eq_default _ _ hi]
  simp

/-- Bit `m` of a limb list's value is bit `m % 32` of limb `m / 32`. -/
theorem testBit_limbsVal (xs : List UInt32) (m : ℕ) :
    (limbsVal xs).testBit m = (xs.getD (m / 32) 0).toNat.testBit (m % 32) := by
  rw [limbsVal, Digits.testBit_ofDigits (by norm_num) (limbs_lt xs)]
  congr 1
  rw [List.getD_eq_getElem?_getD, List.getD_eq_getElem?_getD, List.getElem?_map]
  cases xs[m / 32]? <;> rfl

/-! ## `operator<<=` -/

/-- Limb `j` after the loop body for source limb `i`. -/
theorem getD_shlBody (a pn : List UInt32) (k s i j : ℕ) :
    (shlBody a k s pn i).getD j 0 = (pn.getD j 0 |||
      (if j = i + k + 1 ∧ j < pn.length ∧ s ≠ 0 then a.getD i 0 >>> (32 - s).toUInt32 else 0) |||
      (if j = i + k ∧ j < pn.length then a.getD i 0 <<< s.toUInt32 else 0)) := by
  unfold shlBody
  dsimp only
  rw [getD_ite_modify_or, length_ite_modify, getD_ite_modify_or]
  split_ifs <;> first | rfl | (exfalso; omega)

/-- Bit `b` of limb `j` of the left shift by `32 * k + s`, counting source limbs below `n`:
the in-word part of limb `j - k`, or the carried-over top of limb `j - k - 1`. -/
def shlBit (a : List UInt32) (k s n j b : ℕ) : Bool :=
  (decide (k ≤ j ∧ j - k < n ∧ s ≤ b) && (a.getD (j - k) 0).toNat.testBit (b - s)) ||
    (decide (k + 1 ≤ j ∧ j - k - 1 < n ∧ b < s) &&
      (a.getD (j - k - 1) 0).toNat.testBit (b + (32 - s)))

theorem shlBit_zero (a : List UInt32) (k s j b : ℕ) : shlBit a k s 0 j b = false := by
  simp [shlBit]

/-- Counting one more source limb adds the two places it is written to. -/
theorem shlBit_succ (a : List UInt32) (k s n j b : ℕ) :
    shlBit a k s (n + 1) j b =
      (shlBit a k s n j b ||
        (decide (j = n + k + 1 ∧ b < s) && (a.getD n 0).toNat.testBit (b + (32 - s))) ||
        (decide (j = n + k ∧ s ≤ b) && (a.getD n 0).toNat.testBit (b - s))) := by
  unfold shlBit
  by_cases h0 : j = n + k
  · -- limb `n` lands in limb `j` itself
    subst h0
    simp only [show n + k - k = n by omega]
    by_cases hsb : s ≤ b <;> simp [hsb, Bool.or_comm]
  by_cases h1 : j = n + k + 1
  · -- the top of limb `n` carries into limb `j`
    subst h1
    simp only [show n + k + 1 - k = n + 1 by omega]
    by_cases hsb : b < s <;> simp [hsb]
  -- limb `n` does not reach limb `j`
  have e0 : (k ≤ j ∧ j - k < n + 1 ∧ s ≤ b) ↔ (k ≤ j ∧ j - k < n ∧ s ≤ b) := by omega
  have e1 : (k + 1 ≤ j ∧ j - k - 1 < n + 1 ∧ b < s) ↔ (k + 1 ≤ j ∧ j - k - 1 < n ∧ b < s) := by
    omega
  simp only [e0, e1, h0, h1, false_and, decide_false, Bool.false_and, Bool.or_false]

/-- The loop invariant of `operator<<=`, by induction on the number of source limbs done. -/
theorem testBit_foldl_shlBody (a : List UInt32) {k s : ℕ} (hs : s < 32) (W : ℕ) {b : ℕ}
    (hb : b < 32) (n j : ℕ) :
    (((List.range n).foldl (shlBody a k s) (List.replicate W 0)).getD j 0).toNat.testBit b =
      (decide (j < W) && shlBit a k s n j b) := by
  induction n with
  | zero => simp [shlBit_zero]
  | succ n ih =>
    have hlen : ((List.range n).foldl (shlBody a k s) (List.replicate W 0)).length = W := by
      rw [length_foldl_of_length (length_shlBody a k s), List.length_replicate]
    rw [List.range_succ, List.foldl_append, List.foldl_cons, List.foldl_nil, getD_shlBody,
      testBit_or, testBit_or, testBit_ite_zero, testBit_ite_zero, ih, hlen, shlBit_succ,
      testBit_shiftLeft _ hs hb]
    by_cases hbs : b < s
    · -- the carried-over part can only land on bits below `s`
      rw [testBit_shiftRight _ (by omega)]
      by_cases hjW : j < W <;> simp [hjW, hbs, show s ≠ 0 by omega, show ¬ s ≤ b by omega]
    · have hhigh : (a.getD n 0).toNat.testBit (b + (32 - s)) = false :=
        testBit_limb_high _ (by omega)
      by_cases hs0 : s = 0
      · by_cases hjW : j < W <;> simp [hjW, hs0]
      · rw [testBit_shiftRight _ (by omega), hhigh]
        by_cases hjW : j < W <;> simp [hjW, Bool.and_assoc]

theorem pn_shiftLeft (a : BaseUint WIDTH) (shift : ℕ) :
    (a <<< shift).pn = (List.range WIDTH).foldl (shlBody a.pn (shift / 32) (shift % 32))
      (List.replicate WIDTH 0) := rfl

/-- `operator<<=` multiplies by `2 ^ shift`, dropping what leaves the width. -/
theorem toNat_shiftLeft (a : BaseUint WIDTH) (shift : ℕ) :
    (a <<< shift).toNat = a.toNat * 2 ^ shift % 2 ^ (32 * WIDTH) := by
  apply Nat.eq_of_testBit_eq
  intro m
  have hs : shift % 32 < 32 := Nat.mod_lt _ (by norm_num)
  rw [toNat_eq_limbsVal, testBit_limbsVal, pn_shiftLeft,
    testBit_foldl_shlBody _ hs _ (Nat.mod_lt _ (by norm_num)), Nat.testBit_mod_two_pow,
    Nat.testBit_mul_two_pow, toNat_eq_limbsVal, testBit_limbsVal]
  unfold shlBit
  by_cases hW : m < 32 * WIDTH
  swap
  · -- beyond the width both sides are clear
    have hj : ¬ m / 32 < WIDTH := by omega
    simp [hj, hW]
  by_cases hle : shift ≤ m
  swap
  · -- below the shift both sides are clear
    have c0 : ¬ (shift / 32 ≤ m / 32 ∧ m / 32 - shift / 32 < WIDTH ∧ shift % 32 ≤ m % 32) := by
      omega
    have c1 : ¬ (shift / 32 + 1 ≤ m / 32 ∧ m / 32 - shift / 32 - 1 < WIDTH ∧
        m % 32 < shift % 32) := by omega
    rw [decide_eq_false c0, decide_eq_false c1, decide_eq_false hle]
    simp
  rw [decide_eq_true (show m / 32 < WIDTH by omega), decide_eq_true hW, decide_eq_true hle]
  by_cases hsb : shift % 32 ≤ m % 32
  · -- the bit comes from the in-word part of limb `m / 32 - shift / 32`
    have c0 : shift / 32 ≤ m / 32 ∧ m / 32 - shift / 32 < WIDTH ∧ shift % 32 ≤ m % 32 := by
      omega
    have c1 : ¬ (shift / 32 + 1 ≤ m / 32 ∧ m / 32 - shift / 32 - 1 < WIDTH ∧
        m % 32 < shift % 32) := by omega
    have hi : (m - shift) / 32 = m / 32 - shift / 32 := by omega
    have hr : (m - shift) % 32 = m % 32 - shift % 32 := by omega
    rw [decide_eq_true c0, decide_eq_false c1, hi, hr]
    simp
  · -- the bit comes from the top of limb `m / 32 - shift / 32 - 1`
    have c0 : ¬ (shift / 32 ≤ m / 32 ∧ m / 32 - shift / 32 < WIDTH ∧ shift % 32 ≤ m % 32) := by
      omega
    have c1 : shift / 32 + 1 ≤ m / 32 ∧ m / 32 - shift / 32 - 1 < WIDTH ∧
        m % 32 < shift % 32 := by omega
    have hi : (m - shift) / 32 = m / 32 - shift / 32 - 1 := by omega
    have hr : (m - shift) % 32 = m % 32 + (32 - shift % 32) := by omega
    rw [decide_eq_false c0, decide_eq_true c1, hi, hr]
    simp

/-! ## `operator>>=` -/

/-- Limb `j` after the loop body for source limb `i`. -/
theorem getD_shrBody (a pn : List UInt32) (k s i j : ℕ) :
    (shrBody a k s pn i).getD j 0 = (pn.getD j 0 |||
      (if i = j + k + 1 ∧ j < pn.length ∧ s ≠ 0 then a.getD i 0 <<< (32 - s).toUInt32 else 0) |||
      (if i = j + k ∧ j < pn.length then a.getD i 0 >>> s.toUInt32 else 0)) := by
  unfold shrBody
  dsimp only
  rw [getD_ite_modify_or, length_ite_modify, getD_ite_modify_or]
  split_ifs <;> first | rfl | (exfalso; omega)

/-- Bit `b` of limb `j` of the right shift by `32 * k + s`, counting source limbs below `n`:
the bottom of limb `j + k + 1` moved up, or the top of limb `j + k` moved down. -/
def shrBit (a : List UInt32) (k s n j b : ℕ) : Bool :=
  (decide (j + k + 1 < n ∧ s ≠ 0 ∧ 32 - s ≤ b) &&
      (a.getD (j + k + 1) 0).toNat.testBit (b - (32 - s))) ||
    (decide (j + k < n) && (a.getD (j + k) 0).toNat.testBit (b + s))

theorem shrBit_zero (a : List UInt32) (k s j b : ℕ) : shrBit a k s 0 j b = false := by
  simp [shrBit]

/-- Counting one more source limb adds the two places it is written to. -/
theorem shrBit_succ (a : List UInt32) (k s n j b : ℕ) :
    shrBit a k s (n + 1) j b =
      (shrBit a k s n j b ||
        (decide (n = j + k + 1 ∧ s ≠ 0 ∧ 32 - s ≤ b) &&
          (a.getD n 0).toNat.testBit (b - (32 - s))) ||
        (decide (n = j + k) && (a.getD n 0).toNat.testBit (b + s))) := by
  unfold shrBit
  by_cases h0 : n = j + k
  · -- the top of limb `n` moves down into limb `j`
    subst h0
    simp
  by_cases h1 : n = j + k + 1
  · -- the bottom of limb `n` moves up into limb `j`
    subst h1
    simp [Bool.or_comm]
  -- limb `n` does not reach limb `j`
  have e0 : (j + k + 1 < n + 1 ∧ s ≠ 0 ∧ 32 - s ≤ b) ↔ (j + k + 1 < n ∧ s ≠ 0 ∧ 32 - s ≤ b) := by
    omega
  have e1 : j + k < n + 1 ↔ j + k < n := by omega
  simp only [e0, e1, h0, h1, false_and, decide_false, Bool.false_and, Bool.or_false]

/-- The loop invariant of `operator>>=`, by induction on the number of source limbs done. -/
theorem testBit_foldl_shrBody (a : List UInt32) {k s : ℕ} (hs : s < 32) (W : ℕ) {b : ℕ}
    (hb : b < 32) (n j : ℕ) :
    (((List.range n).foldl (shrBody a k s) (List.replicate W 0)).getD j 0).toNat.testBit b =
      (decide (j < W) && shrBit a k s n j b) := by
  induction n with
  | zero => simp [shrBit_zero]
  | succ n ih =>
    have hlen : ((List.range n).foldl (shrBody a k s) (List.replicate W 0)).length = W := by
      rw [length_foldl_of_length (length_shrBody a k s), List.length_replicate]
    rw [List.range_succ, List.foldl_append, List.foldl_cons, List.foldl_nil, getD_shrBody,
      testBit_or, testBit_or, testBit_ite_zero, testBit_ite_zero, ih, hlen, shrBit_succ,
      testBit_shiftRight _ hs]
    by_cases hs0 : s = 0
    · -- no bits move up when the shift is a whole number of limbs
      by_cases hjW : j < W <;> simp [hjW, hs0]
    · rw [testBit_shiftLeft _ (by omega) hb]
      by_cases hjW : j < W <;> simp [hjW, hs0, Bool.and_assoc]

theorem pn_shiftRight (a : BaseUint WIDTH) (shift : ℕ) :
    (a >>> shift).pn = (List.range WIDTH).foldl (shrBody a.pn (shift / 32) (shift % 32))
      (List.replicate WIDTH 0) := rfl

/-- Past the end of the limbs every bit reads as zero, so a bound check adds nothing. -/
theorem decide_lt_and_testBit {xs : List UInt32} {W : ℕ} (hlen : xs.length = W) (i b : ℕ) :
    (decide (i < W) && (xs.getD i 0).toNat.testBit b) = (xs.getD i 0).toNat.testBit b := by
  by_cases h : i < W
  · simp [h]
  · rw [decide_eq_false h, testBit_getD_of_le (by omega), Bool.false_and]

/-- `operator>>=` divides by `2 ^ shift`. -/
theorem toNat_shiftRight (a : BaseUint WIDTH) (shift : ℕ) :
    (a >>> shift).toNat = a.toNat / 2 ^ shift := by
  apply Nat.eq_of_testBit_eq
  intro m
  have hs : shift % 32 < 32 := Nat.mod_lt _ (by norm_num)
  rw [toNat_eq_limbsVal, testBit_limbsVal, pn_shiftRight,
    testBit_foldl_shrBody _ hs _ (Nat.mod_lt _ (by norm_num)), Nat.testBit_div_two_pow,
    toNat_eq_limbsVal, testBit_limbsVal]
  unfold shrBit
  by_cases hW : m / 32 < WIDTH
  swap
  · -- beyond the width both sides are clear
    have hlen : a.pn.length ≤ (m + shift) / 32 := by rw [a.length_pn]; omega
    rw [decide_eq_false hW, testBit_getD_of_le hlen, Bool.false_and]
  rw [decide_eq_true hW, Bool.true_and]
  by_cases hbs : m % 32 + shift % 32 < 32
  · -- the bit comes from the top of limb `m / 32 + shift / 32`
    have c0 : ¬ (m / 32 + shift / 32 + 1 < WIDTH ∧ shift % 32 ≠ 0 ∧ 32 - shift % 32 ≤ m % 32) := by
      omega
    have hi : (m + shift) / 32 = m / 32 + shift / 32 := by omega
    have hr : (m + shift) % 32 = m % 32 + shift % 32 := by omega
    rw [decide_eq_false c0, hi, hr, decide_lt_and_testBit a.length_pn, Bool.false_and,
      Bool.false_or]
  · -- the bit comes from the bottom of limb `m / 32 + shift / 32 + 1`
    have c0 : (m / 32 + shift / 32 + 1 < WIDTH ∧ shift % 32 ≠ 0 ∧ 32 - shift % 32 ≤ m % 32) ↔
        m / 32 + shift / 32 + 1 < WIDTH := by omega
    have hi : (m + shift) / 32 = m / 32 + shift / 32 + 1 := by omega
    have hr : (m + shift) % 32 = m % 32 - (32 - shift % 32) := by omega
    simp only [c0]
    rw [testBit_limb_high _ (show 32 ≤ m % 32 + shift % 32 by omega), hi, hr,
      decide_lt_and_testBit a.length_pn, Bool.and_false, Bool.or_false]

end BaseUint

end LightningCash
