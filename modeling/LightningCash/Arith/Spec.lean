import LightningCash.Lib.Digits
import LightningCash.Arith.BaseUint

/-!
# What the `base_uint` loops compute

Each limb loop of `LightningCash.Arith.BaseUint` is given its meaning on `toNat`: the carry
loops of `operator+=` and `operator*=(uint32_t)` are exact modulo `2^(32 * WIDTH)`, the
increment wraps, negation is the two's complement and subtraction of a smaller value is exact,
`CompareTo` orders by value and `bits()` is the bit length.

The loop lemmas are stated on limb lists, by induction on the list the loop walks; the 64-bit
intermediates never wrap, which is the first fact each step proves.
-/

namespace LightningCash

namespace BaseUint

open Digits

variable {WIDTH : ℕ}

/-- The number a limb list denotes. -/
def limbsVal (xs : List UInt32) : ℕ := Nat.ofDigits (2 ^ 32) (xs.map UInt32.toNat)

@[simp] theorem limbsVal_nil : limbsVal [] = 0 := rfl

@[simp] theorem limbsVal_cons (x : UInt32) (xs : List UInt32) :
    limbsVal (x :: xs) = x.toNat + 2 ^ 32 * limbsVal xs := by
  simp [limbsVal, Nat.ofDigits_cons]

theorem toNat_eq_limbsVal (a : BaseUint WIDTH) : a.toNat = limbsVal a.pn := rfl

theorem limbs_lt (xs : List UInt32) : ∀ d ∈ xs.map UInt32.toNat, d < 2 ^ 32 := by
  simp only [List.mem_map]
  rintro d ⟨x, -, rfl⟩
  exact x.toNat_lt

theorem limbsVal_lt (xs : List UInt32) : limbsVal xs < 2 ^ (32 * xs.length) := by
  have h := ofDigits_lt_two_pow (w := 32) (by norm_num) (limbs_lt xs)
  rwa [List.length_map] at h

theorem toNat_lt (a : BaseUint WIDTH) : a.toNat < 2 ^ (32 * WIDTH) := by
  have h := limbsVal_lt a.pn
  rwa [a.length_pn] at h

/-- Values of the same width are equal when they denote the same number. -/
theorem ext_toNat {a b : BaseUint WIDTH} (h : a.toNat = b.toNat) : a = b := by
  obtain ⟨pa, ha⟩ := a
  obtain ⟨pb, hb⟩ := b
  have hmap : pa.map UInt32.toNat = pb.map UInt32.toNat :=
    Nat.ofDigits_inj_of_len_eq (by norm_num) (by simp [ha, hb]) (limbs_lt pa) (limbs_lt pb) h
  have hpn : pa = pb := List.map_injective_iff.mpr (fun x y hxy ↦ UInt32.toNat_inj.mp hxy) hmap
  subst hpn
  rfl

theorem pow_width_succ (m : ℕ) : 2 ^ (32 * (m + 1)) = 2 ^ 32 * 2 ^ (32 * m) := by
  rw [Nat.mul_succ, pow_add, mul_comm]

/-- `n >> 32` on a 64-bit word is the high word. -/
theorem toNat_shiftRight_32 (n : UInt64) : (n >>> 32).toNat = n.toNat / 2 ^ 32 := by
  rw [UInt64.toNat_shiftRight]
  simp [Nat.shiftRight_eq_div_pow]

/-! ## Carry loops -/

/-- **The addition loop.** With a carry below `2³²`, the limbs are the sum modulo the width;
the carry out of the top limb is dropped. -/
theorem limbsVal_addCarry : ∀ (xs ys : List UInt32) (c : UInt64), c.toNat < 2 ^ 32 →
    xs.length = ys.length →
    limbsVal (addCarry c xs ys) = (limbsVal xs + limbsVal ys + c.toNat) % 2 ^ (32 * xs.length)
  | [], [], c, _, _ => by simp [addCarry, Nat.mod_one]
  | x :: xs, y :: ys, c, hc, hlen => by
    have hx := x.toNat_lt
    have hy := y.toNat_lt
    -- the 64-bit sum `carry + pn[i] + b.pn[i]` does not wrap
    have hn : (c + x.toUInt64 + y.toUInt64).toNat = c.toNat + x.toNat + y.toNat := by
      simp only [UInt64.toNat_add, UInt32.toNat_toUInt64]
      omega
    have hcarry : ((c + x.toUInt64 + y.toUInt64) >>> 32).toNat < 2 ^ 32 := by
      rw [toNat_shiftRight_32, hn]
      omega
    simp only [addCarry, limbsVal_cons, List.length_cons]
    rw [limbsVal_addCarry xs ys _ hcarry (by simpa using hlen)]
    simp only [UInt64.toNat_toUInt32, toNat_shiftRight_32, hn]
    have hsplit : x.toNat + 2 ^ 32 * limbsVal xs + (y.toNat + 2 ^ 32 * limbsVal ys) + c.toNat =
        (c.toNat + x.toNat + y.toNat) % 2 ^ 32 +
          2 ^ 32 * (limbsVal xs + limbsVal ys + (c.toNat + x.toNat + y.toNat) / 2 ^ 32) := by
      have := Nat.mod_add_div (c.toNat + x.toNat + y.toNat) (2 ^ 32)
      omega
    rw [hsplit, pow_width_succ, add_mul_mod_mul _ _ (Nat.mod_lt _ (by norm_num))]
  | [], _ :: _, _, _, hlen => by simp at hlen
  | _ :: _, [], _, _, hlen => by simp at hlen

/-- **The multiply-by-word loop.** With a carry below `2³²`, the limbs are the product plus
the carry modulo the width. -/
theorem limbsVal_mulWordCarry (b32 : UInt32) : ∀ (xs : List UInt32) (c : UInt64),
    c.toNat < 2 ^ 32 →
    limbsVal (mulWordCarry b32 c xs) = (limbsVal xs * b32.toNat + c.toNat) % 2 ^ (32 * xs.length)
  | [], c, _ => by simp [mulWordCarry, Nat.mod_one]
  | x :: xs, c, hc => by
    have hx := x.toNat_lt
    have hb := b32.toNat_lt
    have hprod : b32.toNat * x.toNat ≤ (2 ^ 32 - 1) * (2 ^ 32 - 1) :=
      Nat.mul_le_mul (by omega) (by omega)
    -- the 64-bit `carry + b32 * pn[i]` does not wrap
    have hn : (c + b32.toUInt64 * x.toUInt64).toNat = c.toNat + b32.toNat * x.toNat := by
      simp only [UInt64.toNat_add, UInt64.toNat_mul, UInt32.toNat_toUInt64]
      rw [Nat.mod_eq_of_lt (by omega), Nat.mod_eq_of_lt (by omega)]
    have hcarry : ((c + b32.toUInt64 * x.toUInt64) >>> 32).toNat < 2 ^ 32 := by
      rw [toNat_shiftRight_32, hn]
      omega
    simp only [mulWordCarry, limbsVal_cons, List.length_cons]
    rw [limbsVal_mulWordCarry b32 xs _ hcarry]
    simp only [UInt64.toNat_toUInt32, toNat_shiftRight_32, hn]
    have hsplit : (x.toNat + 2 ^ 32 * limbsVal xs) * b32.toNat + c.toNat =
        (c.toNat + b32.toNat * x.toNat) % 2 ^ 32 +
          2 ^ 32 * (limbsVal xs * b32.toNat + (c.toNat + b32.toNat * x.toNat) / 2 ^ 32) := by
      have := Nat.mod_add_div (c.toNat + b32.toNat * x.toNat) (2 ^ 32)
      linarith
    rw [hsplit, pow_width_succ, add_mul_mod_mul _ _ (Nat.mod_lt _ (by norm_num))]

/-- **The increment loop** wraps at the width. -/
theorem limbsVal_incLoop : ∀ xs : List UInt32,
    limbsVal (incLoop xs) = (limbsVal xs + 1) % 2 ^ (32 * xs.length)
  | [] => by simp [incLoop]
  | x :: xs => by
    have hx := x.toNat_lt
    have hlt := limbsVal_lt xs
    simp only [incLoop, limbsVal_cons, List.length_cons, pow_width_succ]
    by_cases hwrap : x + 1 = 0
    · -- the limb was `0xffffffff`: it becomes zero and the carry moves up
      have hx' : x.toNat = 2 ^ 32 - 1 := by
        have := congrArg UInt32.toNat hwrap
        simp only [UInt32.toNat_add, UInt32.toNat_one, UInt32.toNat_zero] at this
        omega
      rw [if_pos hwrap, limbsVal_incLoop xs, hwrap, UInt32.toNat_zero, zero_add, hx',
        show 2 ^ 32 - 1 + 2 ^ 32 * limbsVal xs + 1 = 0 + 2 ^ 32 * (limbsVal xs + 1) by omega,
        add_mul_mod_mul _ _ (by norm_num), zero_add]
    · have hx' : (x + 1).toNat = x.toNat + 1 := by
        have hne : (x + 1).toNat ≠ 0 := fun h ↦ hwrap (UInt32.toNat_inj.mp (by simpa using h))
        simp only [UInt32.toNat_add, UInt32.toNat_one] at hne ⊢
        omega
      have hlimb : x.toNat + 1 < 2 ^ 32 := hx' ▸ (x + 1).toNat_lt
      rw [if_neg hwrap, hx', Nat.mod_eq_of_lt]
      · omega
      · calc x.toNat + 2 ^ 32 * limbsVal xs + 1 < 2 ^ 32 + 2 ^ 32 * limbsVal xs := by omega
          _ = 2 ^ 32 * (limbsVal xs + 1) := by ring
          _ ≤ 2 ^ 32 * 2 ^ (32 * xs.length) := Nat.mul_le_mul_left _ hlt

/-- The complement loop, in additive form: a limb list and its complement fill the width. -/
theorem limbsVal_map_not_add : ∀ xs : List UInt32,
    limbsVal (xs.map (~~~ ·)) + limbsVal xs + 1 = 2 ^ (32 * xs.length)
  | [] => by simp
  | x :: xs => by
    have hx := x.toNat_lt
    have ih := limbsVal_map_not_add xs
    simp only [List.map_cons, limbsVal_cons, UInt32.toNat_not, List.length_cons, pow_width_succ,
      show UInt32.size = 2 ^ 32 from rfl]
    rw [← ih]
    omega

/-! ## The operators on `toNat` -/

theorem toNat_complement (a : BaseUint WIDTH) :
    a.complement.toNat = 2 ^ (32 * WIDTH) - 1 - a.toNat := by
  have h := limbsVal_map_not_add a.pn
  rw [a.length_pn] at h
  simp only [complement, toNat_eq_limbsVal]
  omega

theorem toNat_increment (a : BaseUint WIDTH) :
    a.increment.toNat = (a.toNat + 1) % 2 ^ (32 * WIDTH) := by
  simp only [increment, toNat_eq_limbsVal]
  rw [limbsVal_incLoop, a.length_pn]

/-- `operator-()` is the two's complement. -/
theorem toNat_negate (a : BaseUint WIDTH) :
    a.negate.toNat = (2 ^ (32 * WIDTH) - a.toNat) % 2 ^ (32 * WIDTH) := by
  have hlt := a.toNat_lt
  rw [negate, toNat_increment, toNat_complement]
  congr 1
  omega

theorem toNat_add (a b : BaseUint WIDTH) : (a + b).toNat = (a.toNat + b.toNat) % 2 ^ (32 * WIDTH) := by
  show (a.add b).toNat = _
  simp only [add, toNat_eq_limbsVal]
  rw [limbsVal_addCarry _ _ _ (by simp) (by rw [a.length_pn, b.length_pn]), a.length_pn]
  simp

theorem toNat_sub (a b : BaseUint WIDTH) :
    (a - b).toNat = (a.toNat + (2 ^ (32 * WIDTH) - b.toNat)) % 2 ^ (32 * WIDTH) := by
  show (a.add b.negate).toNat = _
  rw [show a.add b.negate = a + b.negate from rfl, toNat_add, toNat_negate, Nat.add_mod_mod]

/-- Subtracting a value that is not larger is exact. -/
theorem toNat_sub_of_le {a b : BaseUint WIDTH} (h : b.toNat ≤ a.toNat) :
    (a - b).toNat = a.toNat - b.toNat := by
  have hlt := a.toNat_lt
  rw [toNat_sub, show a.toNat + (2 ^ (32 * WIDTH) - b.toNat) = a.toNat - b.toNat + 2 ^ (32 * WIDTH)
    by omega, Nat.add_mod_right, Nat.mod_eq_of_lt (by omega)]

theorem toNat_mulWord (a : BaseUint WIDTH) (b32 : UInt32) :
    (a * b32).toNat = a.toNat * b32.toNat % 2 ^ (32 * WIDTH) := by
  show (a.mulWord b32).toNat = _
  simp only [mulWord, toNat_eq_limbsVal]
  rw [limbsVal_mulWordCarry _ _ _ (by simp), a.length_pn]
  simp

theorem limbsVal_replicate_zero (n : ℕ) : limbsVal (List.replicate n 0) = 0 := by
  induction n with
  | zero => rfl
  | succ n ih => simp [List.replicate_succ, ih]

@[simp] theorem toNat_zero : (zero : BaseUint WIDTH).toNat = 0 := limbsVal_replicate_zero WIDTH

theorem toNat_ofUInt64 {W : ℕ} (b : UInt64) : (ofUInt64 b : BaseUint (W + 2)).toNat = b.toNat := by
  simp only [ofUInt64, toNat_eq_limbsVal, limbsVal_cons, limbsVal_replicate_zero,
    UInt64.toNat_toUInt32, toNat_shiftRight_32]
  have := Nat.mod_add_div b.toNat (2 ^ 32)
  have hb := b.toNat_lt
  rw [Nat.mod_eq_of_lt (a := b.toNat / 2 ^ 32) (by omega)]
  omega

/-! ## Comparison -/

/-- The top-first value of a limb list. -/
theorem topValue_map_reverse (xs : List UInt32) :
    topValue 32 (xs.reverse.map UInt32.toNat) = limbsVal xs := by
  rw [List.map_reverse, topValue_reverse]
  rfl

/-- **`CompareTo` loop.** Scanning equal-length limb lists from the top orders them by
value. -/
theorem compareFromTop_eq : ∀ (xs ys : List UInt32), xs.length = ys.length →
    compareFromTop xs ys =
      let u := topValue 32 (xs.map UInt32.toNat)
      let v := topValue 32 (ys.map UInt32.toNat)
      if u < v then -1 else if v < u then 1 else 0
  | [], [], _ => by simp [compareFromTop]
  | x :: xs, y :: ys, hlen => by
    have hlen' : (xs.map UInt32.toNat).length = (ys.map UInt32.toNat).length := by
      simpa using hlen
    simp only [compareFromTop, List.map_cons]
    rcases lt_trichotomy x.toNat y.toNat with hxy | hxy | hxy
    · have hlt := topValue_cons_lt_of_lt (by norm_num) hlen' (limbs_lt xs) hxy
      rw [if_pos (UInt32.lt_iff_toNat_lt.mpr hxy), if_pos hlt]
    · have hxy' : x = y := UInt32.toNat_inj.mp hxy
      subst hxy'
      rw [if_neg (UInt32.lt_irrefl x), if_neg (UInt32.lt_irrefl x),
        compareFromTop_eq xs ys (by simpa using hlen)]
      simp only [topValue_cons, hlen', List.length_map, add_lt_add_iff_left]
    · have hlt := topValue_cons_lt_of_lt (by norm_num) hlen'.symm (limbs_lt ys) hxy
      have hnot : ¬ x < y := fun h ↦ absurd (UInt32.lt_iff_toNat_lt.mp h) (by omega)
      rw [if_neg hnot, if_pos (UInt32.lt_iff_toNat_lt.mpr hxy), if_neg (not_lt.mpr hlt.le),
        if_pos hlt]
  | [], _ :: _, hlen => by simp at hlen
  | _ :: _, [], hlen => by simp at hlen

theorem CompareTo_eq (a b : BaseUint WIDTH) :
    a.CompareTo b = if a.toNat < b.toNat then -1 else if b.toNat < a.toNat then 1 else 0 := by
  rw [CompareTo, compareFromTop_eq _ _ (by simp [a.length_pn, b.length_pn]), topValue_map_reverse,
    topValue_map_reverse]
  rfl

theorem lt_iff_toNat_lt {a b : BaseUint WIDTH} : a < b ↔ a.toNat < b.toNat := by
  show a.CompareTo b < 0 ↔ _
  rw [CompareTo_eq]
  split_ifs with h1 h2
  · simp [h1]
  · simp [h1]
  · simp [h1]

theorem le_iff_toNat_le {a b : BaseUint WIDTH} : a ≤ b ↔ a.toNat ≤ b.toNat := by
  show a.CompareTo b ≤ 0 ↔ _
  rw [CompareTo_eq]
  split_ifs with h1 h2
  · simp [h1.le]
  · simp [h2]
  · simp only [le_refl, true_iff]
    omega

theorem CompareTo_nonneg_iff {a b : BaseUint WIDTH} : 0 ≤ a.CompareTo b ↔ b.toNat ≤ a.toNat := by
  rw [CompareTo_eq]
  split_ifs with h1 h2
  · simp [h1]
  · simp [h2.le]
  · simp only [le_refl, true_iff]
    omega

/-! ## Bit length -/

theorem toNat_one_shiftLeft {n : ℕ} (hn : n < 32) : ((1 : UInt32) <<< n.toUInt32).toNat = 2 ^ n := by
  rw [UInt32.toNat_shiftLeft]
  have h32 : n.toUInt32.toNat % 32 = n := by
    have hn' : n.toUInt32.toNat = n := by simp; omega
    rw [hn', Nat.mod_eq_of_lt hn]
  rw [h32, UInt32.toNat_one, Nat.one_shiftLeft, Nat.mod_eq_of_lt (Nat.pow_lt_pow_right (by norm_num) hn)]

/-- The mask test of `bits()` reads bit `n` of the limb. -/
theorem and_shiftLeft_ne_zero (x : UInt32) {n : ℕ} (hn : n < 32) :
    x &&& ((1 : UInt32) <<< n.toUInt32) ≠ 0 ↔ x.toNat.testBit n := by
  rw [ne_eq, ← UInt32.toNat_inj, UInt32.toNat_and, toNat_one_shiftLeft hn, UInt32.toNat_zero,
    Nat.and_two_pow]
  cases x.toNat.testBit n <;> simp

/-- The inner scan of `bits()` finds the bit length of a nonzero limb below `2 ^ (nbits + 1)`. -/
theorem limbBits_eq_size (x : UInt32) (hx : x ≠ 0) :
    ∀ nbits, nbits < 32 → x.toNat < 2 ^ (nbits + 1) → limbBits x nbits = Nat.size x.toNat
  | 0, _, hlt => by
    have hx' : x.toNat ≠ 0 := fun h ↦ hx (UInt32.toNat_inj.mp (by simpa using h))
    have h1 : x.toNat = 1 := by omega
    rw [limbBits, h1, Nat.size_one]
  | nbits + 1, hn, hlt => by
    by_cases hbit : x.toNat.testBit (nbits + 1)
    · rw [limbBits, if_pos ((and_shiftLeft_ne_zero x hn).mpr hbit)]
      refine le_antisymm (Nat.lt_size.mpr (Nat.ge_two_pow_of_testBit hbit)) ?_
      exact Nat.size_le.mpr hlt
    · rw [limbBits, if_neg (fun h ↦ hbit ((and_shiftLeft_ne_zero x hn).mp h))]
      refine limbBits_eq_size x hx nbits (by omega) (Nat.lt_pow_two_of_testBit _ fun j hj ↦ ?_)
      rcases Nat.lt_or_ge j (nbits + 2) with hj' | hj'
      · rw [show j = nbits + 1 by omega]
        simpa using hbit
      · exact Nat.testBit_lt_two_pow (lt_of_lt_of_le hlt (Nat.pow_le_pow_right (by norm_num) hj'))

/-- Prepending a nonzero top digit adds its bit length on top of the lower digits. -/
theorem size_mul_two_pow_add {x r m : ℕ} (hx : x ≠ 0) (hr : r < 2 ^ m) :
    Nat.size (x * 2 ^ m + r) = Nat.size x + m := by
  have hsx : 0 < Nat.size x := Nat.size_pos.mpr (Nat.pos_of_ne_zero hx)
  have hlow : 2 ^ (Nat.size x - 1) ≤ x := Nat.lt_size.mp (by omega)
  have hhigh : x + 1 ≤ 2 ^ Nat.size x := Nat.lt_size_self x
  apply le_antisymm
  · apply Nat.size_le.mpr
    calc x * 2 ^ m + r < (x + 1) * 2 ^ m := by rw [add_mul, one_mul]; omega
      _ ≤ 2 ^ Nat.size x * 2 ^ m := Nat.mul_le_mul_right _ hhigh
      _ = 2 ^ (Nat.size x + m) := (pow_add _ _ _).symm
  · have h : Nat.size x - 1 + m < Nat.size (x * 2 ^ m + r) := by
      apply Nat.lt_size.mpr
      calc 2 ^ (Nat.size x - 1 + m) = 2 ^ (Nat.size x - 1) * 2 ^ m := pow_add _ _ _
        _ ≤ x * 2 ^ m := Nat.mul_le_mul_right _ hlow
        _ ≤ x * 2 ^ m + r := Nat.le_add_right _ _
    omega

/-- **The `bits()` scan.** From the top limb down, the first nonzero limb decides. -/
theorem bitsFromTop_eq_size : ∀ xs : List UInt32,
    bitsFromTop xs = Nat.size (topValue 32 (xs.map UInt32.toNat))
  | [] => by simp [bitsFromTop]
  | x :: xs => by
    have hlt : topValue 32 (xs.map UInt32.toNat) < 2 ^ (32 * xs.length) := by
      simpa using topValue_lt (w := 32) (by norm_num) (limbs_lt xs)
    rw [bitsFromTop, List.map_cons, topValue_cons, List.length_map]
    by_cases hx : x = 0
    · rw [if_neg (not_not.mpr hx), bitsFromTop_eq_size xs, hx, UInt32.toNat_zero, zero_mul,
        zero_add]
    · have hx' : x.toNat ≠ 0 := fun h ↦ hx (UInt32.toNat_inj.mp (by simpa using h))
      rw [if_pos hx, limbBits_eq_size x hx 31 (by norm_num) x.toNat_lt,
        size_mul_two_pow_add hx' hlt, add_comm]

/-- `bits()` is the bit length of the value. -/
theorem bits_eq_size (a : BaseUint WIDTH) : a.bits = Nat.size a.toNat := by
  rw [bits, bitsFromTop_eq_size, topValue_map_reverse]
  rfl

end BaseUint

end LightningCash
