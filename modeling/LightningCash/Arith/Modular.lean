import LightningCash.Arith.Uint256

/-!
# `arith_uint256` as the integers modulo `2 ^ 256`

The operators of `base_uint` not covered by `LightningCash.Arith.Spec`, on `toNat`: the full
product of `operator*=(const base_uint &)`, `operator--`, and the byte conversions between
`arith_uint256` and the blob `uint256`. With the carry loops, the shifts, `CompareTo` and
`bits()` proved before, every arithmetic operator of `arith_uint256` is the operation on its
value modulo `2 ^ 256`; `arith_uint256_modular` collects them.

The product is built row by row. Row `j` walks the limbs `pn[j], …` and reads the old value's
limb `a.pn[j]`; its invariant keeps the limbs it has not reached, so each row adds
`a.pn[j] * b` to what it walks, cut to that width. The 64-bit step
`carry + pn[i + j] + a.pn[j] * b.pn[i]` is at most `2 ^ 64 - 1` and never wraps.
-/

namespace LightningCash

namespace BaseUint

open Digits

variable {WIDTH : ℕ}

/-! ## The product -/

/-- A limb list is its first limb and the rest; past the end both read as zero, as `b.pn[i]`
is only read below the width. -/
theorem limbsVal_headD_tail (ys : List UInt32) :
    limbsVal ys = (ys.headD 0).toNat + 2 ^ 32 * limbsVal ys.tail := by
  cases ys <;> simp

/-- The 64-bit step of the product, `carry + pn[i + j] + a.pn[j] * b.pn[i]`, never wraps. -/
theorem toNat_mulStep {c : UInt64} (hc : c.toNat < 2 ^ 32) (p aj y : UInt32) :
    (c + p.toUInt64 + aj.toUInt64 * y.toUInt64).toNat = c.toNat + p.toNat + aj.toNat * y.toNat := by
  have hp := p.toNat_lt
  have hprod : aj.toNat * y.toNat ≤ (2 ^ 32 - 1) * (2 ^ 32 - 1) :=
    Nat.mul_le_mul (by have := aj.toNat_lt; omega) (by have := y.toNat_lt; omega)
  simp only [UInt64.toNat_add, UInt64.toNat_mul, UInt32.toNat_toUInt64]
  rw [Nat.mod_eq_of_lt (by omega), Nat.mod_eq_of_lt (by omega), Nat.mod_eq_of_lt (by omega)]

/-- **The row loop.** With a carry below `2³²`, one row adds `a.pn[j] * b` and the carry to
the limbs it walks, modulo their width. -/
theorem limbsVal_mulRowCarry (aj : UInt32) : ∀ (ps ys : List UInt32) (c : UInt64),
    c.toNat < 2 ^ 32 →
    limbsVal (mulRowCarry aj c ps ys) =
      (limbsVal ps + aj.toNat * limbsVal ys + c.toNat) % 2 ^ (32 * ps.length)
  | [], ys, c, _ => by simp [mulRowCarry, Nat.mod_one]
  | p :: ps, ys, c, hc => by
    have hn := toNat_mulStep hc p aj (ys.headD 0)
    have hprod : aj.toNat * (ys.headD 0).toNat ≤ (2 ^ 32 - 1) * (2 ^ 32 - 1) :=
      Nat.mul_le_mul (by have := aj.toNat_lt; omega) (by have := (ys.headD 0).toNat_lt; omega)
    have hcarry : ((c + p.toUInt64 + aj.toUInt64 * (ys.headD 0).toUInt64) >>> 32).toNat < 2 ^ 32 := by
      rw [toNat_shiftRight_32, hn]
      have := p.toNat_lt
      omega
    simp only [mulRowCarry, limbsVal_cons, List.length_cons]
    rw [limbsVal_mulRowCarry aj ps ys.tail _ hcarry]
    simp only [UInt64.toNat_toUInt32, toNat_shiftRight_32, hn]
    -- the step's sum splits into the limb written and the carry passed on
    have hsplit : p.toNat + 2 ^ 32 * limbsVal ps + aj.toNat * limbsVal ys + c.toNat =
        (c.toNat + p.toNat + aj.toNat * (ys.headD 0).toNat) % 2 ^ 32 +
          2 ^ 32 * (limbsVal ps + aj.toNat * limbsVal ys.tail +
            (c.toNat + p.toNat + aj.toNat * (ys.headD 0).toNat) / 2 ^ 32) := by
      have hdiv := Nat.mod_add_div (c.toNat + p.toNat + aj.toNat * (ys.headD 0).toNat) (2 ^ 32)
      rw [limbsVal_headD_tail ys]
      linarith
    rw [hsplit, pow_width_succ, add_mul_mod_mul _ _ (Nat.mod_lt _ (by norm_num))]

/-- **The rows.** Each row leaves its lowest limb final, so the rows add the product of the old
limbs they still have to read and `b` to the limbs above, cut to their width. -/
theorem limbsVal_mulRows (ys : List UInt32) : ∀ as pn : List UInt32,
    limbsVal (mulRows ys as pn) = (limbsVal pn + limbsVal as * limbsVal ys) % 2 ^ (32 * pn.length)
  | [], pn => by simp [mulRows, Nat.mod_eq_of_lt (limbsVal_lt pn)]
  | aj :: as, [] => by simp [mulRows, mulRowCarry, Nat.mod_one]
  | aj :: as, q :: qs => by
    have hrow := limbsVal_mulRowCarry aj (q :: qs) ys 0 (by simp)
    obtain ⟨p, ps, hpps⟩ : ∃ p ps, mulRowCarry aj 0 (q :: qs) ys = p :: ps := ⟨_, _, rfl⟩
    have hlen : ps.length = qs.length := by
      have h := length_mulRowCarry aj 0 (q :: qs) ys
      rw [hpps] at h
      simpa using h
    rw [hpps, limbsVal_cons, UInt64.toNat_zero, add_zero, List.length_cons] at hrow
    simp only [mulRows, hpps, limbsVal_cons, limbsVal_mulRows ys as ps, hlen, List.length_cons]
    -- row `j` added `a.pn[j] * b`; the rows above add the rest of the product
    calc p.toNat + 2 ^ 32 * ((limbsVal ps + limbsVal as * limbsVal ys) % 2 ^ (32 * qs.length))
        = (p.toNat + 2 ^ 32 * limbsVal ps + 2 ^ 32 * (limbsVal as * limbsVal ys)) %
            2 ^ (32 * (qs.length + 1)) := by
          rw [pow_width_succ, ← add_mul_mod_mul _ _ p.toNat_lt]
          congr 1
          ring
      _ = ((limbsVal (q :: qs) + aj.toNat * limbsVal ys) % 2 ^ (32 * (qs.length + 1)) +
            2 ^ 32 * (limbsVal as * limbsVal ys)) % 2 ^ (32 * (qs.length + 1)) := by
          rw [← hrow]
      _ = (q.toNat + 2 ^ 32 * limbsVal qs + (aj.toNat + 2 ^ 32 * limbsVal as) * limbsVal ys) %
            2 ^ (32 * (qs.length + 1)) := by
          rw [Nat.mod_add_mod, limbsVal_cons]
          congr 1
          ring

/-- `operator*=(const base_uint &b)` is the product modulo the width. -/
theorem toNat_mul (a b : BaseUint WIDTH) : (a * b).toNat = a.toNat * b.toNat % 2 ^ (32 * WIDTH) := by
  show (a.mul b).toNat = _
  simp only [mul, toNat_eq_limbsVal]
  rw [limbsVal_mulRows, limbsVal_replicate_zero, List.length_replicate, zero_add]

/-! ## Decrement -/

/-- **The decrement loop** wraps at the width. -/
theorem limbsVal_decLoop : ∀ xs : List UInt32,
    limbsVal (decLoop xs) = (limbsVal xs + 2 ^ (32 * xs.length) - 1) % 2 ^ (32 * xs.length)
  | [] => by simp [decLoop]
  | x :: xs => by
    have hx := x.toNat_lt
    have hlt := limbsVal_lt xs
    simp only [decLoop, limbsVal_cons, List.length_cons, pow_width_succ]
    by_cases hwrap : x - 1 = 0xffffffff
    · -- the limb was zero: it becomes `0xffffffff` and the borrow moves up
      have hx0 : x = 0 := by
        have h := congrArg (· + 1) hwrap
        simp only [sub_add_cancel] at h
        rw [h]
        decide
      rw [if_pos hwrap, limbsVal_decLoop xs, hwrap, hx0, UInt32.toNat_zero, zero_add,
        show (0xffffffff : UInt32).toNat = 2 ^ 32 - 1 from rfl,
        show 2 ^ 32 * limbsVal xs + 2 ^ 32 * 2 ^ (32 * xs.length) - 1 =
          2 ^ 32 - 1 + 2 ^ 32 * (limbsVal xs + 2 ^ (32 * xs.length) - 1) by omega,
        add_mul_mod_mul _ _ (by norm_num)]
    · have hx1 : 1 ≤ x := by
        refine UInt32.le_iff_toNat_le.mpr (Nat.pos_of_ne_zero fun h ↦ hwrap ?_)
        rw [UInt32.toNat_inj.mp (h.trans UInt32.toNat_zero.symm)]
        decide
      have hsub : (x - 1).toNat = x.toNat - 1 := UInt32.toNat_sub_of_le x 1 hx1
      have hx1' : 1 ≤ x.toNat := UInt32.le_iff_toNat_le.mp hx1
      rw [if_neg hwrap, hsub,
        show x.toNat + 2 ^ 32 * limbsVal xs + 2 ^ 32 * 2 ^ (32 * xs.length) - 1 =
          x.toNat - 1 + 2 ^ 32 * limbsVal xs + 2 ^ 32 * 2 ^ (32 * xs.length) by omega,
        Nat.add_mod_right, Nat.mod_eq_of_lt (by omega)]

/-- `operator--` subtracts one modulo the width. -/
theorem toNat_decrement (a : BaseUint WIDTH) :
    a.decrement.toNat = (a.toNat + 2 ^ (32 * WIDTH) - 1) % 2 ^ (32 * WIDTH) := by
  simp only [decrement, toNat_eq_limbsVal]
  rw [limbsVal_decLoop, a.length_pn]

end BaseUint

/-! ## The blob conversions -/

/-- `ReadLE32` reads back what `WriteLE32` wrote. -/
theorem ReadLE32_WriteLE32 (x : UInt32) (rest : List UInt8) : ReadLE32 (WriteLE32 x ++ rest) = x := by
  apply UInt32.toNat_inj.mp
  have hx := x.toNat_lt
  simp only [WriteLE32, List.cons_append, List.nil_append]
  rw [toNat_ReadLE32]
  simp only [UInt32.toNat_toUInt8, UInt32.toNat_shiftRight, Nat.shiftRight_eq_div_pow,
    show (8 : UInt32).toNat % 32 = 8 from rfl, show (16 : UInt32).toNat % 32 = 16 from rfl,
    show (24 : UInt32).toNat % 32 = 24 from rfl, Nat.reducePow]
  omega

/-- The bytes of the limbs from limb `i` on start at byte `i * 4`. -/
theorem drop_flatMap_WriteLE32 : ∀ (xs : List UInt32) (i : ℕ),
    (xs.flatMap WriteLE32).drop (i * 4) = (xs.drop i).flatMap WriteLE32
  | [], i => by simp
  | x :: xs, 0 => by simp
  | x :: xs, i + 1 => by
    rw [List.flatMap_cons, List.drop_succ_cons, Nat.succ_mul, ← drop_flatMap_WriteLE32 xs i]
    simp [WriteLE32]

/-- `UintToArith256(ArithToUint256(a)) = a`: the limbs survive the trip through the bytes. -/
theorem UintToArith256_ArithToUint256 (a : ArithUint256) : UintToArith256 (ArithToUint256 a) = a := by
  obtain ⟨pn, hlen⟩ := a
  simp only [UintToArith256, ArithToUint256, BaseUint.mk.injEq]
  apply List.ext_getElem (by simp [hlen])
  intro i h1 h2
  rw [List.getElem_map, List.getElem_range, drop_flatMap_WriteLE32, List.drop_eq_getElem_cons h2,
    List.flatMap_cons, ReadLE32_WriteLE32]

/-! ## `arith_uint256` -/

/-- A difference of naturals taken modulo `M` by adding `M` first is the integer difference
modulo `M`. -/
theorem natCast_add_sub_mod {x y M : ℕ} (hy : y ≤ M) :
    (((x + (M - y)) % M : ℕ) : ℤ) = ((x : ℤ) - y) % M := by
  push_cast [Nat.cast_sub hy]
  rw [show (x : ℤ) + (M - y) = (x - y) + M by ring, Int.add_emod_right]

open BaseUint in
/-- **`arith_uint256` computes modulo `2 ^ 256`.** Sums, differences, negation and both products
wrap, `++` and `--` move by one, the shifts multiply and divide by powers of two, `CompareTo`
orders by value, `bits()` is the bit length, a `uint64_t` keeps its value, and the trip through
the blob `uint256` loses nothing. -/
theorem arith_uint256_modular (a b : ArithUint256) (s : ℕ) (m : UInt32) (v : UInt64) :
    (a + b).toNat = (a.toNat + b.toNat) % 2 ^ 256 ∧
      ((a - b).toNat : ℤ) = ((a.toNat : ℤ) - b.toNat) % 2 ^ 256 ∧
      a.negate.toNat = (2 ^ 256 - a.toNat) % 2 ^ 256 ∧
      (a * b).toNat = a.toNat * b.toNat % 2 ^ 256 ∧
      (a * m).toNat = a.toNat * m.toNat % 2 ^ 256 ∧
      a.increment.toNat = (a.toNat + 1) % 2 ^ 256 ∧
      (a.decrement.toNat : ℤ) = ((a.toNat : ℤ) - 1) % 2 ^ 256 ∧
      (a <<< s).toNat = a.toNat * 2 ^ s % 2 ^ 256 ∧
      (a >>> s).toNat = a.toNat / 2 ^ s ∧
      a.CompareTo b = (if a.toNat < b.toNat then -1 else if b.toNat < a.toNat then 1 else 0) ∧
      a.bits = Nat.size a.toNat ∧
      (ofUInt64 v : ArithUint256).toNat = v.toNat ∧
      UintToArith256 (ArithToUint256 a) = a := by
  have hb : b.toNat ≤ 2 ^ 256 := (toNat_lt b).le
  -- the two differences are stated in the integers; the loops compute them by adding `2 ^ 256`
  have hsub : ((a - b).toNat : ℤ) = ((a.toNat : ℤ) - b.toNat) % 2 ^ 256 := by
    have h := natCast_add_sub_mod (x := a.toNat) hb
    rw [Nat.cast_pow, Nat.cast_ofNat] at h
    rw [toNat_sub]
    exact h
  have hdec : (a.decrement.toNat : ℤ) = ((a.toNat : ℤ) - 1) % 2 ^ 256 := by
    have h := natCast_add_sub_mod (x := a.toNat) (show 1 ≤ 2 ^ 256 from Nat.one_le_two_pow)
    rw [Nat.cast_one, Nat.cast_pow, Nat.cast_ofNat] at h
    rw [toNat_decrement, show a.toNat + 2 ^ (32 * 8) - 1 = a.toNat + (2 ^ 256 - 1) by
      have : 1 ≤ 2 ^ (32 * 8) := Nat.one_le_two_pow
      omega]
    exact h
  exact ⟨toNat_add a b, hsub, toNat_negate a, toNat_mul a b, toNat_mulWord a m,
    toNat_increment a, hdec, toNat_shiftLeft a s, toNat_shiftRight a s, CompareTo_eq a b,
    bits_eq_size a, toNat_ofUInt64 v, UintToArith256_ArithToUint256 a⟩

end LightningCash
