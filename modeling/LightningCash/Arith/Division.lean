import LightningCash.Arith.Shift

/-!
# What `operator/=` computes

The long division aligns the divisor with the dividend's top bit and walks the shift down to
`0`, subtracting and setting a quotient bit whenever the aligned divisor fits. `DivInv` is the
invariant the walk keeps at shift `t`: the divisor is `D * 2 ^ t` exactly (no bit was lost
aligning it), the running remainder is below twice that, the quotient has no bits at or below
`t` yet, and quotient times divisor plus remainder is still the dividend. At `t = 0` this pins
the quotient to `N / D`.
-/

namespace LightningCash

namespace BaseUint

variable {WIDTH : ℕ}

/-! ## Setting one quotient bit -/

theorem pn_setBit (a : BaseUint WIDTH) (shift : ℕ) :
    (a.setBit shift).pn = a.pn.modify (shift / 32) (· ||| (1 : UInt32) <<< (shift % 32).toUInt32) :=
  rfl

/-- `pn[shift / 32] |= (1 << (shift & 31))` ORs `2 ^ shift` into the value. -/
theorem toNat_setBit (a : BaseUint WIDTH) {shift : ℕ} (h : shift < 32 * WIDTH) :
    (a.setBit shift).toNat = a.toNat ||| 2 ^ shift := by
  apply Nat.eq_of_testBit_eq
  intro m
  have hs : shift % 32 < 32 := Nat.mod_lt _ (by norm_num)
  rw [toNat_eq_limbsVal, testBit_limbsVal, pn_setBit, getD_modify, Nat.testBit_or,
    Nat.testBit_two_pow, toNat_eq_limbsVal, testBit_limbsVal, a.length_pn]
  by_cases hj : shift / 32 = m / 32
  · -- the bit lands in the limb holding bit `m`
    rw [if_pos ⟨hj, by omega⟩, testBit_or, testBit_shiftLeft _ hs (Nat.mod_lt _ (by norm_num))]
    have heq : shift = m ↔ shift % 32 = m % 32 := by omega
    by_cases hb : shift % 32 = m % 32
    · simp [hb, heq]
    · have hne : ¬ (shift % 32 ≤ m % 32 ∧ m % 32 - shift % 32 = 0) := by omega
      simp only [heq, hb, decide_false, Bool.or_false, Bool.or_eq_left_iff_imp,
        Bool.and_eq_true, decide_eq_true_eq, and_imp]
      intro hle h1
      have h1' : (1 : ℕ).testBit (m % 32 - shift % 32) = true := by simpa using h1
      rw [Nat.testBit_one_eq_true_iff_self_eq_zero] at h1'
      omega
  · rw [if_neg (fun h ↦ hj h.1)]
    have : shift ≠ m := fun h ↦ hj (h ▸ rfl)
    simp [this]

/-! ## The loop invariant -/

/-- What holds at the top of the pass with shift `t`, dividing `N` by `D`. -/
structure DivInv (D N t : ℕ) (num div quot : BaseUint WIDTH) : Prop where
  div_eq : div.toNat = D * 2 ^ t
  num_lt : num.toNat < D * 2 ^ (t + 1)
  dvd_quot : 2 ^ (t + 1) ∣ quot.toNat
  quot_mul_add : quot.toNat * D + num.toNat = N

/-- After the pass with shift `t` the remainder is below `D * 2 ^ t`, the quotient is a multiple
of `2 ^ t`, and the division equation still holds. -/
theorem divStep_spec {D N t : ℕ} {num div quot : BaseUint WIDTH}
    (h : DivInv D N t num div quot) (ht : t < 32 * WIDTH) :
    (divStep t num div quot).1.toNat < D * 2 ^ t ∧ 2 ^ t ∣ (divStep t num div quot).2.toNat ∧
      (divStep t num div quot).2.toNat * D + (divStep t num div quot).1.toNat = N := by
  obtain ⟨hdiv, hnum, ⟨q, hq⟩, heq⟩ := h
  have hpow : D * 2 ^ (t + 1) = 2 * (D * 2 ^ t) := by ring
  unfold divStep
  split_ifs with hge
  · -- the aligned divisor fits: subtract it and set quotient bit `t`
    rw [ge_iff_le, CompareTo_nonneg_iff] at hge
    have hset : (quot.setBit t).toNat = quot.toNat + 2 ^ t := by
      rw [toNat_setBit _ ht, hq, ← Nat.two_pow_add_eq_or_of_lt (Nat.pow_lt_pow_succ (by norm_num))]
    rw [toNat_sub_of_le hge, hset, hdiv]
    rw [hdiv] at hge
    refine ⟨by omega, ⟨2 * q + 1, by rw [hq, pow_succ]; ring⟩, ?_⟩
    calc (quot.toNat + 2 ^ t) * D + (num.toNat - D * 2 ^ t)
        = quot.toNat * D + (D * 2 ^ t + (num.toNat - D * 2 ^ t)) := by ring
      _ = N := by rw [Nat.add_sub_cancel' hge, heq]
  · -- it does not fit: nothing changes, and the remainder is already below it
    rw [ge_iff_le, CompareTo_nonneg_iff, not_le, hdiv] at hge
    exact ⟨hge, ⟨2 * q, by rw [hq, pow_succ]; ring⟩, heq⟩

/-- The whole loop returns the quotient, by induction on the shift. -/
theorem toNat_divLoop {D N : ℕ} :
    ∀ (t : ℕ) (num div quot : BaseUint WIDTH), DivInv D N t num div quot → t < 32 * WIDTH →
      (divLoop t num div quot).toNat = N / D := by
  intro t
  induction t with
  | zero =>
    intro num div quot h ht
    obtain ⟨hlt, -, heq⟩ := divStep_spec h ht
    have hD : 0 < D := by simpa using lt_of_le_of_lt (Nat.zero_le _) hlt
    rw [pow_zero, mul_one] at hlt
    rw [divLoop, ← heq, Nat.add_comm, Nat.add_mul_div_right _ _ hD, Nat.div_eq_of_lt hlt,
      Nat.zero_add]
  | succ t ih =>
    intro num div quot h ht
    obtain ⟨hlt, hdvd, heq⟩ := divStep_spec h ht
    apply ih _ _ _ _ (by omega)
    refine ⟨?_, hlt, hdvd, heq⟩
    rw [toNat_shiftRight, h.div_eq, pow_one, pow_succ, ← mul_assoc,
      Nat.mul_div_cancel _ (by norm_num)]

/-! ## `operator/=` -/

/-- The divisor aligned with the dividend's top bit stays within the width. -/
theorem toNat_shiftLeft_align {a b : BaseUint WIDTH} (hle : b.toNat.size ≤ a.toNat.size) :
    (b <<< (a.toNat.size - b.toNat.size)).toNat = b.toNat * 2 ^ (a.toNat.size - b.toNat.size) := by
  rw [toNat_shiftLeft]
  apply Nat.mod_eq_of_lt
  calc b.toNat * 2 ^ (a.toNat.size - b.toNat.size)
      < 2 ^ b.toNat.size * 2 ^ (a.toNat.size - b.toNat.size) :=
        Nat.mul_lt_mul_of_pos_right (Nat.lt_size_self _) (by positivity)
    _ = 2 ^ a.toNat.size := by rw [← pow_add, Nat.add_sub_cancel' hle]
    _ ≤ 2 ^ (32 * WIDTH) := Nat.pow_le_pow_right (by norm_num) (Nat.size_le.mpr a.toNat_lt)

/-- The invariant holds before the first pass. -/
theorem divInv_init {a b : BaseUint WIDTH} (hb : b.toNat ≠ 0)
    (hle : b.toNat.size ≤ a.toNat.size) :
    DivInv b.toNat a.toNat (a.toNat.size - b.toNat.size) a
      (b <<< (a.toNat.size - b.toNat.size)) zero := by
  refine ⟨toNat_shiftLeft_align hle, ?_, by simp, by simp⟩
  -- the divisor's top bit sits at `size b - 1`, so the aligned divisor doubled passes `a`
  have hpos : 0 < b.toNat.size := Nat.size_pos.mpr (Nat.pos_of_ne_zero hb)
  have htop : 2 ^ (b.toNat.size - 1) ≤ b.toNat := Nat.lt_size.mp (by omega)
  calc a.toNat < 2 ^ a.toNat.size := Nat.lt_size_self _
    _ = 2 ^ (b.toNat.size - 1) * 2 ^ (a.toNat.size - b.toNat.size + 1) := by
      rw [← pow_add]
      congr 1
      omega
    _ ≤ b.toNat * 2 ^ (a.toNat.size - b.toNat.size + 1) := Nat.mul_le_mul_right _ htop

/-- Dividing by zero throws `uint_error("Division by zero")`. -/
theorem divide_of_toNat_eq_zero (a : BaseUint WIDTH) {b : BaseUint WIDTH} (hb : b.toNat = 0) :
    a.divide b = .error "Division by zero" := by
  simp [divide, bits_eq_size, hb]

/-- Otherwise `operator/=` returns the floor quotient. -/
theorem divide_eq_ok (a : BaseUint WIDTH) {b : BaseUint WIDTH} (hb : b.toNat ≠ 0) :
    ∃ q, a.divide b = .ok q ∧ q.toNat = a.toNat / b.toNat := by
  have hsize : b.toNat.size ≠ 0 := (Nat.size_pos.mpr (Nat.pos_of_ne_zero hb)).ne'
  by_cases hgt : b.toNat.size > a.toNat.size
  · -- the divisor has more bits than the dividend: the quotient is `0`
    refine ⟨zero, by simp [divide, bits_eq_size, hsize, hgt], ?_⟩
    have ha : a.toNat < b.toNat :=
      calc a.toNat < 2 ^ a.toNat.size := Nat.lt_size_self _
        _ ≤ 2 ^ (b.toNat.size - 1) := Nat.pow_le_pow_right (by norm_num) (by omega)
        _ ≤ b.toNat := Nat.lt_size.mp (by omega)
    rw [toNat_zero, Nat.div_eq_of_lt ha]
  · have hle : b.toNat.size ≤ a.toNat.size := not_lt.mp hgt
    refine ⟨divLoop (a.toNat.size - b.toNat.size) a (b <<< (a.toNat.size - b.toNat.size)) zero,
      by simp [divide, bits_eq_size, hsize, hgt], ?_⟩
    apply toNat_divLoop _ _ _ _ (divInv_init hb hle)
    have := Nat.size_le.mpr a.toNat_lt
    omega

/-- **`operator/`.** A nonzero divisor gives the floor quotient, the loop having run to its
end; a zero divisor throws `uint_error("Division by zero")` and yields nothing else. -/
theorem divide_floor_or_throws (a b : ArithUint256) :
    (b.toNat ≠ 0 → ∃ q, a.divide b = .ok q ∧ q.toNat = a.toNat / b.toNat) ∧
      (b.toNat = 0 → a.divide b = .error "Division by zero") :=
  ⟨fun hb ↦ divide_eq_ok a hb, fun hb ↦ divide_of_toNat_eq_zero a hb⟩

/-- Seven by two, and seven by zero. -/
theorem divide_floor_or_throws_at_seven :
    (∃ q, (ofUInt64 7 : ArithUint256).divide (ofUInt64 2) = .ok q ∧ q.toNat = 3) ∧
      (ofUInt64 7 : ArithUint256).divide zero = .error "Division by zero" := by
  have h7 : (ofUInt64 7 : ArithUint256).toNat = 7 := toNat_ofUInt64 7
  have h2 : (ofUInt64 2 : ArithUint256).toNat = 2 := toNat_ofUInt64 2
  obtain ⟨q, hq, hv⟩ :=
    (divide_floor_or_throws (ofUInt64 7) (ofUInt64 2)).1 (by rw [h2]; decide)
  exact ⟨⟨q, hq, by rw [hv, h7, h2]⟩, (divide_floor_or_throws (ofUInt64 7) zero).2 toNat_zero⟩

end BaseUint

end LightningCash
