import LightningCash.Arith.Division

/-!
# The compact target encoding

`nBits` stores a target as a base-256 floating-point number: the top byte is the size in bytes,
the low 23 bits the mantissa, and bit 23 a sign. `SetCompact` decodes it, reporting a set sign
and a value past 256 bits in `fNegative` and `fOverflow`; `GetCompact` encodes the top three
bytes of a value and rounds the rest away.

Both are modelled as the source computes them, with `GetLow64` and the 256-bit shifts; their
value in numbers is proved here from the specifications of those operations.
-/

namespace LightningCash

namespace BaseUint

variable {WIDTH : ℕ}

/-! ## Constants -/

/-- The low `k` limbs of a number. -/
def limbsOf : ℕ → ℕ → List UInt32
  | 0, _ => []
  | k + 1, x => x.toUInt32 :: limbsOf k (x / 2 ^ 32)

@[simp] theorem length_limbsOf : ∀ k x, (limbsOf k x).length = k
  | 0, _ => rfl
  | k + 1, x => by simp [limbsOf, length_limbsOf k]

theorem limbsVal_limbsOf : ∀ k x, limbsVal (limbsOf k x) = x % 2 ^ (32 * k)
  | 0, x => by simp [limbsOf, Nat.mod_one]
  | k + 1, x => by
    rw [limbsOf, limbsVal_cons, limbsVal_limbsOf k, pow_width_succ, Nat.mod_mul]
    simp

/-- The value with limbs taken from a number, used to name constants. -/
def ofNat (x : ℕ) : BaseUint WIDTH := ⟨limbsOf WIDTH x, length_limbsOf WIDTH x⟩

theorem toNat_ofNat (x : ℕ) : (ofNat x : BaseUint WIDTH).toNat = x % 2 ^ (32 * WIDTH) :=
  limbsVal_limbsOf WIDTH x

/-- Every value is the constant of its number. -/
theorem eq_ofNat_toNat (a : BaseUint WIDTH) : a = ofNat a.toNat := by
  apply ext_toNat
  rw [toNat_ofNat, Nat.mod_eq_of_lt a.toNat_lt]

/-! ## `GetLow64` -/

/-- `GetLow64` is the value modulo `2 ^ 64`. -/
theorem toNat_GetLow64 {W : ℕ} (a : BaseUint (W + 2)) : a.GetLow64.toNat = a.toNat % 2 ^ 64 := by
  obtain ⟨pn, hlen⟩ := a
  match pn, hlen with
  | x0 :: x1 :: rest, _ =>
    have h0 := x0.toNat_lt
    have h1 := x1.toNat_lt
    have hhigh : x1.toUInt64.toNat <<< 32 % 2 ^ 64 = 2 ^ 32 * x1.toNat := by
      rw [UInt32.toNat_toUInt64, Nat.shiftLeft_eq, Nat.mod_eq_of_lt (by omega),
        Nat.mul_comm]
    simp only [GetLow64, List.getD_cons_zero, List.getD_cons_succ, UInt64.toNat_or,
      UInt64.toNat_shiftLeft, toNat_eq_limbsVal, limbsVal_cons]
    rw [show (32 : UInt64).toNat % 64 = 32 from rfl, hhigh, UInt32.toNat_toUInt64, Nat.lor_comm,
      ← Nat.two_pow_add_eq_or_of_lt h0, show (2 : ℕ) ^ 64 = 2 ^ 32 * 2 ^ 32 by norm_num,
      Digits.add_mul_mod_mul _ _ h0, Nat.add_mul_mod_self_left, Nat.mod_eq_of_lt h1]
    ring

end BaseUint

/-! ## `SetCompact` -/

/-- What `SetCompact` produces: the value, and the two flags it reports through pointers. -/
structure CompactTarget where
  value : ArithUint256
  fNegative : Bool
  fOverflow : Bool

/-- `arith_uint256::SetCompact(nCompact, pfNegative, pfOverflow)`. -/
def SetCompact (nCompact : UInt32) : CompactTarget :=
  let nSize := (nCompact >>> 24).toNat
  let nWord := nCompact &&& 0x007fffff
  -- a size of at most three bytes drops mantissa bytes; a larger one shifts the value up
  let nWord := if nSize ≤ 3 then nWord >>> (8 * (3 - nSize)).toUInt32 else nWord
  let value : ArithUint256 :=
    if nSize ≤ 3 then BaseUint.ofUInt64 nWord.toUInt64
    else BaseUint.ofUInt64 nWord.toUInt64 <<< (8 * (nSize - 3))
  ⟨value, nWord != 0 && nCompact &&& 0x00800000 != 0,
    nWord != 0 && (decide (nSize > 34) || (decide (nWord > 0xff) && decide (nSize > 33)) ||
      (decide (nWord > 0xffff) && decide (nSize > 32)))⟩

/-- The decoded value in numbers: the mantissa moved by whole bytes, cut to 256 bits. -/
theorem toNat_SetCompact (nCompact : UInt32) :
    (SetCompact nCompact).value.toNat =
      if (nCompact >>> 24).toNat ≤ 3 then
        (nCompact &&& 0x007fffff).toNat / 2 ^ (8 * (3 - (nCompact >>> 24).toNat))
      else (nCompact &&& 0x007fffff).toNat * 2 ^ (8 * ((nCompact >>> 24).toNat - 3)) % 2 ^ 256 := by
  unfold SetCompact
  dsimp only
  split_ifs with h
  · have hsh : (8 * (3 - (nCompact >>> 24).toNat)).toUInt32.toNat % 32 =
        8 * (3 - (nCompact >>> 24).toNat) := by
      have : (8 * (3 - (nCompact >>> 24).toNat)).toUInt32.toNat = 8 * (3 - (nCompact >>> 24).toNat) := by
        simp; omega
      omega
    rw [BaseUint.toNat_ofUInt64, UInt32.toNat_toUInt64, UInt32.toNat_shiftRight, hsh,
      Nat.shiftRight_eq_div_pow]
  · rw [BaseUint.toNat_shiftLeft, BaseUint.toNat_ofUInt64, UInt32.toNat_toUInt64]

/-! ## `GetCompact` -/

/-- `arith_uint256::GetCompact(fNegative)`. The source asserts that the mantissa fits in 23 bits
and the size in a byte; `GetCompact_assert` proves both for every value. -/
def GetCompact (a : ArithUint256) (fNegative : Bool) : UInt32 :=
  let nSize := (a.bits + 7) / 8
  let nCompact : UInt32 :=
    if nSize ≤ 3 then (a.GetLow64 <<< (8 * (3 - nSize)).toUInt64).toUInt32
    else (a >>> (8 * (nSize - 3))).GetLow64.toUInt32
  -- a mantissa with bit 23 set would read as negative: move it down a byte
  let (nCompact, nSize) :=
    if nCompact &&& 0x00800000 != 0 then (nCompact >>> 8, nSize + 1) else (nCompact, nSize)
  let nCompact := nCompact ||| nSize.toUInt32 <<< 24
  nCompact ||| if fNegative && nCompact &&& 0x007fffff != 0 then 0x00800000 else 0

/-- `GetCompact` reads a value only through its number. -/
theorem GetCompact_ofNat_toNat (a : ArithUint256) (fNegative : Bool) :
    GetCompact (BaseUint.ofNat a.toNat) fNegative = GetCompact a fNegative := by
  rw [← BaseUint.eq_ofNat_toNat]

/-! ## What `GetCompact` computes

`GetCompact` scales the value so that its top `nSize = ⌈bits / 8⌉` bytes sit in the low three
bytes of a word (`compactWord`), and moves that word down a byte when its bit 23 is set, growing
the size (`compactParts`); the two `assert`s check the word and the size at that point. In
numbers the word is `mantissaOf`, and bit 23 is set exactly when the bit length is a multiple of
eight. -/

/-- The word `GetCompact` takes at byte length `nSize`: the low bytes shifted up, or the value
shifted down to its top three bytes. -/
def compactWord (a : ArithUint256) (nSize : ℕ) : UInt32 :=
  if nSize ≤ 3 then (a.GetLow64 <<< (8 * (3 - nSize)).toUInt64).toUInt32
  else (a >>> (8 * (nSize - 3))).GetLow64.toUInt32

/-- The word and size of `GetCompact` after a word with bit 23 set moved down a byte: what its
`assert`s check. -/
def compactParts (a : ArithUint256) : UInt32 × ℕ :=
  let nSize := (a.bits + 7) / 8
  let nCompact := compactWord a nSize
  if nCompact &&& 0x00800000 != 0 then (nCompact >>> 8, nSize + 1) else (nCompact, nSize)

theorem GetCompact_eq (a : ArithUint256) (fNegative : Bool) :
    GetCompact a fNegative =
      let nCompact := (compactParts a).1 ||| (compactParts a).2.toUInt32 <<< 24
      nCompact ||| if fNegative && nCompact &&& 0x007fffff != 0 then 0x00800000 else 0 := by
  rfl

/-- The mantissa in numbers: the value moved by whole bytes so that its top `nSize` bytes are the
low three. -/
def mantissaOf (x nSize : ℕ) : ℕ :=
  if nSize ≤ 3 then x * 2 ^ (8 * (3 - nSize)) else x / 2 ^ (8 * (nSize - 3))

theorem mantissaOf_of_le_three {x s : ℕ} (h : s ≤ 3) : mantissaOf x s = x * 2 ^ (8 * (3 - s)) := by
  rw [mantissaOf, if_pos h]

theorem mantissaOf_of_three_le {x s : ℕ} (h : 3 ≤ s) : mantissaOf x s = x / 2 ^ (8 * (s - 3)) := by
  rcases h.eq_or_lt with rfl | h
  · simp [mantissaOf]
  · rw [mantissaOf, if_neg (by omega)]

/-- The mantissa fits in three bytes once `nSize` covers the value. -/
theorem mantissaOf_lt {x s : ℕ} (hs : Nat.size x ≤ 8 * s) : mantissaOf x s < 2 ^ 24 := by
  have hx : x < 2 ^ (8 * s) := Nat.size_le.mp hs
  unfold mantissaOf
  split_ifs with h
  · calc x * 2 ^ (8 * (3 - s)) < 2 ^ (8 * s) * 2 ^ (8 * (3 - s)) :=
          Nat.mul_lt_mul_of_pos_right hx (by positivity)
      _ = 2 ^ 24 := by rw [← pow_add]; congr 1; omega
  · rw [Nat.div_lt_iff_lt_mul (by positivity), ← pow_add]
    calc x < 2 ^ (8 * s) := hx
      _ = 2 ^ (24 + 8 * (s - 3)) := by congr 1; omega

/-- Bit 23 of the mantissa is the top bit of the value's leading byte. -/
theorem le_mantissaOf_iff {x s : ℕ} (hs : Nat.size x ≤ 8 * s) :
    2 ^ 23 ≤ mantissaOf x s ↔ 0 < s ∧ 2 ^ (8 * s - 1) ≤ x := by
  unfold mantissaOf
  split_ifs with h
  · rcases Nat.eq_zero_or_pos s with rfl | hpos
    · have hx : x < 1 := by simpa using Nat.size_le.mp hs
      simp [show x = 0 by omega]
    · rw [show (2 : ℕ) ^ 23 = 2 ^ (8 * s - 1) * 2 ^ (8 * (3 - s)) by rw [← pow_add]; congr 1; omega,
        Nat.mul_le_mul_right_iff (by positivity)]
      simp [hpos]
  · rw [Nat.le_div_iff_mul_le (by positivity), ← pow_add, show 23 + 8 * (s - 3) = 8 * s - 1 by omega]
    simp only [iff_and_self]
    intro; omega

/-- `GetCompact`'s two ways of taking the mantissa compute `mantissaOf`: nothing wraps in the
64-bit shift or the cut to 32 bits. -/
theorem toNat_compactWord (a : ArithUint256) {s : ℕ} (hs : Nat.size a.toNat ≤ 8 * s) :
    (compactWord a s).toNat = mantissaOf a.toNat s := by
  have hm := mantissaOf_lt hs
  unfold compactWord
  split_ifs with h
  · have hx : a.toNat < 2 ^ 24 := lt_of_lt_of_le (Nat.size_le.mp hs) (Nat.pow_le_pow_right (by norm_num) (by omega))
    rw [UInt64.toNat_toUInt32, UInt64.toNat_shiftLeft, BaseUint.toNat_GetLow64, Nat.mod_eq_of_lt (by omega : a.toNat < 2 ^ 64)]
    have hk : (8 * (3 - s)).toUInt64.toNat % 64 = 8 * (3 - s) := by
      simp; omega
    rw [hk, Nat.shiftLeft_eq]
    unfold mantissaOf at hm ⊢
    rw [if_pos h] at hm ⊢
    rw [Nat.mod_eq_of_lt (by omega), Nat.mod_eq_of_lt (by omega)]
  · rw [UInt64.toNat_toUInt32, BaseUint.toNat_GetLow64, BaseUint.toNat_shiftRight]
    unfold mantissaOf at hm ⊢
    rw [if_neg h] at hm ⊢
    rw [Nat.mod_eq_of_lt (show a.toNat / 2 ^ (8 * (s - 3)) < 2 ^ 64 by omega),
      Nat.mod_eq_of_lt (show a.toNat / 2 ^ (8 * (s - 3)) < 2 ^ 32 by omega)]

/-- On a word below `2 ^ 24`, the test of bit 23 is a comparison. -/
theorem and_0x00800000_ne_zero {w : UInt32} (hw : w.toNat < 2 ^ 24) :
    (w &&& 0x00800000 != 0) = decide (2 ^ 23 ≤ w.toNat) := by
  have hbit : w.toNat.testBit 23 = decide (2 ^ 23 ≤ w.toNat) := by
    by_cases h : 2 ^ 23 ≤ w.toNat
    · rw [Nat.testBit_of_two_pow_le_and_two_pow_add_one_gt h hw, decide_eq_true h]
    · rw [Nat.testBit_lt_two_pow (not_le.mp h), decide_eq_false h]
  have h : (w &&& 0x00800000).toNat = (decide (2 ^ 23 ≤ w.toNat)).toNat * 2 ^ 23 := by
    rw [UInt32.toNat_and, show (0x00800000 : UInt32).toNat = 2 ^ 23 from rfl, Nat.and_two_pow, hbit]
  by_cases hle : 2 ^ 23 ≤ w.toNat
  · rw [decide_eq_true hle, Bool.toNat_true, one_mul] at h
    rw [decide_eq_true hle]
    exact bne_iff_ne.mpr fun h0 ↦ by rw [h0, UInt32.toNat_zero] at h; exact absurd h (by norm_num)
  · rw [decide_eq_false hle, Bool.toNat_false, zero_mul] at h
    rw [decide_eq_false hle, UInt32.toNat_inj.mp (h.trans UInt32.toNat_zero.symm)]
    rfl

/-- The word and size `GetCompact` has before its `assert`s, in numbers. -/
theorem compactParts_eq (a : ArithUint256) :
    ((compactParts a).1.toNat, (compactParts a).2) =
      if 2 ^ 23 ≤ mantissaOf a.toNat ((Nat.size a.toNat + 7) / 8) then
        (mantissaOf a.toNat ((Nat.size a.toNat + 7) / 8) / 256, (Nat.size a.toNat + 7) / 8 + 1)
      else (mantissaOf a.toNat ((Nat.size a.toNat + 7) / 8), (Nat.size a.toNat + 7) / 8) := by
  have hs : Nat.size a.toNat ≤ 8 * ((Nat.size a.toNat + 7) / 8) := by omega
  have hw := toNat_compactWord a hs
  have hlt := mantissaOf_lt hs
  unfold compactParts
  dsimp only
  rw [BaseUint.bits_eq_size, and_0x00800000_ne_zero (hw ▸ hlt)]
  by_cases h : 2 ^ 23 ≤ mantissaOf a.toNat ((Nat.size a.toNat + 7) / 8)
  · simp only [h, decide_true, if_true, UInt32.toNat_shiftRight, hw, Nat.shiftRight_eq_div_pow]
    rfl
  · simp only [h, decide_false, if_false, hw, Bool.false_eq_true]

/-- The word is below `2 ^ 23`, the size at most `33`, and at `33` the word has two bytes. -/
theorem compactParts_lt (a : ArithUint256) :
    (compactParts a).1.toNat < 2 ^ 23 ∧ (compactParts a).2 ≤ 33 ∧
      (33 ≤ (compactParts a).2 → (compactParts a).1.toNat < 2 ^ 16) := by
  have hsize : Nat.size a.toNat ≤ 256 := Nat.size_le.mpr (BaseUint.toNat_lt a)
  have hs : Nat.size a.toNat ≤ 8 * ((Nat.size a.toNat + 7) / 8) := by omega
  have hm := mantissaOf_lt hs
  have h := compactParts_eq a
  split_ifs at h with hmove
  · -- bit 23 was set: the mantissa moved down a byte and the size grew by one
    rw [Prod.mk.injEq] at h
    rw [h.1, h.2]
    omega
  · rw [Prod.mk.injEq] at h
    rw [h.1, h.2]
    omega

/-- A word below `2 ^ 23` has no bit outside the mantissa mask. -/
theorem and_not_mask_eq_zero {w : UInt32} (hw : w.toNat < 2 ^ 23) : w &&& ~~~0x007fffff = 0 := by
  have hmask : w &&& 0x007fffff = w := by
    apply UInt32.toNat_inj.mp
    rw [UInt32.toNat_and, show (0x007fffff : UInt32).toNat = 2 ^ 23 - 1 from rfl,
      Nat.and_two_pow_sub_one_eq_mod, Nat.mod_eq_of_lt hw]
  rw [← hmask, UInt32.and_assoc, show (0x007fffff : UInt32) &&& ~~~0x007fffff = 0 by decide,
    UInt32.and_zero]

/-- **`GetCompact`'s assertions hold** for every value: the word has no bit above the
mantissa and the size fits in a byte. -/
theorem GetCompact_assert (a : ArithUint256) :
    (compactParts a).1 &&& ~~~0x007fffff = 0 ∧ (compactParts a).2 < 256 := by
  obtain ⟨h1, h2, -⟩ := compactParts_lt a
  exact ⟨and_not_mask_eq_zero h1, by omega⟩

/-- Without the sign flag, `GetCompact` is the word with the size in the top byte. -/
theorem toNat_GetCompact_false (a : ArithUint256) :
    (GetCompact a false).toNat = (compactParts a).1.toNat + 2 ^ 24 * (compactParts a).2 := by
  obtain ⟨h1, h2, -⟩ := compactParts_lt a
  rw [GetCompact_eq]
  simp only [Bool.false_and, Bool.false_eq_true, if_false, UInt32.or_zero]
  have hsize : ((compactParts a).2.toUInt32 <<< 24).toNat = 2 ^ 24 * (compactParts a).2 := by
    rw [UInt32.toNat_shiftLeft, show (24 : UInt32).toNat % 32 = 24 from rfl, Nat.shiftLeft_eq]
    simp
    omega
  rw [UInt32.toNat_or, hsize, Nat.lor_comm, ← Nat.two_pow_add_eq_or_of_lt (by omega), Nat.add_comm]

/-- `SetCompact` splits a word with a clear sign bit back into its size and mantissa. -/
theorem SetCompact_fields {n : UInt32} {M N : ℕ} (hM : M < 2 ^ 23) (hn : n.toNat = M + 2 ^ 24 * N) :
    (n >>> 24).toNat = N ∧ (n &&& 0x007fffff).toNat = M ∧ n &&& 0x00800000 = 0 := by
  refine ⟨?_, ?_, ?_⟩
  · rw [UInt32.toNat_shiftRight, show (24 : UInt32).toNat % 32 = 24 from rfl,
      Nat.shiftRight_eq_div_pow, hn]
    omega
  · rw [UInt32.toNat_and, show (0x007fffff : UInt32).toNat = 2 ^ 23 - 1 from rfl,
      Nat.and_two_pow_sub_one_eq_mod, hn]
    omega
  · apply UInt32.toNat_inj.mp
    have hbit : (M + 2 ^ 24 * N) / 2 ^ 23 % 2 = 0 := by omega
    rw [UInt32.toNat_and, show (0x00800000 : UInt32).toNat = 2 ^ 23 from rfl, Nat.and_two_pow,
      Nat.testBit_eq_decide_div_mod_eq, hn, hbit]
    rfl

/-! ## The round trips -/

/-- **`SetCompact` after `GetCompact`.** No sign and no overflow is reported, and the value
comes back cut below its top two full bytes and its leading partial byte: below byte
`size / 8 - 2`. When the bit length is a multiple of eight, `GetCompact` moves the mantissa down
a byte, so the third byte from the top is lost as well. -/
theorem SetCompact_GetCompact (a : ArithUint256) :
    (SetCompact (GetCompact a false)).fNegative = false ∧
      (SetCompact (GetCompact a false)).fOverflow = false ∧
      (SetCompact (GetCompact a false)).value.toNat =
        a.toNat / 2 ^ (8 * (Nat.size a.toNat / 8 - 2)) * 2 ^ (8 * (Nat.size a.toNat / 8 - 2)) := by
  obtain ⟨h1, h2, h33⟩ := compactParts_lt a
  obtain ⟨hN, hM, hsign⟩ := SetCompact_fields h1 (toNat_GetCompact_false a)
  refine ⟨?_, ?_, ?_⟩
  · simp [SetCompact, hsign]
  · -- the size is at most `33`, and at `33` the mantissa has two bytes
    simp only [SetCompact, hN, Bool.and_eq_false_iff, bne_eq_false_iff_eq, Bool.or_eq_false_iff,
      Bool.and_eq_false_iff, decide_eq_false_iff_not, not_lt]
    right
    by_cases hp : (compactParts a).2 ≤ 32
    · exact ⟨⟨by omega, Or.inr (by omega)⟩, Or.inr hp⟩
    · have hlt := h33 (by omega)
      rw [if_neg (by omega)]
      refine ⟨⟨by omega, Or.inr (by omega)⟩, Or.inl ?_⟩
      rw [gt_iff_lt, UInt32.lt_iff_toNat_lt, hM, show (65535 : UInt32).toNat = 65535 from rfl]
      omega
  · rw [toNat_SetCompact, hN, hM]
    have hlt : a.toNat < 2 ^ 256 := BaseUint.toNat_lt a
    have hs : Nat.size a.toNat ≤ 8 * ((Nat.size a.toNat + 7) / 8) := by omega
    have hround : ∀ k, a.toNat / 2 ^ k * 2 ^ k % 2 ^ 256 = a.toNat / 2 ^ k * 2 ^ k := fun k ↦
      Nat.mod_eq_of_lt (lt_of_le_of_lt (Nat.div_mul_le_self _ _) hlt)
    have h := compactParts_eq a
    obtain ⟨s, hS⟩ : ∃ s, (Nat.size a.toNat + 7) / 8 = s := ⟨_, rfl⟩
    rw [hS] at h hs
    split_ifs at h with hmove
    · -- bit 23 was set: the bit length is a multiple of eight, and one byte more is dropped
      rw [Prod.mk.injEq] at h
      rw [h.1, h.2]
      obtain ⟨hpos, htop⟩ := (le_mantissaOf_iff hs).mp hmove
      have hL : Nat.size a.toNat = 8 * s := le_antisymm hs (by have := Nat.lt_size.mpr htop; omega)
      by_cases hs3 : s + 1 ≤ 3
      · rw [if_pos hs3, mantissaOf_of_le_three (by omega), show Nat.size a.toNat / 8 - 2 = 0 by omega,
          show 8 * (3 - s) = 8 + 8 * (3 - (s + 1)) by omega, pow_add,
          show a.toNat * (2 ^ 8 * 2 ^ (8 * (3 - (s + 1)))) = a.toNat * 2 ^ (8 * (3 - (s + 1))) * 256 by
            ring,
          Nat.mul_div_cancel _ (by positivity), Nat.mul_div_cancel _ (by positivity)]
        simp
      · rw [if_neg hs3, mantissaOf_of_three_le (by omega), Nat.div_div_eq_div_mul,
          show 2 ^ (8 * (s - 3)) * 256 = 2 ^ (8 * (s + 1 - 3)) by
            rw [show 8 * (s + 1 - 3) = 8 * (s - 3) + 8 by omega, pow_add]
            rfl,
          show Nat.size a.toNat / 8 - 2 = s + 1 - 3 by omega, hround]
    · rw [Prod.mk.injEq] at h
      rw [h.1, h.2]
      have hL : Nat.size a.toNat < 8 * s ∨ s = 0 := by
        by_contra hcon
        exact hmove ((le_mantissaOf_iff hs).mpr ⟨by omega, Nat.lt_size.mp (by omega)⟩)
      by_cases hs3 : s ≤ 3
      · rw [if_pos hs3, mantissaOf_of_le_three hs3, Nat.mul_div_cancel _ (by positivity),
          show Nat.size a.toNat / 8 - 2 = 0 by omega]
        simp
      · rw [if_neg hs3, mantissaOf_of_three_le (by omega),
          show Nat.size a.toNat / 8 - 2 = s - 3 by omega, hround]

/-- A word with its sign bit clear is its mantissa below its size byte. -/
theorem toNat_of_sign_clear {n : UInt32} (h : n &&& 0x00800000 = 0) :
    n.toNat = (n &&& 0x007fffff).toNat + 2 ^ 24 * (n >>> 24).toNat := by
  have hbit : n.toNat / 2 ^ 23 % 2 = 0 := by
    have h' := congrArg UInt32.toNat h
    rw [UInt32.toNat_and, show (0x00800000 : UInt32).toNat = 2 ^ 23 from rfl, Nat.and_two_pow,
      Nat.testBit_eq_decide_div_mod_eq, UInt32.toNat_zero] at h'
    simpa using h'
  rw [UInt32.toNat_and, show (0x007fffff : UInt32).toNat = 2 ^ 23 - 1 from rfl,
    Nat.and_two_pow_sub_one_eq_mod, UInt32.toNat_shiftRight, show (24 : UInt32).toNat % 32 = 24 from rfl,
    Nat.shiftRight_eq_div_pow]
  omega

/-- Where the mantissa at the value's byte length has bit 23 clear, it is `GetCompact`'s word. -/
theorem compactParts_of_mantissa {a : ArithUint256} {N M : ℕ} (hsize : (Nat.size a.toNat + 7) / 8 = N)
    (hm : mantissaOf a.toNat N = M) (hM : M < 2 ^ 23) :
    (compactParts a).1.toNat = M ∧ (compactParts a).2 = N := by
  have h := compactParts_eq a
  rw [hsize, hm, if_neg (by omega), Prod.mk.injEq] at h
  exact h

/-- The value `SetCompact` computes from a size `N` of one to thirty-two bytes and a mantissa `M`
with a nonzero leading byte and a clear sign bit, none of whose bits it drops, is `M` moved by
`N - 3` bytes: it lies between `2 ^ (8 * N - 8)` and `2 ^ (8 * N - 1)`, and its mantissa at size
`N` is `M` again. -/
theorem setCompactValue_bounds {N M x : ℕ} (hM16 : 2 ^ 16 ≤ M) (hM23 : M < 2 ^ 23) (hN1 : 1 ≤ N)
    (hN32 : N ≤ 32) (hdrop : N < 3 → M % 2 ^ (8 * (3 - N)) = 0)
    (hv : x = if N ≤ 3 then M / 2 ^ (8 * (3 - N)) else M * 2 ^ (8 * (N - 3)) % 2 ^ 256) :
    2 ^ (8 * N - 8) ≤ x ∧ x < 2 ^ (8 * N - 1) ∧ mantissaOf x N = M := by
  by_cases h3 : N ≤ 3
  · -- moved down: the bits dropped are zero, so the division is exact
    rw [if_pos h3] at hv
    have hdvd : 2 ^ (8 * (3 - N)) ∣ M := by
      rcases h3.lt_or_eq with hlt | rfl
      · exact Nat.dvd_of_mod_eq_zero (hdrop hlt)
      · simp
    have hpow : 2 ^ (8 * N - 8) * 2 ^ (8 * (3 - N)) = 2 ^ 16 := by rw [← pow_add]; congr 1; omega
    have hpow' : 2 ^ (8 * N - 1) * 2 ^ (8 * (3 - N)) = 2 ^ 23 := by rw [← pow_add]; congr 1; omega
    refine ⟨?_, ?_, ?_⟩
    · rw [hv, Nat.le_div_iff_mul_le (by positivity), hpow]
      exact hM16
    · rw [hv, Nat.div_lt_iff_lt_mul (by positivity), hpow']
      exact hM23
    · rw [mantissaOf_of_le_three h3, hv, Nat.div_mul_cancel hdvd]
  · -- moved up: at most thirty-two bytes, so nothing is cut at 256 bits
    rw [if_neg h3] at hv
    have hpow : 2 ^ 16 * 2 ^ (8 * (N - 3)) = 2 ^ (8 * N - 8) := by rw [← pow_add]; congr 1; omega
    have hpow' : 2 ^ 23 * 2 ^ (8 * (N - 3)) = 2 ^ (8 * N - 1) := by rw [← pow_add]; congr 1; omega
    have hfit : M * 2 ^ (8 * (N - 3)) < 2 ^ 256 :=
      calc M * 2 ^ (8 * (N - 3)) < 2 ^ 23 * 2 ^ (8 * (N - 3)) :=
            Nat.mul_lt_mul_of_pos_right hM23 (by positivity)
        _ = 2 ^ (8 * N - 1) := hpow'
        _ ≤ 2 ^ 256 := Nat.pow_le_pow_right (by norm_num) (by omega)
    rw [Nat.mod_eq_of_lt hfit] at hv
    refine ⟨?_, ?_, ?_⟩
    · rw [hv, ← hpow]
      exact Nat.mul_le_mul_right _ hM16
    · rw [hv, ← hpow']
      exact Nat.mul_lt_mul_of_pos_right hM23 (by positivity)
    · rw [mantissaOf_of_three_le (by omega), hv, Nat.mul_div_cancel _ (by positivity)]

/-- **`GetCompact` after `SetCompact`** gives the word back when it is in normal form: zero,
or a clear sign bit, a nonzero leading mantissa byte, and, for a size below three, no mantissa
bits below the size (those `SetCompact` drops). -/
theorem GetCompact_SetCompact {n : UInt32} (hov : (SetCompact n).fOverflow = false)
    (hnorm : n = 0 ∨ (n &&& 0x00800000 = 0 ∧ (n >>> 16) &&& 0xff ≠ 0 ∧
      ((n >>> 24).toNat < 3 → (n &&& 0x007fffff).toNat % 2 ^ (8 * (3 - (n >>> 24).toNat)) = 0))) :
    GetCompact (SetCompact n).value false = n := by
  apply UInt32.toNat_inj.mp
  rw [toNat_GetCompact_false]
  rcases hnorm with rfl | ⟨hsign, hlead, hdrop⟩
  · -- zero encodes as zero
    have hv : (SetCompact 0).value.toNat = 0 := by rw [toNat_SetCompact]; rfl
    obtain ⟨h1, h2⟩ := compactParts_of_mantissa (N := 0) (M := 0) (by rw [hv]; rfl)
      (by rw [hv]; rfl) (by norm_num)
    rw [h1, h2]
    rfl
  · have hn := toNat_of_sign_clear hsign
    obtain ⟨N, hN⟩ : ∃ N, (n >>> 24).toNat = N := ⟨_, rfl⟩
    obtain ⟨M, hM⟩ : ∃ M, (n &&& 0x007fffff).toNat = M := ⟨_, rfl⟩
    rw [hN, hM] at hn hdrop
    -- the mantissa has a nonzero leading byte and a clear sign bit
    have hM23 : M < 2 ^ 23 := by
      rw [← hM, UInt32.toNat_and, show (0x007fffff : UInt32).toNat = 2 ^ 23 - 1 from rfl,
        Nat.and_two_pow_sub_one_eq_mod]
      exact Nat.mod_lt _ (by norm_num)
    have hM16 : 2 ^ 16 ≤ M := by
      have h := hlead
      rw [ne_eq, ← UInt32.toNat_inj, UInt32.toNat_and, UInt32.toNat_shiftRight,
        show (16 : UInt32).toNat % 32 = 16 from rfl, show (0xff : UInt32).toNat = 2 ^ 8 - 1 from rfl,
        Nat.and_two_pow_sub_one_eq_mod, Nat.shiftRight_eq_div_pow, hn, UInt32.toNat_zero] at h
      omega
    -- no overflow: a two-byte mantissa allows at most `32` bytes
    have hN32 : N ≤ 32 := by
      by_contra hbig
      have hw : n &&& 0x007fffff ≠ 0 := fun h0 ↦ by
        rw [h0, UInt32.toNat_zero] at hM
        omega
      have h65 : (65535 : UInt32) < n &&& 0x007fffff := by
        rw [UInt32.lt_iff_toNat_lt, hM, show (65535 : UInt32).toNat = 65535 from rfl]
        omega
      simp only [SetCompact, hN, if_neg (show ¬N ≤ 3 by omega)] at hov
      simp [hw, h65] at hov
      omega
    have hN1 : 1 ≤ N := by
      by_contra h0
      have h := hdrop (by omega)
      rw [show N = 0 by omega] at h
      omega
    have hv := toNat_SetCompact n
    rw [hN, hM] at hv
    obtain ⟨x, hx⟩ : ∃ x, (SetCompact n).value.toNat = x := ⟨_, rfl⟩
    rw [hx] at hv
    obtain ⟨hlo, hhi, hm⟩ := setCompactValue_bounds hM16 hM23 hN1 hN32 hdrop hv
    have hsize : (Nat.size x + 7) / 8 = N := by
      have h1 := Nat.lt_size.mpr hlo
      have h2 := Nat.size_le.mpr hhi
      omega
    obtain ⟨h1, h2⟩ := compactParts_of_mantissa (hx ▸ hsize) (hx ▸ hm) hM23
    rw [h1, h2, hn]

/-- **The compact encoding round trips as far as it can.** `GetCompact` never fails an
`assert`; `SetCompact` reads its result back with neither flag, as the value cut below byte
`size / 8 - 2` and so never above it; and a word in normal form comes back from its value. -/
theorem compact_roundtrip :
    (∀ a : ArithUint256, (compactParts a).1 &&& ~~~0x007fffff = 0 ∧ (compactParts a).2 < 256) ∧
      (∀ a : ArithUint256, (SetCompact (GetCompact a false)).fNegative = false ∧
        (SetCompact (GetCompact a false)).fOverflow = false ∧
        (SetCompact (GetCompact a false)).value.toNat =
          a.toNat / 2 ^ (8 * (Nat.size a.toNat / 8 - 2)) * 2 ^ (8 * (Nat.size a.toNat / 8 - 2)) ∧
        (SetCompact (GetCompact a false)).value ≤ a) ∧
      (∀ n : UInt32, (SetCompact n).fNegative = false → (SetCompact n).fOverflow = false →
        (n = 0 ∨ (n &&& 0x00800000 = 0 ∧ n >>> 16 &&& 0xff ≠ 0 ∧
          ((n >>> 24).toNat < 3 →
            (n &&& 0x007fffff).toNat % 2 ^ (8 * (3 - (n >>> 24).toNat)) = 0))) →
        GetCompact (SetCompact n).value false = n) := by
  refine ⟨GetCompact_assert, fun a ↦ ?_, fun n _ hov hnorm ↦ GetCompact_SetCompact hov hnorm⟩
  obtain ⟨hneg, hov, hval⟩ := SetCompact_GetCompact a
  refine ⟨hneg, hov, hval, ?_⟩
  rw [BaseUint.le_iff_toNat_le, hval]
  exact Nat.div_mul_le_self _ _

/-- `0x04123456` is in normal form and comes back. -/
theorem compact_roundtrip_on_sample :
    GetCompact (SetCompact 0x04123456).value false = 0x04123456 :=
  compact_roundtrip.2.2 0x04123456 (by decide) (by decide) (Or.inr ⟨by decide, by decide, by decide⟩)

/-- `0x800001` has a bit length of 24, so `GetCompact` drops its low byte; `0x01123456` has a
clear sign bit and a nonzero leading mantissa byte but comes back as `0x01120000`. -/
theorem compact_roundtrip_truncates :
    (SetCompact (GetCompact (BaseUint.ofNat 0x800001) false)).value.toNat = 0x800000 ∧
      (SetCompact 0x01123456).fNegative = false ∧ (SetCompact 0x01123456).fOverflow = false ∧
      GetCompact (SetCompact 0x01123456).value false = 0x01120000 := by
  decide

end LightningCash
