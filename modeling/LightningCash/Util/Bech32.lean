import LightningCash.Lib.XorChecksum
import LightningCash.Util.StrEncodings

/-!
# Bech32 (bech32.cpp)

`Encode` appends to the human-readable part `hrp` a separator `'1'` and the 5-bit values followed
by six check symbols, written in `CHARSET`; `Decode` splits at the last `'1'`, reads the values
back through `CHARSET_REV` and accepts when `PolyMod` of the expanded `hrp` and the values is `1`.

`PolyMod` is a checksum linear in exclusive or in the sense of `LightningCash.Lib.XorChecksum`:
each step is `c ↦ polyModShift c ^^^ v`, where the shift moves the state five bits up and folds
the five bits that fall off back in through the generator. The shift is additive
(`polyModShift_xor`), moves small values without folding (`polyModShift_of_lt`) and sends no
nonzero state to zero (`polyModShift_eq_zero`): the first two give the check symbols
(`VerifyChecksum_CreateChecksum`), the last one the detection of a substituted symbol
(`VerifyChecksum_substitute`). The state is a `uint32_t` in the source; it never reaches
`2 ^ 30` (`polyModStep_lt`), so it is a natural number here.

Failure is the empty pair `{}` of the source, `([], [])`; reading `CHARSET` at a value of 33 or
more is undefined and is the error of `charAt`.
-/

namespace LightningCash

namespace Bech32

/-- `CHARSET`. -/
def CHARSET : List UInt8 := "qpzry9x8gf2tvdw0s3jn54khce6mua7l".toList.map Char.toUInt8

/-- `CHARSET_REV[c]`. -/
def CHARSET_REV (c : UInt8) : ℤ :=
  (List.flatten
    ([[-1, -1, -1, -1, -1, -1, -1, -1, -1, -1, -1, -1, -1, -1, -1, -1, -1, -1, -1],
      [-1, -1, -1, -1, -1, -1, -1, -1, -1, -1, -1, -1, -1, -1, -1, -1, -1, -1, -1],
      [-1, -1, -1, -1, -1, -1, -1, -1, -1, -1, 15, -1, 10, 17, 21, 20, 26, 30, 7],
      [5, -1, -1, -1, -1, -1, -1, -1, 29, -1, 24, 13, 25, 9, 8, 23, -1, 18, 22],
      [31, 27, 19, -1, 1, 0, 3, 16, 11, 28, 12, 14, 6, 4, 2, -1, -1, -1, -1],
      [-1, -1, 29, -1, 24, 13, 25, 9, 8, 23, -1, 18, 22, 31, 27, 19, -1, 1, 0],
      [3, 16, 11, 28, 12, 14, 6, 4, 2, -1, -1, -1, -1, -1]] : List (List ℤ))).getD c.toNat (-1)

/-- The generator words that `PolyMod` folds back in for the bits of `c0`. -/
def polyModGen (c0 : ℕ) : ℕ :=
  (if c0 &&& 1 ≠ 0 then 0x3b6a57b2 else 0) ^^^ (if c0 &&& 2 ≠ 0 then 0x26508e6d else 0) ^^^
    (if c0 &&& 4 ≠ 0 then 0x1ea119fa else 0) ^^^ (if c0 &&& 8 ≠ 0 then 0x3d4233dd else 0) ^^^
    (if c0 &&& 16 ≠ 0 then 0x2a1462b3 else 0)

/-- One pass of the loop of `PolyMod` on the value `v_i`. -/
def polyModStep (c : ℕ) (v_i : UInt8) : ℕ :=
  -- `uint8_t c0 = c >> 25`, then the five conditional `c ^= ...`
  (((c &&& 0x1ffffff) <<< 5) ^^^ v_i.toNat) ^^^ polyModGen (c >>> 25)

/-- `PolyMod(v)`. -/
def PolyMod (v : List UInt8) : ℕ := v.foldl polyModStep 1

/-- `ExpandHRP(hrp)`: the high bits of each character, a zero, then the low five bits. -/
def ExpandHRP (hrp : List UInt8) : List UInt8 :=
  hrp.map (fun c : UInt8 ↦ c >>> 5) ++ 0 :: hrp.map (fun c : UInt8 ↦ c &&& 0x1f)

/-- `VerifyChecksum(hrp, values)`. -/
def VerifyChecksum (hrp values : List UInt8) : Bool :=
  PolyMod (ExpandHRP hrp ++ values) = 1

/-- `CreateChecksum(hrp, values)`: the six 5-bit digits of `PolyMod` of the input padded with
six zeros, xor `1`. -/
def CreateChecksum (hrp values : List UInt8) : List UInt8 :=
  (List.range 6).map fun i ↦
    (((PolyMod (ExpandHRP hrp ++ values ++ List.replicate 6 0) ^^^ 1) >>> (5 * (5 - i))) &&&
      31).toUInt8

/-- `bech32::Encode(hrp, values)`. -/
def Encode (hrp values : List UInt8) : Except String (List UInt8) := do
  let chars ← (values ++ CreateChecksum hrp values).mapM fun c ↦ charAt CHARSET c.toNat
  pure (hrp ++ '1'.toUInt8 :: chars)

/-- `LowerCase(c)`. -/
def LowerCase (c : UInt8) : UInt8 :=
  if 'A'.toUInt8 ≤ c ∧ c ≤ 'Z'.toUInt8 then c - 'A'.toUInt8 + 'a'.toUInt8 else c

/-- `str.rfind(c)`: the last position of `c`. -/
def rfind (c : UInt8) : List UInt8 → Option ℕ
  | [] => none
  | x :: s =>
    match rfind c s with
    | some i => some (i + 1)
    | none => if x = c then some 0 else none

/-- The value of a data character, or `none` where `Decode` returns `{}`. -/
def charsetRev (c : UInt8) : Option UInt8 :=
  if c < 33 ∨ 126 < c then none
  else if CHARSET_REV c = -1 then none
  else some (CHARSET_REV c).toNat.toUInt8

/-- `bech32::Decode(str)`; `{}` is `([], [])`. -/
def Decode (str : List UInt8) : List UInt8 × List UInt8 :=
  if str.any fun c ↦ decide (c < 33 ∨ 126 < c) then ([], [])
  else if (str.any fun c ↦ decide ('a'.toUInt8 ≤ c ∧ c ≤ 'z'.toUInt8)) &&
      (str.any fun c ↦ decide ('A'.toUInt8 ≤ c ∧ c ≤ 'Z'.toUInt8)) then ([], [])
  else
    match rfind '1'.toUInt8 str with
    | none => ([], [])
    | some pos =>
      if 90 < str.length ∨ pos = 0 ∨ str.length < pos + 7 then ([], [])
      else
        match (str.drop (pos + 1)).mapM charsetRev with
        | none => ([], [])
        | some values =>
          if VerifyChecksum ((str.take pos).map LowerCase) values then
            ((str.take pos).map LowerCase, values.take (values.length - 6))
          else ([], [])

/-! ## The shift of `PolyMod` -/

/-- What a step of `PolyMod` does to its state before the value is added. -/
def polyModShift (c : ℕ) : ℕ := ((c &&& 0x1ffffff) <<< 5) ^^^ polyModGen (c >>> 25)

theorem polyModStep_eq (c : ℕ) (v : UInt8) : polyModStep c v = polyModShift c ^^^ v.toNat := by
  unfold polyModStep polyModShift
  ac_rfl

theorem PolyMod_eq_run (v : List UInt8) :
    PolyMod v = XorChecksum.run polyModShift 1 (v.map UInt8.toNat) := by
  unfold PolyMod XorChecksum.run
  rw [List.foldl_map]
  congr 1
  funext c x
  exact polyModStep_eq c x

/-- The generator word of one bit is additive in `c0`. -/
theorem ite_and_xor {x y m i : ℕ} (hm : m = 2 ^ i) (g : ℕ) :
    (if (x ^^^ y) &&& m ≠ 0 then g else 0) =
      (if x &&& m ≠ 0 then g else 0) ^^^ (if y &&& m ≠ 0 then g else 0) := by
  simp only [hm, Nat.and_two_pow, Nat.testBit_xor]
  cases x.testBit i <;> cases y.testBit i <;> simp

theorem polyModGen_xor (x y : ℕ) : polyModGen (x ^^^ y) = polyModGen x ^^^ polyModGen y := by
  unfold polyModGen
  rw [ite_and_xor (m := 1) (i := 0) rfl, ite_and_xor (m := 2) (i := 1) rfl,
    ite_and_xor (m := 4) (i := 2) rfl, ite_and_xor (m := 8) (i := 3) rfl,
    ite_and_xor (m := 16) (i := 4) rfl]
  ac_rfl

theorem polyModGen_lt (x : ℕ) : polyModGen x < 2 ^ 30 := by
  have hite : ∀ (b : Prop) [Decidable b] {g : ℕ}, g < 2 ^ 30 → (if b then g else 0) < 2 ^ 30 := by
    intro b _ g hg
    split
    · exact hg
    · exact Nat.two_pow_pos 30
  unfold polyModGen
  refine Nat.xor_lt_two_pow (Nat.xor_lt_two_pow (Nat.xor_lt_two_pow (Nat.xor_lt_two_pow
    (hite _ ?_) (hite _ ?_)) (hite _ ?_)) (hite _ ?_)) (hite _ ?_) <;> norm_num

/-- The five generator words differ in their low five bits: only `c0 = 0` folds in nothing
there. -/
theorem polyModGen_mod_eq_zero {c0 : ℕ} (h : c0 < 32) (h0 : polyModGen c0 % 32 = 0) : c0 = 0 := by
  have hall : ∀ c0 < 32, polyModGen c0 % 32 = 0 → c0 = 0 := by decide
  exact hall c0 h h0

/-- The shift is additive for `^^^`. -/
theorem polyModShift_xor (a b : ℕ) :
    polyModShift (a ^^^ b) = polyModShift a ^^^ polyModShift b := by
  unfold polyModShift
  rw [Nat.and_xor_distrib_right, Nat.shiftLeft_xor_distrib, Nat.shiftRight_xor_distrib,
    polyModGen_xor]
  ac_rfl

/-- A state below `2 ^ 25` is only moved up five bits. -/
theorem polyModShift_of_lt {a : ℕ} (ha : a < 2 ^ (5 * 5)) : polyModShift a = a * 2 ^ 5 := by
  have hlow : a &&& 0x1ffffff = a := by
    rw [and_mask (m := 0x1ffffff) 25 rfl]
    exact Nat.mod_eq_of_lt ha
  have hhigh : a >>> 25 = 0 := by
    rw [Nat.shiftRight_eq_div_pow]
    exact Nat.div_eq_of_lt ha
  have hgen : polyModGen 0 = 0 := by decide
  rw [polyModShift, hlow, hhigh, hgen, Nat.xor_zero, Nat.shiftLeft_eq]

theorem polyModShift_lt {a : ℕ} (_ha : a < 2 ^ 30) : polyModShift a < 2 ^ 30 := by
  have hlow : (a &&& 0x1ffffff) <<< 5 < 2 ^ 30 := by
    rw [and_mask (m := 0x1ffffff) 25 rfl]
    omega
  exact Nat.xor_lt_two_pow hlow (polyModGen_lt _)

/-- Below `2 ^ 30` only `0` shifts to `0`. -/
theorem polyModShift_eq_zero {a : ℕ} (ha : a < 2 ^ 30) (h : polyModShift a = 0) : a = 0 := by
  have hmask : ∀ z : ℕ, z &&& 31 = z % 32 := and_mask (m := 31) 5 rfl
  have hmod : ∀ x y : ℕ, (x ^^^ y) % 32 = x % 32 ^^^ y % 32 := by
    intro x y
    rw [← hmask, ← hmask, ← hmask, Nat.and_xor_distrib_right]
  have hlow : ((a &&& 0x1ffffff) <<< 5) % 32 = 0 := by omega
  have hgen : polyModGen (a >>> 25) % 32 = 0 := by
    have h32 := congrArg (· % 32) h
    simp only [polyModShift, hmod, hlow, Nat.zero_xor] at h32
    exact h32
  have hc0 : a >>> 25 = 0 := polyModGen_mod_eq_zero (by omega) hgen
  have hzero : (a &&& 0x1ffffff) <<< 5 = 0 := by
    rw [polyModShift, hc0] at h
    simpa [polyModGen] using h
  rw [and_mask (m := 0x1ffffff) 25 rfl] at hzero
  omega

/-- The state of `PolyMod` stays below `2 ^ 30`, so the `uint32_t` of the source never wraps. -/
theorem polyModStep_lt {c : ℕ} (hc : c < 2 ^ 30) (v : UInt8) : polyModStep c v < 2 ^ 30 := by
  rw [polyModStep_eq]
  exact Nat.xor_lt_two_pow (polyModShift_lt hc) (by have := v.toNat_lt; omega)

/-! ## The check symbols -/

theorem PolyMod_lt (v : List UInt8) : PolyMod v < 2 ^ 30 := by
  rw [PolyMod_eq_run]
  refine XorChecksum.run_lt (fun a ha ↦ polyModShift_lt ha) _ ?_ 1 (by norm_num)
  intro x hx
  obtain ⟨y, -, rfl⟩ := List.mem_map.mp hx
  have := y.toNat_lt
  omega

/-- Six 5-bit digits of a value below `2 ^ 30`, most significant first, spell it. -/
theorem digitsValue_checksum {r : ℕ} (hr : r < 2 ^ 30) :
    XorChecksum.digitsValue 5 (((List.range 6).map fun i ↦
      ((r >>> (5 * (5 - i))) &&& 31).toUInt8).map UInt8.toNat) = r := by
  have hmask : ∀ z : ℕ, z &&& 31 = z % 32 := and_mask (m := 31) 5 rfl
  have hdigit : ∀ z : ℕ, (z &&& 31).toUInt8.toNat = z % 32 := by
    intro z
    rw [hmask, toNat_toUInt8_of_lt (by omega)]
  simp only [List.range_succ, List.range_zero, List.nil_append, List.map_cons, List.map_nil,
    List.cons_append, hdigit, XorChecksum.digitsValue, List.foldl_cons, List.foldl_nil,
    Nat.shiftRight_eq_div_pow]
  omega

/-- `CreateChecksum` makes the checksum of the values followed by it come out at `1`. -/
theorem VerifyChecksum_CreateChecksum (hrp values : List UInt8) :
    VerifyChecksum hrp (values ++ CreateChecksum hrp values) = true := by
  -- the state after the expanded part and the values
  obtain ⟨s, hs⟩ : ∃ s, XorChecksum.run polyModShift 1
      ((ExpandHRP hrp ++ values).map UInt8.toNat) = s := ⟨_, rfl⟩
  have hs_lt : s < 2 ^ 30 := by
    rw [← hs, ← PolyMod_eq_run]
    exact PolyMod_lt _
  have hpad : PolyMod (ExpandHRP hrp ++ values ++ List.replicate 6 0) = polyModShift^[6] s := by
    rw [PolyMod_eq_run, List.map_append, XorChecksum.run_append, hs, List.map_replicate]
    exact XorChecksum.run_replicate_zero _ _ _
  have hmod_lt : polyModShift^[6] s ^^^ 1 < 2 ^ 30 := by
    have hiter : ∀ n, polyModShift^[n] s < 2 ^ 30 := by
      intro n
      induction n with
      | zero => exact hs_lt
      | succ n ih =>
        rw [Function.iterate_succ_apply']
        exact polyModShift_lt ih
    exact Nat.xor_lt_two_pow (hiter 6) (by norm_num)
  have hdigits : ∀ d ∈ (CreateChecksum hrp values).map UInt8.toNat, d < 2 ^ 5 := by
    intro d hd
    simp only [CreateChecksum, List.map_map, List.mem_map, List.mem_range] at hd
    obtain ⟨i, -, rfl⟩ := hd
    simp only [Function.comp, and_mask (m := 31) 5 rfl]
    rw [toNat_toUInt8_of_lt (by omega)]
    omega
  unfold VerifyChecksum
  rw [decide_eq_true_iff, ← List.append_assoc, PolyMod_eq_run, List.map_append,
    XorChecksum.run_append, hs]
  refine XorChecksum.run_append_digits polyModShift_xor (k := 5) (m := 5)
    (fun a ha ↦ polyModShift_of_lt ha) s 1 _ hdigits (by simp [CreateChecksum]) ?_
  rw [List.length_map, show (CreateChecksum hrp values).length = 6 by simp [CreateChecksum],
    CreateChecksum, hpad, digitsValue_checksum hmod_lt]

/-- Replacing one value of an input whose checksum is right by a different value makes it
wrong: the change moves `PolyMod` by a shifted nonzero word. -/
theorem VerifyChecksum_substitute {hrp w : List UInt8} (hw : VerifyChecksum hrp w = true)
    {j : ℕ} (hj : j < w.length) {v : UInt8} (hv : v ≠ w[j]) :
    VerifyChecksum hrp (w.set j v) = false := by
  have hsplit : w = w.take j ++ w[j] :: w.drop (j + 1) := by
    rw [List.getElem_cons_drop, List.take_append_drop]
  have hset : w.set j v = w.take j ++ v :: w.drop (j + 1) := by
    rw [List.set_eq_take_append_cons_drop, if_pos hj]
  -- the change of the value, as a word
  obtain ⟨e, he⟩ : ∃ e, e = w[j].toNat ^^^ v.toNat := ⟨_, rfl⟩
  have he0 : e ≠ 0 := by
    intro h0
    rw [h0] at he
    exact hv (UInt8.toNat_inj.mp (Nat.eq_of_xor_eq_zero he.symm).symm)
  have he_lt : e < 2 ^ 30 := by
    rw [he]
    exact Nat.xor_lt_two_pow (by have := w[j].toNat_lt; omega) (by have := v.toNat_lt; omega)
  have hv' : v.toNat = w[j].toNat ^^^ e := by
    rw [he, ← Nat.xor_assoc, Nat.xor_self, Nat.zero_xor]
  unfold VerifyChecksum at hw ⊢
  rw [decide_eq_true_iff] at hw
  rw [decide_eq_false_iff_not, hset, PolyMod_eq_run, ← List.append_assoc, List.map_append,
    List.map_cons, hv']
  rw [hsplit, PolyMod_eq_run, ← List.append_assoc, List.map_append, List.map_cons] at hw
  intro h
  exact XorChecksum.run_substitute_ne polyModShift_xor (B := 2 ^ 30)
    (fun a ha ↦ polyModShift_lt ha) (fun a ha h0 ↦ polyModShift_eq_zero ha h0) 1 _ he_lt he0
    _ _ (h.trans hw.symm)

/-! ## Strings -/

/-- A human-readable part of characters in `[33, 126]` with no upper-case letter. -/
def LowerHrp (hrp : List UInt8) : Prop :=
  ∀ c ∈ hrp, 33 ≤ c ∧ c ≤ 126 ∧ ¬('A'.toUInt8 ≤ c ∧ c ≤ 'Z'.toUInt8)

instance (hrp : List UInt8) : Decidable (LowerHrp hrp) :=
  inferInstanceAs
    (Decidable (∀ c ∈ hrp, 33 ≤ c ∧ c ≤ 126 ∧ ¬('A'.toUInt8 ≤ c ∧ c ≤ 'Z'.toUInt8)))

/-- The character `Encode` writes for a value. -/
def symbol (v : UInt8) : UInt8 := CHARSET.getD v.toNat 0

/-- The characters of `CHARSET` are printable, not upper case and not `'1'`, and `charsetRev`
reads each back as its position. -/
theorem symbol_facts {v : UInt8} (hv : v < 32) :
    33 ≤ symbol v ∧ symbol v ≤ 126 ∧ ¬('A'.toUInt8 ≤ symbol v ∧ symbol v ≤ 'Z'.toUInt8) ∧
      symbol v ≠ '1'.toUInt8 ∧ charsetRev (symbol v) = some v := by
  have hall : ∀ n : ℕ, n < 32 → 33 ≤ symbol n.toUInt8 ∧ symbol n.toUInt8 ≤ 126 ∧
      ¬('A'.toUInt8 ≤ symbol n.toUInt8 ∧ symbol n.toUInt8 ≤ 'Z'.toUInt8) ∧
      symbol n.toUInt8 ≠ '1'.toUInt8 ∧ charsetRev (symbol n.toUInt8) = some n.toUInt8 := by
    decide
  have hn : v.toNat.toUInt8 = v := toUInt8_eq_of_toNat rfl
  have h := hall v.toNat (by simpa [UInt8.lt_iff_toNat_lt] using hv)
  rwa [hn] at h

theorem mem_CHARSET {c : UInt8} (hc : c ∈ CHARSET) : ∃ v : UInt8, v < 32 ∧ symbol v = c := by
  obtain ⟨n, hn, rfl⟩ := List.getElem_of_mem hc
  have hlen : CHARSET.length = 32 := by decide
  refine ⟨n.toUInt8, ?_, ?_⟩
  · rw [UInt8.lt_iff_toNat_lt, toNat_toUInt8_of_lt (by omega)]
    simpa [hlen] using hn
  · rw [symbol, toNat_toUInt8_of_lt (by omega), List.getD_eq_getElem _ _ hn]

theorem mapM_charAt {l : List UInt8} (hl : ∀ c ∈ l, c < 32) :
    l.mapM (fun c ↦ charAt CHARSET c.toNat) = .ok (l.map symbol) := by
  induction l with
  | nil => rfl
  | cons c l ih =>
    have hc : c.toNat < CHARSET.length := by
      have hlt := hl c List.mem_cons_self
      have hlen : CHARSET.length = 32 := by decide
      rw [UInt8.lt_iff_toNat_lt] at hlt
      rw [hlen]
      simpa using hlt
    rw [List.mapM_cons, charAt_of_lt hc, ih (fun d hd ↦ hl d (List.mem_cons_of_mem _ hd)),
      List.map_cons, symbol, List.getD_eq_getElem _ _ hc]
    rfl

/-- The symbols of values below 32 read back as those values. -/
theorem mapM_charsetRev {w : List UInt8} (hw : ∀ v ∈ w, v < 32) :
    (w.map symbol).mapM charsetRev = some w := by
  induction w with
  | nil => rfl
  | cons v w ih =>
    rw [List.map_cons, List.mapM_cons, (symbol_facts (hw v List.mem_cons_self)).2.2.2.2,
      ih (fun u hu ↦ hw u (List.mem_cons_of_mem _ hu))]
    rfl

theorem CreateChecksum_lt (hrp values : List UInt8) : ∀ c ∈ CreateChecksum hrp values, c < 32 := by
  intro c hc
  simp only [CreateChecksum, List.mem_map, List.mem_range] at hc
  obtain ⟨i, -, rfl⟩ := hc
  rw [UInt8.lt_iff_toNat_lt, and_mask (m := 31) 5 rfl, toNat_toUInt8_of_lt (by omega)]
  simp only [UInt8.toNat_ofNat]
  omega

theorem checksummed_lt {hrp values : List UInt8} (hv : ∀ v ∈ values, v < 32) :
    ∀ c ∈ values ++ CreateChecksum hrp values, c < 32 := by
  intro c hc
  rcases List.mem_append.mp hc with h | h
  · exact hv c h
  · exact CreateChecksum_lt hrp values c h

theorem length_CreateChecksum (hrp values : List UInt8) : (CreateChecksum hrp values).length = 6 := by
  simp [CreateChecksum]

/-- What `Encode` writes: the part, the separator, and the symbols of the values and the
checksum. -/
theorem Encode_eq {hrp values : List UInt8} (hv : ∀ v ∈ values, v < 32) :
    Encode hrp values =
      .ok (hrp ++ '1'.toUInt8 :: (values ++ CreateChecksum hrp values).map symbol) := by
  simp [Encode, mapM_charAt (checksummed_lt hv)]

theorem rfind_eq_none {c : UInt8} {t : List UInt8} (ht : c ∉ t) : rfind c t = none := by
  induction t with
  | nil => rfl
  | cons x t ih =>
    have hx : x ≠ c := fun h ↦ ht (h ▸ List.mem_cons_self)
    rw [rfind, ih (fun h ↦ ht (List.mem_cons_of_mem _ h))]
    simp [hx]

/-- The last `c` is the one before a tail without `c`. -/
theorem rfind_append_cons {c : UInt8} (s : List UInt8) {t : List UInt8} (ht : c ∉ t) :
    rfind c (s ++ c :: t) = some s.length := by
  induction s with
  | nil => simp [rfind, rfind_eq_none ht]
  | cons x s ih => simp [rfind, ih]

/-- A separator at position `0`: `Decode` returns `{}`. -/
theorem Decode_of_rfind_zero {str : List UInt8} (h : rfind '1'.toUInt8 str = some 0) :
    Decode str = ([], []) := by
  unfold Decode
  simp [h]

/-- `Decode` on a part, the separator and symbols: it returns the part and the values before the
six check symbols exactly when the checksum is right. -/
theorem Decode_of_symbols {hrp w : List UInt8} (hhrp : hrp ≠ []) (hlow : LowerHrp hrp)
    (hw : ∀ v ∈ w, v < 32) (h6 : 6 ≤ w.length) (hlen : hrp.length + 1 + w.length ≤ 90) :
    Decode (hrp ++ '1'.toUInt8 :: w.map symbol) =
      if VerifyChecksum hrp w then (hrp, w.take (w.length - 6)) else ([], []) := by
  have hsym : ∀ c ∈ w.map symbol, 33 ≤ c ∧ c ≤ 126 ∧ ¬('A'.toUInt8 ≤ c ∧ c ≤ 'Z'.toUInt8) ∧
      c ≠ '1'.toUInt8 := by
    intro c hc
    obtain ⟨v, hv, rfl⟩ := List.mem_map.mp hc
    obtain ⟨h1, h2, h3, h4, -⟩ := symbol_facts (hw v hv)
    exact ⟨h1, h2, h3, h4⟩
  have hrange : ((hrp ++ '1'.toUInt8 :: w.map symbol).any
      fun c ↦ decide (c < 33 ∨ 126 < c)) = false := by
    simp only [List.any_eq_false, List.mem_append, List.mem_cons, decide_eq_true_eq, not_or]
    rintro c (hc | rfl | hc)
    · exact ⟨UInt8.not_lt.mpr (hlow c hc).1, UInt8.not_lt.mpr (hlow c hc).2.1⟩
    · exact ⟨by decide, by decide⟩
    · exact ⟨UInt8.not_lt.mpr (hsym c hc).1, UInt8.not_lt.mpr (hsym c hc).2.1⟩
  have hupper : ((hrp ++ '1'.toUInt8 :: w.map symbol).any
      fun c ↦ decide ('A'.toUInt8 ≤ c ∧ c ≤ 'Z'.toUInt8)) = false := by
    simp only [List.any_eq_false, List.mem_append, List.mem_cons, decide_eq_true_eq]
    rintro c (hc | rfl | hc)
    · exact (hlow c hc).2.2
    · decide
    · exact (hsym c hc).2.2.1
  have hrfind : rfind '1'.toUInt8 (hrp ++ '1'.toUInt8 :: w.map symbol) = some hrp.length :=
    rfind_append_cons hrp fun h ↦ (hsym _ h).2.2.2 rfl
  have hpos : hrp.length ≠ 0 := fun h ↦ hhrp (List.eq_nil_of_length_eq_zero h)
  have hvalues : ((hrp ++ '1'.toUInt8 :: w.map symbol).drop (hrp.length + 1)).mapM charsetRev =
      some w := by
    rw [show hrp ++ '1'.toUInt8 :: w.map symbol = (hrp ++ ['1'.toUInt8]) ++ w.map symbol by simp,
      List.drop_left' (by simp)]
    exact mapM_charsetRev hw
  have hhrp' : ((hrp ++ '1'.toUInt8 :: w.map symbol).take hrp.length).map LowerCase = hrp := by
    rw [List.take_left' rfl]
    conv => rhs; rw [← List.map_id hrp]
    refine List.map_congr_left fun c hc ↦ ?_
    simp [LowerCase, (hlow c hc).2.2]
  simp only [Decode, hrange, hupper, Bool.and_false, hrfind, hvalues, hhrp', Bool.false_eq_true,
    if_false, List.length_append, List.length_cons, List.length_map]
  rw [if_neg (by omega)]

/-! ## Round trip and single substitutions -/

/-- For a non-empty lower-case part and 5-bit values that fit in 90 characters, decoding what
`Encode` writes gives them back. -/
theorem Decode_Encode {hrp values : List UInt8} (hhrp : hrp ≠ []) (hlow : LowerHrp hrp)
    (hv : ∀ v ∈ values, v < 32) (hlen : hrp.length + 1 + values.length + 6 ≤ 90) :
    Decode <$> Encode hrp values = .ok (hrp, values) := by
  have hcs := length_CreateChecksum hrp values
  rw [Encode_eq hv, Except.map_ok, Decode_of_symbols hhrp hlow (checksummed_lt hv)
    (by simp [hcs]) (by simp [hcs]; omega), VerifyChecksum_CreateChecksum, if_pos rfl]
  simp [hcs]

/-- Replacing one character of the data part of an encoding by a different character of
`CHARSET` gives a string that `Decode` rejects. -/
theorem Decode_substitute {hrp values s : List UInt8} (hlow : LowerHrp hrp)
    (hv : ∀ v ∈ values, v < 32) (hlen : hrp.length + 1 + values.length + 6 ≤ 90)
    (hs : Encode hrp values = .ok s) {j : ℕ} (hj : j < values.length + 6) {c : UInt8}
    (hc : c ∈ CHARSET) (hne : c ≠ s.getD (hrp.length + 1 + j) 0) :
    Decode (s.set (hrp.length + 1 + j) c) = ([], []) := by
  rw [Encode_eq hv, Except.ok.injEq] at hs
  subst hs
  obtain ⟨w, hw⟩ : ∃ w, w = values ++ CreateChecksum hrp values := ⟨_, rfl⟩
  rw [← hw] at hne ⊢
  have hwlen : w.length = values.length + 6 := by simp [hw, length_CreateChecksum]
  have hjw : j < w.length := by omega
  obtain ⟨v', hv', rfl⟩ := mem_CHARSET hc
  -- the substitution happens in the data part, at position `j` of the values
  have hset : (hrp ++ '1'.toUInt8 :: w.map symbol).set (hrp.length + 1 + j) (symbol v') =
      hrp ++ '1'.toUInt8 :: (w.set j v').map symbol := by
    rw [List.set_append_right _ _ (by omega), show hrp.length + 1 + j - hrp.length = j + 1 by omega,
      List.set_cons_succ, List.map_set]
  have hget : (hrp ++ '1'.toUInt8 :: w.map symbol).getD (hrp.length + 1 + j) 0 = symbol w[j] := by
    rw [List.getD_append_right _ _ _ _ (by omega),
      show hrp.length + 1 + j - hrp.length = j + 1 by omega, List.getD_cons_succ,
      List.getD_eq_getElem _ _ (by simpa using hjw), List.getElem_map]
  have hne' : v' ≠ w[j] := fun h ↦ hne (by rw [hget, h])
  have hw32 : ∀ u ∈ w.set j v', u < 32 := by
    intro u hu
    rcases List.mem_or_eq_of_mem_set hu with hu | rfl
    · exact checksummed_lt hv u (hw ▸ hu)
    · exact hv'
  rw [hset]
  by_cases hhrp : hrp = []
  · -- a separator at position `0`
    subst hhrp
    exact Decode_of_rfind_zero (rfind_append_cons [] fun h ↦ by
      obtain ⟨u, hu, hsym⟩ := List.mem_map.mp h
      exact (symbol_facts (hw32 u hu)).2.2.2.1 hsym)
  · have hcheck : VerifyChecksum hrp w = true := hw ▸ VerifyChecksum_CreateChecksum hrp values
    rw [Decode_of_symbols hhrp hlow hw32 (by simp; omega) (by simp; omega),
      VerifyChecksum_substitute hcheck hjw hne']
    rfl

/-- Bech32 round-trips every non-empty lower-case part with 5-bit values that fit in 90
characters, and rejects every string made from an encoding by substituting one character of
its data part by another character of `CHARSET`. -/
theorem Decode_Encode_detects_substitution :
    (∀ hrp values, hrp ≠ [] → LowerHrp hrp → (∀ v ∈ values, v < 32) →
        hrp.length + 1 + values.length + 6 ≤ 90 →
        Decode <$> Encode hrp values = .ok (hrp, values)) ∧
    (∀ hrp values s, LowerHrp hrp → (∀ v ∈ values, v < 32) →
        hrp.length + 1 + values.length + 6 ≤ 90 → Encode hrp values = .ok s →
        ∀ j < values.length + 6, ∀ c ∈ CHARSET, c ≠ s.getD (hrp.length + 1 + j) 0 →
          Decode (s.set (hrp.length + 1 + j) c) = ([], [])) :=
  ⟨fun _ _ hhrp hlow hv hlen ↦ Decode_Encode hhrp hlow hv hlen,
    fun _ _ _ hlow hv hlen hs _ hj _ hc hne ↦ Decode_substitute hlow hv hlen hs hj hc hne⟩

/-- The part `"a"` with no values, which `Encode` writes as `"a12uel5l"`. -/
def hrpA : List UInt8 := "a".toList.map Char.toUInt8

theorem Decode_Encode_detects_substitution_on_a :
    Decode <$> Encode hrpA [] = .ok (hrpA, []) ∧
      Decode (("a12uel5l".toList.map Char.toUInt8).set (hrpA.length + 1 + 0) 'q'.toUInt8) =
        ([], []) :=
  ⟨Decode_Encode_detects_substitution.1 hrpA [] (by decide) (by decide +kernel) (by simp)
      (by decide),
    Decode_Encode_detects_substitution.2 hrpA [] ("a12uel5l".toList.map Char.toUInt8)
      (by decide +kernel) (by simp) (by decide) (by decide) 0 (by decide) 'q'.toUInt8
      (by decide +kernel) (by decide +kernel)⟩

/-- With an empty part the separator is at position `0`, which `Decode` rejects: the value `0`
does not come back. -/
theorem Decode_Encode_empty_hrp :
    Decode <$> Encode [] [0] = .ok ([], []) ∧ Decode <$> Encode [] [0] ≠ .ok ([], [0]) := by
  have hv : ∀ v ∈ [(0 : UInt8)], v < 32 := by simp
  have hdec : Decode <$> Encode [] [0] = .ok ([], []) := by
    rw [Encode_eq hv, Except.map_ok,
      Decode_of_rfind_zero (rfind_append_cons [] fun h ↦ by
        obtain ⟨u, hu, hsym⟩ := List.mem_map.mp h
        exact (symbol_facts (checksummed_lt hv u hu)).2.2.2.1 hsym)]
  refine ⟨hdec, ?_⟩
  rw [hdec]
  simp

example : Encode ("a".toList.map Char.toUInt8) [] = .ok ("a12uel5l".toList.map Char.toUInt8) := by
  decide

end Bech32

end LightningCash
