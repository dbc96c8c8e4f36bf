import LightningCash.Serialize.Serialize
import LightningCash.Script.Script

/-!
# Compressed amounts, scripts and outputs

`CTxOutCompressor::CompressAmount` and `DecompressAmount` of `compressor.cpp`. An amount
`n = m * 10 ^ e` with `m` free of trailing zeros (or `e = 9`) is coded from its exponent, the
last digit `d` of `m` and the rest of `m`: `1 + (m / 10 * 9 + d - 1) * 10 + e` for `e < 9`,
`1 + (m - 1) * 10 + 9` for `e = 9`, and zero as zero.

The first half states the code in unbounded naturals and proves it a bijection of `ℕ` with its
inverse. The second half is the code on `uint64_t`, whose arithmetic wraps; it computes the
unbounded values modulo `2 ^ 64`, so the two functions invert each other wherever the unbounded
computation stays below `2 ^ 64`, which it does for every amount up to `MAX_MONEY`.

`CScriptCompressor` writes the four standard script templates (pay to key hash, pay to script
hash, pay to a compressed or a fully valid uncompressed key) as a tag below `nSpecialScripts`
and the template's variable bytes, and every other script as its size plus `nSpecialScripts`,
as a `VarInt`, then its bytes. The `secp256k1` calls are parameters. `CTxOutCompressor` writes
the compressed amount as a `VarInt` and then the script.
-/

namespace LightningCash

/-! ## Amount compression in unbounded arithmetic -/

/-- Trailing decimal zeros taken off `n`, counted on from `e` and at most up to nine. -/
def stripZeros (n e : ℕ) : ℕ × ℕ :=
  if n % 10 = 0 ∧ e < 9 then stripZeros (n / 10) (e + 1) else (n, e)
termination_by 9 - e

/-- `CompressAmount` computed without wrapping. -/
def compressAmountNat (n : ℕ) : ℕ :=
  if n = 0 then 0 else
  let (n, e) := stripZeros n 0
  if e < 9 then
    let d := n % 10
    let n := n / 10
    1 + (n * 9 + d - 1) * 10 + e
  else 1 + (n - 1) * 10 + 9

/-- `DecompressAmount` computed without wrapping. -/
def decompressAmountNat (x : ℕ) : ℕ :=
  if x = 0 then 0 else
  let x := x - 1
  let e := x % 10
  let x := x / 10
  let n := if e < 9 then x / 9 * 10 + (x % 9 + 1) else x + 1
  n * 10 ^ e

/-- What the loop leaves: `n` is the rest times a power of ten, and the rest has no trailing
zero unless nine were taken. -/
theorem stripZeros_spec {n e m e' : ℕ} (he : e ≤ 9) (h : stripZeros n e = (m, e')) :
    n = m * 10 ^ (e' - e) ∧ e ≤ e' ∧ e' ≤ 9 ∧ (e' = 9 ∨ m % 10 ≠ 0) := by
  induction n, e using stripZeros.induct with
  | case1 n e hz ih =>
    rw [stripZeros, if_pos hz] at h
    obtain ⟨hn, hle, h9, hm⟩ := ih (by omega) h
    have hexp : e' - e = e' - (e + 1) + 1 := by omega
    refine ⟨?_, by omega, h9, hm⟩
    rw [hexp, pow_succ, ← mul_assoc, ← hn]
    omega
  | case2 n e hz =>
    rw [stripZeros, if_neg hz] at h
    obtain ⟨rfl, rfl⟩ := Prod.mk.inj h
    refine ⟨by simp, le_rfl, he, ?_⟩
    omega

/-- The loop takes off exactly the zeros of a known factorisation. -/
theorem stripZeros_mul_pow {m : ℕ} (k : ℕ) {e : ℕ} (hk : e + k ≤ 9)
    (hm : e + k = 9 ∨ m % 10 ≠ 0) : stripZeros (m * 10 ^ k) e = (m, e + k) := by
  induction k generalizing e with
  | zero =>
    rw [pow_zero, mul_one, stripZeros, if_neg (by omega)]
    rfl
  | succ k ih =>
    have hdiv : m * 10 ^ (k + 1) / 10 = m * 10 ^ k := by
      rw [pow_succ, ← mul_assoc, Nat.mul_div_cancel _ (by norm_num)]
    rw [stripZeros, if_pos ⟨by rw [pow_succ, ← mul_assoc]; exact Nat.mul_mod_left _ _, by omega⟩,
      hdiv, ih (by omega) (by omega)]
    congr 1
    omega

theorem decompressAmountNat_compressAmountNat (n : ℕ) :
    decompressAmountNat (compressAmountNat n) = n := by
  by_cases hn0 : n = 0
  · simp [compressAmountNat, decompressAmountNat, hn0]
  rcases hs : stripZeros n 0 with ⟨m, e⟩
  obtain ⟨hn, -, he9, hm⟩ := stripZeros_spec (Nat.zero_le 9) hs
  rw [Nat.sub_zero] at hn
  have hm0 : m ≠ 0 := by
    rintro rfl
    exact hn0 (by rw [hn, zero_mul])
  simp only [compressAmountNat, if_neg hn0, hs]
  by_cases he : e < 9
  · -- `m` ends in a nonzero digit, which the code keeps below nine as `d - 1`
    have hd : m % 10 ≠ 0 := hm.resolve_left (by omega)
    have hx : 1 + (m / 10 * 9 + m % 10 - 1) * 10 + e - 1 = (m / 10 * 9 + m % 10 - 1) * 10 + e := by
      omega
    have hmod : ((m / 10 * 9 + m % 10 - 1) * 10 + e) % 10 = e := by omega
    have hdiv : ((m / 10 * 9 + m % 10 - 1) * 10 + e) / 10 = m / 10 * 9 + m % 10 - 1 := by omega
    have hmant : (m / 10 * 9 + m % 10 - 1) / 9 * 10 + ((m / 10 * 9 + m % 10 - 1) % 9 + 1) = m := by
      omega
    simp only [if_pos he, decompressAmountNat,
      if_neg (show 1 + (m / 10 * 9 + m % 10 - 1) * 10 + e ≠ 0 by omega), hx, hmod, hdiv, hmant]
    exact hn.symm
  · -- nine zeros taken: the rest of `m` is stored whole
    obtain rfl : e = 9 := by omega
    have hx : 1 + (m - 1) * 10 + 9 - 1 = (m - 1) * 10 + 9 := by omega
    have hmod : ((m - 1) * 10 + 9) % 10 = 9 := by omega
    have hdiv : ((m - 1) * 10 + 9) / 10 = m - 1 := by omega
    simp only [decompressAmountNat, if_neg (show 1 + (m - 1) * 10 + 9 ≠ 0 by omega), hx, hmod,
      hdiv, lt_irrefl, if_false, Nat.sub_add_cancel (Nat.one_le_iff_ne_zero.mpr hm0)]
    exact hn.symm

theorem compressAmountNat_decompressAmountNat (x : ℕ) :
    compressAmountNat (decompressAmountNat x) = x := by
  by_cases hx0 : x = 0
  · simp [compressAmountNat, decompressAmountNat, hx0]
  simp only [decompressAmountNat, if_neg hx0]
  -- the code is `1 + q * 10 + e` with exponent `e`
  generalize he : (x - 1) % 10 = e
  generalize hq : (x - 1) / 10 = q
  have hx : x = 1 + q * 10 + e := by omega
  by_cases he9 : e < 9
  · have hd : (q / 9 * 10 + (q % 9 + 1)) % 10 ≠ 0 := by omega
    rw [if_pos he9, compressAmountNat, if_neg (mul_ne_zero (by omega) (by positivity)),
      stripZeros_mul_pow e (by omega) (.inr hd)]
    simp only [zero_add, if_pos he9]
    omega
  · have hmant : q + 1 ≠ 0 := by omega
    rw [if_neg he9, compressAmountNat, if_neg (mul_ne_zero hmant (by positivity)),
      stripZeros_mul_pow e (by omega) (.inl (by omega))]
    simp only [zero_add, if_neg he9]
    omega

/-- The code is at most ten times the amount. -/
theorem compressAmountNat_le (n : ℕ) : compressAmountNat n ≤ 10 * n := by
  by_cases hn0 : n = 0
  · simp [compressAmountNat, hn0]
  rcases hs : stripZeros n 0 with ⟨m, e⟩
  obtain ⟨hn, -, he9, -⟩ := stripZeros_spec (Nat.zero_le 9) hs
  rw [Nat.sub_zero] at hn
  have hm : m ≤ n := by
    rw [hn]
    exact Nat.le_mul_of_pos_right m (by positivity)
  have hm0 : m ≠ 0 := by
    rintro rfl
    exact hn0 (by rw [hn, zero_mul])
  simp only [compressAmountNat, if_neg hn0, hs]
  split_ifs <;> omega

/-! ## The code on `uint64_t` -/

/-- The loop of `CompressAmount`. -/
def compressAmountLoop (n : UInt64) (e : ℕ) : UInt64 × ℕ :=
  if n % 10 = 0 ∧ e < 9 then compressAmountLoop (n / 10) (e + 1) else (n, e)
termination_by 9 - e

def CompressAmount (n : UInt64) : UInt64 :=
  if n = 0 then 0 else
  let (n, e) := compressAmountLoop n 0
  if e < 9 then
    let d := n % 10
    let n := n / 10
    1 + (n * 9 + d - 1) * 10 + e.toUInt64
  else 1 + (n - 1) * 10 + 9

/-- The closing loop of `DecompressAmount`: `n` multiplied by ten, `e` times. -/
def decompressAmountLoop (n : UInt64) : ℕ → UInt64
  | 0 => n
  | e + 1 => decompressAmountLoop (n * 10) e

def DecompressAmount (x : UInt64) : UInt64 :=
  if x = 0 then 0 else
  let x := x - 1
  let e := (x % 10).toNat
  let x := x / 10
  let n := if e < 9 then x / 9 * 10 + (x % 9 + 1) else x + 1
  decompressAmountLoop n e

theorem ofNat_toNat_div (q : UInt64) {k : ℕ} (hk : k < 2 ^ 64) :
    UInt64.ofNat (q.toNat / k) = q / UInt64.ofNat k := by
  rw [← UInt64.ofNat_toNat (x := q / _), UInt64.toNat_div, UInt64.toNat_ofNat',
    Nat.mod_eq_of_lt hk]

theorem ofNat_toNat_mod (q : UInt64) {k : ℕ} (hk : k < 2 ^ 64) :
    UInt64.ofNat (q.toNat % k) = q % UInt64.ofNat k := by
  rw [← UInt64.ofNat_toNat (x := q % _), UInt64.toNat_mod, UInt64.toNat_ofNat',
    Nat.mod_eq_of_lt hk]

theorem compressAmountLoop_toNat (n : UInt64) (e : ℕ) :
    stripZeros n.toNat e = ((compressAmountLoop n e).1.toNat, (compressAmountLoop n e).2) := by
  induction n, e using compressAmountLoop.induct with
  | case1 n e hz ih =>
    have hz' : n.toNat % 10 = 0 ∧ e < 9 := ⟨by simpa [← UInt64.toNat_inj] using hz.1, hz.2⟩
    rw [stripZeros, if_pos hz', compressAmountLoop, if_pos hz, ← ih, UInt64.toNat_div]
    rfl
  | case2 n e hz =>
    have hz' : ¬(n.toNat % 10 = 0 ∧ e < 9) := fun h ↦
      hz ⟨by simpa [← UInt64.toNat_inj] using h.1, h.2⟩
    rw [stripZeros, if_neg hz', compressAmountLoop, if_neg hz]

theorem decompressAmountLoop_ofNat (N e : ℕ) :
    decompressAmountLoop (UInt64.ofNat N) e = UInt64.ofNat (N * 10 ^ e) := by
  induction e generalizing N with
  | zero => rw [pow_zero, mul_one, decompressAmountLoop]
  | succ e ih =>
    rw [decompressAmountLoop, show UInt64.ofNat N * 10 = UInt64.ofNat (N * 10) from
      (UInt64.ofNat_mul N 10).symm, ih, pow_succ', mul_assoc]

/-- The code computes the unbounded code, wrapped to 64 bits. -/
theorem CompressAmount_eq_ofNat (n : UInt64) :
    CompressAmount n = UInt64.ofNat (compressAmountNat n.toNat) := by
  by_cases hn0 : n = 0
  · subst hn0
    rfl
  have hn0' : n.toNat ≠ 0 := fun h ↦ hn0 (UInt64.toNat_inj.mp h)
  rcases hs : compressAmountLoop n 0 with ⟨m, e⟩
  have hstrip : stripZeros n.toNat 0 = (m.toNat, e) := by
    rw [compressAmountLoop_toNat, hs]
  obtain ⟨hn, -, -, hm⟩ := stripZeros_spec (Nat.zero_le 9) hstrip
  simp only [CompressAmount, if_neg hn0, hs, compressAmountNat, if_neg hn0', hstrip]
  split_ifs with he
  · -- the last digit of `m` is not zero, so the subtraction does not wrap
    have hd : 1 ≤ m.toNat / 10 * 9 + m.toNat % 10 := by
      have := hm.resolve_left (by omega)
      omega
    rw [UInt64.ofNat_add, UInt64.ofNat_add, UInt64.ofNat_mul, UInt64.ofNat_sub hd,
      UInt64.ofNat_add, UInt64.ofNat_mul, ofNat_toNat_div m (by norm_num),
      ofNat_toNat_mod m (by norm_num)]
    rfl
  · -- nine zeros were taken from a nonzero amount, so `m` is not zero
    have hm0 : 1 ≤ m.toNat := by
      rcases Nat.eq_zero_or_pos m.toNat with h0 | h0
      · rw [h0, zero_mul] at hn
        exact absurd hn hn0'
      · exact h0
    rw [UInt64.ofNat_add, UInt64.ofNat_add, UInt64.ofNat_mul, UInt64.ofNat_sub hm0,
      UInt64.ofNat_toNat]
    rfl

/-- The code computes the unbounded inverse, wrapped to 64 bits. -/
theorem DecompressAmount_eq_ofNat (x : UInt64) :
    DecompressAmount x = UInt64.ofNat (decompressAmountNat x.toNat) := by
  by_cases hx0 : x = 0
  · subst hx0
    rfl
  have hx0' : x.toNat ≠ 0 := fun h ↦ hx0 (UInt64.toNat_inj.mp h)
  have hsub : (x - 1).toNat = x.toNat - 1 :=
    UInt64.toNat_sub_of_le _ _ (UInt64.le_iff_toNat_le.mpr (by change 1 ≤ x.toNat; omega))
  have he : ((x - 1) % 10).toNat = (x.toNat - 1) % 10 := by
    rw [UInt64.toNat_mod, hsub]
    rfl
  have hq : ((x - 1) / 10).toNat = (x.toNat - 1) / 10 := by
    rw [UInt64.toNat_div, hsub]
    rfl
  simp only [DecompressAmount, if_neg hx0, decompressAmountNat, if_neg hx0', he]
  rw [← hq]
  generalize (x - 1) / 10 = q
  -- wrapping commutes with the mantissa's arithmetic and with the loop's multiplications
  rw [← decompressAmountLoop_ofNat]
  congr 1
  split_ifs
  · rw [UInt64.ofNat_add, UInt64.ofNat_mul, UInt64.ofNat_add, ofNat_toNat_div _ (by norm_num),
      ofNat_toNat_mod _ (by norm_num)]
    rfl
  · rw [UInt64.ofNat_add, UInt64.ofNat_toNat]
    rfl

theorem toNat_ofNat_of_lt {N : ℕ} (h : N < 2 ^ 64) : (UInt64.ofNat N).toNat = N := by
  rw [UInt64.toNat_ofNat', Nat.mod_eq_of_lt h]

theorem DecompressAmount_CompressAmount {n : UInt64} (hn : compressAmountNat n.toNat < 2 ^ 64) :
    DecompressAmount (CompressAmount n) = n := by
  rw [DecompressAmount_eq_ofNat, CompressAmount_eq_ofNat, toNat_ofNat_of_lt hn,
    decompressAmountNat_compressAmountNat, UInt64.ofNat_toNat]

theorem CompressAmount_DecompressAmount {x : UInt64} (hx : decompressAmountNat x.toNat < 2 ^ 64) :
    CompressAmount (DecompressAmount x) = x := by
  rw [CompressAmount_eq_ofNat, DecompressAmount_eq_ofNat, toNat_ofNat_of_lt hx,
    compressAmountNat_decompressAmountNat, UInt64.ofNat_toNat]

/-- No amount up to `MAX_MONEY` wraps: its code is at most ten times it. -/
theorem compressAmountNat_lt_of_le_MAX_MONEY {n : ℕ} (hn : (n : ℤ) ≤ MAX_MONEY) :
    compressAmountNat n < 2 ^ 64 := by
  have hMAX : MAX_MONEY = 40000000000000000 := rfl
  have := compressAmountNat_le n
  omega

/-- `DecompressAmount` inverts `CompressAmount` wherever the compression does not wrap, which
covers every amount up to `MAX_MONEY`, and `CompressAmount` inverts `DecompressAmount` wherever
the decompression does not wrap. -/
theorem CompressAmount_bijective :
    (∀ n : UInt64, compressAmountNat n.toNat < 2 ^ 64 → DecompressAmount (CompressAmount n) = n) ∧
      (∀ n : UInt64, (n.toNat : ℤ) ≤ MAX_MONEY → compressAmountNat n.toNat < 2 ^ 64) ∧
      ∀ x : UInt64, decompressAmountNat x.toNat < 2 ^ 64 → CompressAmount (DecompressAmount x) = x :=
  ⟨fun _ hn ↦ DecompressAmount_CompressAmount hn, fun _ hn ↦ compressAmountNat_lt_of_le_MAX_MONEY hn,
    fun _ hx ↦ CompressAmount_DecompressAmount hx⟩

theorem CompressAmount_bijective_at_coin :
    DecompressAmount (CompressAmount 100000000) = 100000000 :=
  CompressAmount_bijective.1 100000000 (CompressAmount_bijective.2.1 100000000 (by decide))

/-! ## Scripts -/

/-- The `secp256k1` operations `CScriptCompressor` calls on serialized public keys. -/
structure PubKeyPrimitives where
  IsFullyValid : List UInt8 → Bool
  /-- `CPubKey::Decompress` of a compressed key: the uncompressed serialization, or failure. -/
  Decompress : List UInt8 → Option (List UInt8)

/-- `nSpecialScripts`. -/
def nSpecialScripts : ℕ := 6

/-- `CPubKey::Decompress` inverts the compression of every fully valid uncompressed key: a
prefix of `0x02` or `0x03` by the parity of the key's last byte, then its first coordinate. -/
def DecompressInverts (prims : PubKeyPrimitives) : Prop :=
  ∀ pubkey : List UInt8, pubkey.length = 65 → pubkey.getD 0 0 = 0x04 →
    prims.IsFullyValid pubkey = true →
      prims.Decompress ((2 + (pubkey.getD 64 0).toNat % 2).toUInt8 :: (pubkey.drop 1).take 32) =
        some pubkey

namespace CScriptCompressor

def IsToKeyID (script : CScript) : Option (List UInt8) :=
  if script.length = 25 ∧ script.getD 0 0 = OP_DUP ∧ script.getD 1 0 = OP_HASH160 ∧
      script.getD 2 0 = 20 ∧ script.getD 23 0 = OP_EQUALVERIFY ∧ script.getD 24 0 = OP_CHECKSIG then
    some ((script.drop 3).take 20)
  else none

def IsToScriptID (script : CScript) : Option (List UInt8) :=
  if script.length = 23 ∧ script.getD 0 0 = OP_HASH160 ∧ script.getD 1 0 = 20 ∧
      script.getD 22 0 = OP_EQUAL then
    some ((script.drop 2).take 20)
  else none

/-- The key of a pay-to-key script; an uncompressed key only when it is fully valid. -/
def IsToPubKey (prims : PubKeyPrimitives) (script : CScript) : Option (List UInt8) :=
  if script.length = 35 ∧ script.getD 0 0 = 33 ∧ script.getD 34 0 = OP_CHECKSIG ∧
      (script.getD 1 0 = 0x02 ∨ script.getD 1 0 = 0x03) then
    some ((script.drop 1).take 33)
  else if script.length = 67 ∧ script.getD 0 0 = 65 ∧ script.getD 66 0 = OP_CHECKSIG ∧
      script.getD 1 0 = 0x04 then
    let pubkey := (script.drop 1).take 65
    if prims.IsFullyValid pubkey then some pubkey else none
  else none

def Compress (prims : PubKeyPrimitives) (script : CScript) : Option (List UInt8) :=
  match IsToKeyID script with
  | some keyID => some (0x00 :: keyID)
  | none =>
    match IsToScriptID script with
    | some scriptID => some (0x01 :: scriptID)
    | none =>
      match IsToPubKey prims script with
      | some pubkey =>
        if pubkey.getD 0 0 = 0x02 ∨ pubkey.getD 0 0 = 0x03 then
          some (pubkey.getD 0 0 :: (pubkey.drop 1).take 32)
        else if pubkey.getD 0 0 = 0x04 then
          some ((0x04 ||| (pubkey.getD 64 0 &&& 0x01)) :: (pubkey.drop 1).take 32)
        else none
      | none => none

def GetSpecialSize (nSize : ℕ) : ℕ :=
  if nSize = 0 ∨ nSize = 1 then 20
  else if nSize = 2 ∨ nSize = 3 ∨ nSize = 4 ∨ nSize = 5 then 32
  else 0

theorem GetSpecialSize_of_key {nSize : ℕ} (h2 : 2 ≤ nSize) (h5 : nSize ≤ 5) :
    GetSpecialSize nSize = 32 := by
  unfold GetSpecialSize
  split_ifs <;> omega

/-- The script of a special tag, `none` where the source returns `false` and leaves the script
as it was. -/
def Decompress (prims : PubKeyPrimitives) (nSize : ℕ) (input : List UInt8) :
    Except String (Option CScript) :=
  if nSize = 0x00 then
    .ok (some ([OP_DUP, OP_HASH160, 20] ++ input.take 20 ++ [OP_EQUALVERIFY, OP_CHECKSIG]))
  else if nSize = 0x01 then .ok (some ([OP_HASH160, 20] ++ input.take 20 ++ [OP_EQUAL]))
  else if nSize = 0x02 ∨ nSize = 0x03 then
    .ok (some ([33, nSize.toUInt8] ++ input.take 32 ++ [OP_CHECKSIG]))
  else if nSize = 0x04 ∨ nSize = 0x05 then
    match prims.Decompress ((nSize - 2).toUInt8 :: input.take 32) with
    | none => .ok none
    | some pubkey =>
      if pubkey.length ≠ 65 then .error "assertion failed: pubkey.size() == 65"
      else .ok (some ([65] ++ pubkey ++ [OP_CHECKSIG]))
  else .ok none

def Serialize (prims : PubKeyPrimitives) (script : CScript) : List UInt8 :=
  match Compress prims script with
  | some compr => compr
  | none => WriteVarInt ((script.length + nSpecialScripts) % 2 ^ 32) ++ script

/-- `Unserialize` into a script that held `script`. -/
def Unserialize (prims : PubKeyPrimitives) (script : CScript) : Reader CScript := do
  let nSize ← ReadVarInt 32
  if nSize < nSpecialScripts then
    let vch ← readBytes (GetSpecialSize nSize)
    match ← (Decompress prims nSize vch : Except String (Option CScript)) with
    | some decompressed => pure decompressed
    | none => pure script
  else
    let nSize := nSize - nSpecialScripts
    if nSize > MAX_SCRIPT_SIZE then do
      -- `ignore` takes an `int`
      ignore (if nSize < 2 ^ 31 then (nSize : ℤ) else nSize - 2 ^ 32)
      pure (script ++ [OP_RETURN])
    else readBytes nSize

/-! ### The templates -/

theorem IsToKeyID_eq_some {script keyID : List UInt8} (h : IsToKeyID script = some keyID) :
    keyID.length = 20 ∧ script = [OP_DUP, OP_HASH160, 20] ++ keyID ++ [OP_EQUALVERIFY, OP_CHECKSIG] := by
  unfold IsToKeyID at h
  split_ifs at h with hc
  obtain ⟨hlen, h0, h1, h2, h23, h24⟩ := hc
  obtain rfl := Option.some.inj h.symm
  refine ⟨by simp [hlen], Codec.eq_append_of_getD 0 (by simp [hlen]) (fun i hi ↦ ?_) fun j hj ↦ ?_⟩
  · simp only [List.length_cons, List.length_nil] at hi
    interval_cases i
    exacts [h0, h1, h2]
  · simp only [List.length_cons, List.length_nil] at hj
    interval_cases j
    exacts [h23, h24]

theorem IsToScriptID_eq_some {script scriptID : List UInt8} (h : IsToScriptID script = some scriptID) :
    scriptID.length = 20 ∧ script = [OP_HASH160, 20] ++ scriptID ++ [OP_EQUAL] := by
  unfold IsToScriptID at h
  split_ifs at h with hc
  obtain ⟨hlen, h0, h1, h22⟩ := hc
  obtain rfl := Option.some.inj h.symm
  refine ⟨by simp [hlen], Codec.eq_append_of_getD 0 (by simp [hlen]) (fun i hi ↦ ?_) fun j hj ↦ ?_⟩
  · simp only [List.length_cons, List.length_nil] at hi
    interval_cases i
    exacts [h0, h1]
  · simp only [List.length_cons, List.length_nil] at hj
    interval_cases j
    exact h22

/-- A pay-to-key script: a compressed key, or a fully valid uncompressed one, between its length
and `OP_CHECKSIG`. -/
theorem IsToPubKey_eq_some {prims : PubKeyPrimitives} {script pubkey : List UInt8}
    (h : IsToPubKey prims script = some pubkey) :
    (pubkey.length = 33 ∧ (pubkey.getD 0 0 = 0x02 ∨ pubkey.getD 0 0 = 0x03) ∧
        script = [33] ++ pubkey ++ [OP_CHECKSIG]) ∨
      (pubkey.length = 65 ∧ pubkey.getD 0 0 = 0x04 ∧ prims.IsFullyValid pubkey = true ∧
        script = [65] ++ pubkey ++ [OP_CHECKSIG]) := by
  unfold IsToPubKey at h
  split_ifs at h with hc hu
  · obtain ⟨hlen, h0, h34, h1⟩ := hc
    obtain rfl := Option.some.inj h.symm
    refine .inl ⟨by simp [hlen], by simpa [List.getD_eq_getElem?_getD] using h1,
      Codec.eq_append_of_getD 0 (by simp [hlen]) (fun i hi ↦ ?_) fun j hj ↦ ?_⟩
    · simp only [List.length_cons, List.length_nil] at hi
      interval_cases i
      exact h0
    · simp only [List.length_cons, List.length_nil] at hj
      interval_cases j
      exact h34
  · obtain ⟨hlen, h0, h66, h1⟩ := hu
    dsimp only at h
    split_ifs at h with hvalid
    obtain rfl := Option.some.inj h.symm
    refine .inr ⟨by simp [hlen], by simpa [List.getD_eq_getElem?_getD] using h1, hvalid,
      Codec.eq_append_of_getD 0 (by simp [hlen]) (fun i hi ↦ ?_) fun j hj ↦ ?_⟩
    · simp only [List.length_cons, List.length_nil] at hi
      interval_cases i
      exact h0
    · simp only [List.length_cons, List.length_nil] at hj
      interval_cases j
      exact h66

/-- The tag of an uncompressed key is four plus the parity of its last byte. -/
theorem toNat_uncompressedTag (b : UInt8) : (0x04 ||| (b &&& 0x01)).toNat = 4 + b.toNat % 2 := by
  have hbit : b.toNat &&& 1 = b.toNat % 2 := Nat.and_two_pow_sub_one_eq_mod b.toNat 1
  have hor : 4 ||| b.toNat % 2 = 4 + b.toNat % 2 :=
    (Nat.two_pow_add_eq_or_of_lt (i := 2) (by omega) 1).symm
  simp only [UInt8.toNat_or, UInt8.toNat_and]
  exact (congrArg (4 ||| ·) hbit).trans hor

/-- What `Compress` writes: a tag below `nSpecialScripts`, and the bytes from which `Decompress`
rebuilds the script for that tag. -/
theorem Compress_eq_some {prims : PubKeyPrimitives} (hprims : DecompressInverts prims)
    {script compr : List UInt8} (h : Compress prims script = some compr) :
    ∃ nSize body, compr = nSize.toUInt8 :: body ∧ nSize < nSpecialScripts ∧
      body.length = GetSpecialSize nSize ∧ Decompress prims nSize body = .ok (some script) := by
  unfold Compress at h
  rcases hkey : IsToKeyID script with _ | keyID
  · rcases hsh : IsToScriptID script with _ | scriptID
    · rcases hpk : IsToPubKey prims script with _ | pubkey
      · simp [hkey, hsh, hpk] at h
      simp only [hkey, hsh, hpk] at h
      rcases IsToPubKey_eq_some hpk with ⟨hlen, hp0, rfl⟩ | ⟨hlen, hp0, hvalid, rfl⟩
      · -- a compressed key: its own first byte is the tag
        rw [if_pos hp0, Option.some.injEq] at h
        obtain ⟨p0, t, rfl⟩ := List.exists_cons_of_length_pos (show 0 < pubkey.length by omega)
        simp only [List.getD_cons_zero, List.length_cons, List.drop_succ_cons, List.drop_zero] at h hp0 hlen
        have hp0' : p0.toNat = 2 ∨ p0.toNat = 3 := by
          rcases hp0 with rfl | rfl <;> decide
        refine ⟨p0.toNat, t.take 32, by rw [← h, Nat.toUInt8_eq, UInt8.ofNat_toNat], by
          unfold nSpecialScripts; omega, by rw [GetSpecialSize_of_key (by omega) (by omega)]; simp; omega, ?_⟩
        rw [Decompress, if_neg (by omega), if_neg (by omega), if_pos hp0', List.take_take, min_self,
          List.take_of_length_le (by omega), Nat.toUInt8_eq, UInt8.ofNat_toNat]
        rfl
      · -- an uncompressed key: the tag carries the parity of its last byte
        rw [if_neg (by rw [hp0]; decide), if_pos hp0, Option.some.injEq] at h
        have htag := toNat_uncompressedTag (pubkey.getD 64 0)
        refine ⟨4 + (pubkey.getD 64 0).toNat % 2, (pubkey.drop 1).take 32,
          by rw [← h, ← htag, Nat.toUInt8_eq, UInt8.ofNat_toNat], by unfold nSpecialScripts; omega,
          by rw [GetSpecialSize_of_key (by omega) (by omega)]; simp; omega, ?_⟩
        have hdec := hprims pubkey hlen hp0 hvalid
        rw [Decompress, if_neg (by omega), if_neg (by omega), if_neg (by omega), if_pos (by omega),
          List.take_take, min_self, show 4 + (pubkey.getD 64 0).toNat % 2 - 2 =
            2 + (pubkey.getD 64 0).toNat % 2 by omega, hdec]
        simp only [hlen, ne_eq, not_true_eq_false, if_false]
    · -- pay to script hash: tag 1
      simp only [hkey, hsh, Option.some.injEq] at h
      obtain ⟨hlen, rfl⟩ := IsToScriptID_eq_some hsh
      refine ⟨1, scriptID, h.symm, by decide, hlen, ?_⟩
      rw [Decompress, if_neg (by decide), if_pos rfl, List.take_of_length_le (by omega)]
  · -- pay to key hash: tag 0
    simp only [hkey, Option.some.injEq] at h
    obtain ⟨hlen, rfl⟩ := IsToKeyID_eq_some hkey
    refine ⟨0, keyID, h.symm, by decide, hlen, ?_⟩
    rw [Decompress, if_pos rfl, List.take_of_length_le (by omega)]

/-! ### Reading back -/

theorem Unserialize_special {prims : PubKeyPrimitives} (script₀ : CScript) {nSize : ℕ}
    {body : List UInt8} {script : CScript} (hn : nSize < nSpecialScripts)
    (hlen : body.length = GetSpecialSize nSize) (hdec : Decompress prims nSize body = .ok (some script))
    (rest : List UInt8) :
    (Unserialize prims script₀).run (nSize.toUInt8 :: body ++ rest) = .ok (script, rest) := by
  have hn' : nSize < 6 := hn
  -- a tag is a one-byte `VarInt`
  have hbytes : nSize.toUInt8 :: body ++ rest = WriteVarInt nSize ++ (body ++ rest) := by
    rw [WriteVarInt_of_le (by omega)]
    rfl
  have hread := readBytes_append body rest
  rw [hlen] at hread
  rw [hbytes, Unserialize, Codec.run_bind_of_ok (ReadVarInt_WriteVarInt (by omega) _), if_pos hn,
    Codec.run_bind_of_ok hread]
  simp [hdec]

theorem Unserialize_raw {prims : PubKeyPrimitives} (script₀ : CScript) {script : CScript}
    (hlen : script.length ≤ MAX_SCRIPT_SIZE) (rest : List UInt8) :
    (Unserialize prims script₀).run
      (WriteVarInt ((script.length + nSpecialScripts) % 2 ^ 32) ++ script ++ rest) =
        .ok (script, rest) := by
  have hMAX : MAX_SCRIPT_SIZE = 10000 := rfl
  have hsize : (script.length + nSpecialScripts) % 2 ^ 32 = script.length + nSpecialScripts :=
    Nat.mod_eq_of_lt (by unfold nSpecialScripts; omega)
  rw [hsize, List.append_assoc, Unserialize,
    Codec.run_bind_of_ok (ReadVarInt_WriteVarInt (by unfold nSpecialScripts; omega) _),
    if_neg (by omega)]
  dsimp only
  rw [Nat.add_sub_cancel, if_neg (by omega)]
  exact readBytes_append script rest

/-- Every script up to `MAX_SCRIPT_SIZE` reads back from what `Serialize` writes, whatever the
script read into held, provided `CPubKey::Decompress` inverts the key compression. -/
theorem Unserialize_Serialize {prims : PubKeyPrimitives} (hprims : DecompressInverts prims)
    {script : CScript} (hlen : script.length ≤ MAX_SCRIPT_SIZE) (script₀ : CScript)
    (rest : List UInt8) :
    (Unserialize prims script₀).run (Serialize prims script ++ rest) = .ok (script, rest) := by
  unfold Serialize
  rcases hc : Compress prims script with _ | compr
  · exact Unserialize_raw script₀ hlen rest
  · obtain ⟨nSize, body, rfl, hn, hbody, hdec⟩ := Compress_eq_some hprims hc
    exact Unserialize_special script₀ hn hbody hdec rest

end CScriptCompressor

/-! ## Outputs -/

/-- A nonnegative `CAmount` converted to `uint64_t` keeps its value. -/
theorem toNat_ofInt_of_nonneg {a : ℤ} (h0 : 0 ≤ a) (h : a < 2 ^ 64) :
    (UInt64.ofInt a).toNat = a.toNat := by
  rw [UInt64.ofInt, UInt64.toNat_ofNat', Int.emod_eq_of_lt h0 h, Nat.mod_eq_of_lt (by omega)]

/-- A `uint64_t` below `2 ^ 63` converted to `CAmount` keeps its value. -/
theorem toInt_toInt64_of_lt {v : UInt64} (h : v.toNat < 2 ^ 63) : v.toInt64.toInt = v.toNat :=
  BitVec.toInt_eq_toNat_of_lt (by change 2 * v.toNat < 2 ^ 64; omega)

namespace CTxOutCompressor

/-- `SerializationOp` writing: the amount, as a `uint64_t`, compressed into a `VarInt`, then the
script. -/
def Serialize (prims : PubKeyPrimitives) (txout : CTxOut) : List UInt8 :=
  WriteVarInt (CompressAmount (UInt64.ofInt txout.nValue)).toNat ++
    CScriptCompressor.Serialize prims txout.scriptPubKey

/-- `SerializationOp` reading into `txout`: the decompressed amount back as a `CAmount`. -/
def Unserialize (prims : PubKeyPrimitives) (txout : CTxOut) : Reader CTxOut := do
  let nVal ← ReadVarInt 64
  let nValue := (DecompressAmount nVal.toUInt64).toInt64.toInt
  let scriptPubKey ← CScriptCompressor.Unserialize prims txout.scriptPubKey
  pure { nValue, scriptPubKey }

theorem Unserialize_Serialize {prims : PubKeyPrimitives}
    (hprims : DecompressInverts prims) {txout : CTxOut} (hv0 : 0 ≤ txout.nValue)
    (hv : txout.nValue ≤ MAX_MONEY) (hlen : txout.scriptPubKey.length ≤ MAX_SCRIPT_SIZE)
    (txout₀ : CTxOut) (rest : List UInt8) :
    (Unserialize prims txout₀).run (Serialize prims txout ++ rest) = .ok (txout, rest) := by
  obtain ⟨nValue, scriptPubKey⟩ := txout
  dsimp only at hv0 hv hlen
  have hMAX : MAX_MONEY = 40000000000000000 := rfl
  have hn : (UInt64.ofInt nValue).toNat = nValue.toNat := toNat_ofInt_of_nonneg hv0 (by omega)
  -- the amount survives compression, and its value the trip through `uint64_t`
  have hamount := DecompressAmount_CompressAmount
    (compressAmountNat_lt_of_le_MAX_MONEY (n := (UInt64.ofInt nValue).toNat) (by rw [hn]; omega))
  have hvalue : (UInt64.ofInt nValue).toInt64.toInt = nValue := by
    rw [toInt_toInt64_of_lt (by omega), hn, Int.toNat_of_nonneg hv0]
  rw [Serialize, List.append_assoc, Unserialize,
    Codec.run_bind_of_ok (ReadVarInt_WriteVarInt (UInt64.toNat_lt _) _),
    Codec.run_bind_of_ok (CScriptCompressor.Unserialize_Serialize hprims hlen _ rest)]
  simp only [Nat.toUInt64_eq, UInt64.ofNat_toNat, hamount, hvalue]
  rfl

end CTxOutCompressor

end LightningCash
