import LightningCash.Lib.Codec
import LightningCash.Lib.Digits

/-!
# Stream serialization: fixed-width integers, CompactSize and VarInt

The byte codecs of `serialize.h`. A writer is a function to the bytes it appends to a
`CDataStream`; a reader takes bytes off the front of one and fails with the text of the
`std::ios_base::failure` it throws. Fixed-width integers are little-endian (`htole16` and so on);
`CompactSize` prefixes lengths with a marker byte for the three wide classes; `VarInt` is
bijective base 128, most significant group first, with one subtracted at each continuation.

The main results are the codec laws of `Lib/Codec` for both formats: every value in range reads
back from its encoding, and every accepted input starts with the encoding of what was read, so
each format has exactly one encoding per value. Beside them, the byte counts that the
`CSizeComputer` overloads use agree with the writers.

Integers of a C++ type of `w` bits are natural numbers below `2 ^ w`; the reader's shifts are
reduced modulo `2 ^ w` as the type does.
-/

namespace LightningCash

open Codec

/-- A reader of a `CDataStream`. -/
abbrev Reader (α : Type) := Codec.Reader UInt8 String α

/-- `CDataStream::read`: the next `n` bytes. -/
def readBytes (n : ℕ) : Reader (List UInt8) := fun s ↦
  if n ≤ s.length then .ok (s.take n, s.drop n) else .error "CDataStream::read(): end of data"

theorem readBytes_append (bs rest : List UInt8) :
    (readBytes bs.length).run (bs ++ rest) = .ok (bs, rest) := by
  simp [readBytes, StateT.run]

theorem readBytes_eq_ok {n : ℕ} {s bs rest : List UInt8}
    (h : (readBytes n).run s = .ok (bs, rest)) : bs.length = n ∧ s = bs ++ rest := by
  simp only [readBytes, StateT.run] at h
  split_ifs at h with hn
  obtain ⟨rfl, rfl⟩ := Prod.mk.inj (Except.ok.inj h)
  exact ⟨by simp [hn], (List.take_append_drop n s).symm⟩

/-- `CDataStream::ignore(int)`: skip `nSize` bytes. -/
def ignore (nSize : ℤ) : Reader Unit := fun s ↦
  if nSize < 0 then .error "CDataStream::ignore(): nSize negative"
  else if nSize.toNat > s.length then .error "CDataStream::ignore(): end of data"
  else .ok ((), s.drop nSize.toNat)

/-! ## Little-endian integers of a fixed width -/

/-- The `ser_writedata` family: the low `k` bytes of the value, least significant first. -/
def ser_writedata (k n : ℕ) : List UInt8 := (Digits.lowDigits 256 k n).map Nat.toUInt8

/-- The `ser_readdata` family: `k` bytes, least significant first. -/
def ser_readdata (k : ℕ) : Reader ℕ := do
  let bs ← readBytes k
  pure (Nat.ofDigits 256 (bs.map UInt8.toNat))

def ser_writedata8 (obj : ℕ) : List UInt8 := ser_writedata 1 obj

def ser_writedata16 (obj : ℕ) : List UInt8 := ser_writedata 2 obj

def ser_writedata32 (obj : ℕ) : List UInt8 := ser_writedata 4 obj

def ser_writedata64 (obj : ℕ) : List UInt8 := ser_writedata 8 obj

def ser_readdata8 : Reader ℕ := ser_readdata 1

def ser_readdata16 : Reader ℕ := ser_readdata 2

def ser_readdata32 : Reader ℕ := ser_readdata 4

def ser_readdata64 : Reader ℕ := ser_readdata 8

@[simp] theorem length_ser_writedata (k n : ℕ) : (ser_writedata k n).length = k := by
  simp [ser_writedata]

theorem map_toNat_ser_writedata (k n : ℕ) :
    (ser_writedata k n).map UInt8.toNat = Digits.lowDigits 256 k n := by
  rw [ser_writedata, List.map_map]
  refine (List.map_congr_left fun d hd ↦ ?_).trans (List.map_id _)
  have hd : d < 256 := Digits.lowDigits_lt (by norm_num) k n d hd
  simp [Nat.mod_eq_of_lt hd]

/-- Every byte string is the little-endian encoding of the number it denotes. -/
theorem ser_writedata_ofDigits (bs : List UInt8) :
    ser_writedata bs.length (Nat.ofDigits 256 (bs.map UInt8.toNat)) = bs := by
  have hlt : ∀ d ∈ bs.map UInt8.toNat, d < 256 := by
    intro d hd
    obtain ⟨b, -, rfl⟩ := List.mem_map.mp hd
    exact b.toNat_lt
  rw [ser_writedata, ← List.length_map UInt8.toNat, Digits.lowDigits_ofDigits hlt, List.map_map]
  exact List.map_id'' (fun b ↦ by simp) bs

theorem ser_readdata_ser_writedata (k n : ℕ) (rest : List UInt8) :
    (ser_readdata k).run (ser_writedata k n ++ rest) = .ok (n % 256 ^ k, rest) := by
  have hread := readBytes_append (ser_writedata k n) rest
  rw [length_ser_writedata] at hread
  rw [ser_readdata, run_bind_of_ok hread, map_toNat_ser_writedata, Digits.ofDigits_lowDigits]
  rfl

theorem ser_readdata_eq_ok {k : ℕ} {s rest : List UInt8} {v : ℕ}
    (h : (ser_readdata k).run s = .ok (v, rest)) : v < 256 ^ k ∧ s = ser_writedata k v ++ rest := by
  obtain ⟨bs, s', hbs, h⟩ := run_bind_eq_ok.mp h
  obtain ⟨rfl, rfl⟩ := Prod.mk.inj (Except.ok.inj h)
  obtain ⟨rfl, rfl⟩ := readBytes_eq_ok hbs
  refine ⟨?_, by rw [ser_writedata_ofDigits]⟩
  have hlt := Nat.ofDigits_lt_base_pow_length (b := 256) (l := bs.map UInt8.toNat) (by norm_num)
    fun d hd ↦ by
      obtain ⟨b, -, rfl⟩ := List.mem_map.mp hd
      exact b.toNat_lt
  rwa [List.length_map] at hlt

/-! ## CompactSize -/

/-- The largest length a `ReadCompactSize` accepts. -/
def MAX_SIZE : ℕ := 0x02000000

def GetSizeOfCompactSize (nSize : UInt64) : ℕ :=
  if nSize < 253 then 1
  else if nSize ≤ 0xffff then 1 + 2
  else if nSize ≤ 0xffffffff then 1 + 4
  else 1 + 8

def WriteCompactSize (nSize : UInt64) : List UInt8 :=
  if nSize < 253 then ser_writedata8 nSize.toNat
  else if nSize ≤ 0xffff then ser_writedata8 253 ++ ser_writedata16 nSize.toNat
  else if nSize ≤ 0xffffffff then ser_writedata8 254 ++ ser_writedata32 nSize.toNat
  else ser_writedata8 255 ++ ser_writedata64 nSize.toNat


/-- A wide branch of `ReadCompactSize`: a value of `k` bytes, which must need them. -/
def readCanonical (k least : ℕ) : Reader ℕ := do
  let nSizeRet ← ser_readdata k
  if nSizeRet < least then throw "non-canonical ReadCompactSize()" else pure nSizeRet

def ReadCompactSize : Reader UInt64 := do
  let chSize ← ser_readdata8
  let nSizeRet ←
    (if chSize < 253 then pure chSize
    else if chSize = 253 then readCanonical 2 253
    else if chSize = 254 then readCanonical 4 0x10000
    else readCanonical 8 0x100000000)
  if nSizeRet > MAX_SIZE then throw "ReadCompactSize(): size too large"
  else pure nSizeRet.toUInt64

/-- The width classes of `WriteCompactSize`, on the value as a number. -/
theorem WriteCompactSize_eq (nSize : UInt64) :
    WriteCompactSize nSize =
      if nSize.toNat < 253 then ser_writedata8 nSize.toNat
      else if nSize.toNat ≤ 0xffff then ser_writedata8 253 ++ ser_writedata16 nSize.toNat
      else if nSize.toNat ≤ 0xffffffff then ser_writedata8 254 ++ ser_writedata32 nSize.toNat
      else ser_writedata8 255 ++ ser_writedata64 nSize.toNat := by
  simp only [WriteCompactSize, UInt64.lt_iff_toNat_lt, UInt64.le_iff_toNat_le]
  rfl

theorem length_WriteCompactSize (nSize : UInt64) :
    (WriteCompactSize nSize).length = GetSizeOfCompactSize nSize := by
  unfold WriteCompactSize GetSizeOfCompactSize
  split_ifs <;> simp [ser_writedata8, ser_writedata16, ser_writedata32, ser_writedata64]

theorem readCanonical_ser_writedata {k least n : ℕ} (hle : least ≤ n) (hlt : n < 256 ^ k)
    (rest : List UInt8) : (readCanonical k least).run (ser_writedata k n ++ rest) = .ok (n, rest) := by
  rw [readCanonical, run_bind_of_ok (ser_readdata_ser_writedata k n rest), Nat.mod_eq_of_lt hlt,
    if_neg (by omega)]
  rfl

theorem readCanonical_eq_ok {k least : ℕ} {s rest : List UInt8} {v : ℕ}
    (h : (readCanonical k least).run s = .ok (v, rest)) :
    least ≤ v ∧ v < 256 ^ k ∧ s = ser_writedata k v ++ rest := by
  obtain ⟨n, s', hn, h⟩ := run_bind_eq_ok.mp h
  by_cases hleast : n < least
  · rw [if_pos hleast] at h
    exact nomatch h
  · rw [if_neg hleast] at h
    obtain ⟨rfl, rfl⟩ := Prod.mk.inj (Except.ok.inj h)
    exact ⟨by omega, ser_readdata_eq_ok hn⟩

/-- `ReadCompactSize` on a marker byte: whatever the branch it selects reads goes through the
size check. -/
theorem ReadCompactSize_of_branch {m : ℕ} (hm : m < 256) {s s' : List UInt8} {v : ℕ}
    (hbranch : (if m < 253 then pure m else if m = 253 then readCanonical 2 253
      else if m = 254 then readCanonical 4 0x10000
      else (readCanonical 8 0x100000000 : Reader ℕ)).run s = .ok (v, s'))
    (hv : v ≤ MAX_SIZE) : ReadCompactSize.run (ser_writedata8 m ++ s) = .ok (v.toUInt64, s') := by
  have hmarker := ser_readdata_ser_writedata 1 m s
  rw [pow_one, Nat.mod_eq_of_lt hm] at hmarker
  rw [ReadCompactSize, ser_writedata8, ser_readdata8, run_bind_of_ok hmarker,
    run_bind_of_ok hbranch, if_neg (by omega)]
  rfl

theorem ReadCompactSize_WriteCompactSize {nSize : UInt64} (hn : nSize.toNat ≤ MAX_SIZE)
    (rest : List UInt8) : ReadCompactSize.run (WriteCompactSize nSize ++ rest) = .ok (nSize, rest) := by
  have hMAX : MAX_SIZE = 0x02000000 := rfl
  suffices h : ReadCompactSize.run (WriteCompactSize nSize ++ rest) = .ok (nSize.toNat.toUInt64, rest) by
    rwa [Nat.toUInt64_eq, UInt64.ofNat_toNat] at h
  rw [WriteCompactSize_eq]
  by_cases h1 : nSize.toNat < 253
  · rw [if_pos h1]
    refine ReadCompactSize_of_branch (by omega) ?_ hn
    rw [if_pos h1]
    rfl
  · by_cases h2 : nSize.toNat ≤ 0xffff
    · rw [if_neg h1, if_pos h2, List.append_assoc]
      refine ReadCompactSize_of_branch (by norm_num) ?_ hn
      rw [if_neg (by norm_num), if_pos rfl]
      exact readCanonical_ser_writedata (by omega) (by omega) rest
    · -- `MAX_SIZE` is below `2 ^ 32`: the four-byte class
      rw [if_neg h1, if_neg h2, if_pos (by omega), List.append_assoc]
      refine ReadCompactSize_of_branch (by norm_num) ?_ hn
      rw [if_neg (by norm_num), if_neg (by norm_num), if_pos rfl]
      exact readCanonical_ser_writedata (by omega) (by omega) rest

theorem ReadCompactSize_onlyEncodings : OnlyEncodings WriteCompactSize ReadCompactSize := by
  intro s a rest h
  have hMAX : MAX_SIZE = 0x02000000 := rfl
  obtain ⟨chSize, s₁, hch, h⟩ := run_bind_eq_ok.mp h
  obtain ⟨v, s₂, hv, h⟩ := run_bind_eq_ok.mp h
  have hvmax : v ≤ MAX_SIZE := by
    by_contra hgt
    rw [if_pos (by omega)] at h
    exact nomatch h
  rw [if_neg (by omega)] at h
  obtain ⟨rfl, rfl⟩ := Prod.mk.inj (Except.ok.inj h)
  obtain ⟨-, rfl⟩ := ser_readdata_eq_ok hch
  have hv64 : v.toUInt64.toNat = v := by
    rw [Nat.toUInt64_eq, UInt64.toNat_ofNat', Nat.mod_eq_of_lt (by omega)]
  rw [WriteCompactSize_eq, hv64]
  -- the marker byte decides the width class, and the branch's minimum puts the value in it
  by_cases c1 : chSize < 253
  · rw [if_pos c1] at hv
    simp only [StateT.run_pure] at hv
    obtain ⟨rfl, rfl⟩ := Prod.mk.inj (Except.ok.inj hv)
    rw [if_pos c1]
    rfl
  · by_cases c2 : chSize = 253
    · rw [if_neg c1, if_pos c2] at hv
      obtain ⟨hle, hlt, rfl⟩ := readCanonical_eq_ok hv
      rw [if_neg (by omega), if_pos (by omega), c2, List.append_assoc]
      rfl
    · by_cases c3 : chSize = 254
      · rw [if_neg c1, if_neg c2, if_pos c3] at hv
        obtain ⟨hle, hlt, rfl⟩ := readCanonical_eq_ok hv
        rw [if_neg (by omega), if_neg (by omega), if_pos (by omega), c3, List.append_assoc]
        rfl
      · -- the eight-byte class starts above `MAX_SIZE`
        rw [if_neg c1, if_neg c2, if_neg c3] at hv
        obtain ⟨hle, -, -⟩ := readCanonical_eq_ok hv
        omega

/-! ## VarInt

`WriteVarInt` fills `tmp` from index 0 with the low seven bits of the value, shifting the value
down and subtracting one after each group, and sets the continuation bit on every byte but the
first it stored; it then writes `tmp` from the last index back. The reader undoes one group per
byte, adding the one back at each continuation, and refuses a value that would leave its type. -/

def GetSizeOfVarInt (n : ℕ) : ℕ :=
  if h : n ≤ 0x7F then 1 else GetSizeOfVarInt ((n >>> 7) - 1) + 1
termination_by n
decreasing_by rw [Nat.shiftRight_eq_div_pow]; omega

/-- The bytes `WriteVarInt` stores in `tmp` from index `len` on. -/
def varIntTmp (n len : ℕ) : List UInt8 :=
  (n &&& 0x7F ||| (if len ≠ 0 then 0x80 else 0x00)).toUInt8 ::
    if h : n ≤ 0x7F then [] else varIntTmp ((n >>> 7) - 1) (len + 1)
termination_by n
decreasing_by rw [Nat.shiftRight_eq_div_pow]; omega

/-- `tmp` written from the last index filled down to index 0. -/
def WriteVarInt (n : ℕ) : List UInt8 := (varIntTmp n 0).reverse

/-- The loop of `ReadVarInt` for an integer type of `w` bits, from the value `n` read so far. -/
def readVarIntLoop (w n : ℕ) : List UInt8 → Except String (ℕ × List UInt8)
  | [] => .error "CDataStream::read(): end of data"
  | chData :: s =>
    if n > (2 ^ w - 1) >>> 7 then .error "ReadVarInt(): size too large"
    else
      let n := (n <<< 7 ||| chData.toNat &&& 0x7F) % 2 ^ w
      if chData.toNat &&& 0x80 ≠ 0 then
        if n = 2 ^ w - 1 then .error "ReadVarInt(): size too large"
        else readVarIntLoop w (n + 1) s
      else .ok (n, s)

/-- `ReadVarInt` at the integer type of `w` bits. -/
def ReadVarInt (w : ℕ) : Reader ℕ := fun s ↦ readVarIntLoop w 0 s

/-! ### Bits of a byte -/

theorem and_0x7F (n : ℕ) : n &&& 0x7F = n % 128 :=
  Nat.and_two_pow_sub_one_eq_mod n 7

theorem and_0x80_ne_zero {c : ℕ} (hc : c < 256) : c &&& 0x80 ≠ 0 ↔ 128 ≤ c := by
  have h : c &&& 0x80 = (c.testBit 7).toNat * 128 := Nat.and_two_pow c 7
  rw [Nat.testBit_eq_decide_div_mod_eq] at h
  rw [h]
  simp
  omega

theorem shiftLeft_or_lt {d : ℕ} (hd : d < 128) (n : ℕ) : n <<< 7 ||| d = n * 128 + d := by
  rw [← Nat.shiftLeft_add_eq_or_of_lt (i := 7) hd, Nat.shiftLeft_eq]

/-- A byte of `tmp`: its low seven bits, and the continuation bit off index 0. -/
theorem toNat_tmpByte (n len : ℕ) :
    (n &&& 0x7F ||| (if len ≠ 0 then 0x80 else 0x00)).toUInt8.toNat =
      n % 128 + if len ≠ 0 then 128 else 0 := by
  have hlow : n % 128 < 2 ^ 7 := Nat.mod_lt n (by norm_num)
  rw [and_0x7F]
  split_ifs
  · have hor : n % 128 ||| 0x80 = n % 128 + 128 := Nat.or_two_pow_eq_add_of_lt hlow
    simp only [hor, Nat.toUInt8_eq, UInt8.toNat_ofNat']
    omega
  · simp only [Nat.or_zero, Nat.toUInt8_eq, UInt8.toNat_ofNat']
    omega

theorem toNat_toUInt8_of_lt {x : ℕ} (h : x < 256) : x.toUInt8.toNat = x := by
  rw [Nat.toUInt8_eq, UInt8.toNat_ofNat', Nat.mod_eq_of_lt h]

theorem toUInt8_eq_of_toNat {b : UInt8} {x : ℕ} (h : b.toNat = x) : x.toUInt8 = b := by
  rw [← h, Nat.toUInt8_eq, UInt8.ofNat_toNat]

/-! ### The reader's overflow guard -/

theorem le_shiftRight_max_of_lt {w n : ℕ} (h : n * 128 < 2 ^ w) : n ≤ (2 ^ w - 1) >>> 7 := by
  rw [Nat.shiftRight_eq_div_pow, Nat.le_div_iff_mul_le (Nat.two_pow_pos 7)]
  change n * 128 ≤ 2 ^ w - 1
  omega

/-- A value that passes the guard has room for seven more bits: `2 ^ w` is a multiple of `128`. -/
theorem mul_add_lt_of_le_shiftRight {w n d : ℕ} (hw : 7 ≤ w) (h : n ≤ (2 ^ w - 1) >>> 7)
    (hd : d < 128) : n * 128 + d < 2 ^ w := by
  have hpow : 2 ^ w = 128 * 2 ^ (w - 7) := by
    rw [← pow_mul_pow_sub 2 hw]
    rfl
  rw [Nat.shiftRight_eq_div_pow, Nat.le_div_iff_mul_le (Nat.two_pow_pos 7)] at h
  change n * 128 ≤ 2 ^ w - 1 at h
  have hpos := Nat.two_pow_pos (w - 7)
  omega

/-! ### The writer, one group at a time -/

theorem varIntTmp_eq (n len : ℕ) :
    varIntTmp n len = (n % 128 + if len ≠ 0 then 128 else 0).toUInt8 ::
      if n ≤ 0x7F then [] else varIntTmp (n / 128 - 1) (len + 1) := by
  rw [varIntTmp, Nat.shiftRight_eq_div_pow, dite_eq_ite]
  congr 1
  exact (toUInt8_eq_of_toNat (toNat_tmpByte n len)).symm

theorem GetSizeOfVarInt_eq (n : ℕ) :
    GetSizeOfVarInt n = if n ≤ 0x7F then 1 else GetSizeOfVarInt (n / 128 - 1) + 1 := by
  rw [GetSizeOfVarInt, Nat.shiftRight_eq_div_pow, dite_eq_ite]

/-- Past index 0 the bytes of `tmp` do not depend on the index. -/
theorem varIntTmp_succ (m len : ℕ) : varIntTmp m (len + 1) = varIntTmp m 1 := by
  induction m using Nat.strong_induction_on generalizing len with
  | _ m ih =>
    rw [varIntTmp_eq, varIntTmp_eq m 1]
    by_cases h : m ≤ 0x7F
    · simp [h]
    · rw [if_neg h, if_neg h, ih _ (by omega) (len + 1), ih _ (by omega) 1]
      simp

/-- The continuation groups `WriteVarInt` writes ahead of its last byte. -/
def contBytes (m : ℕ) : List UInt8 := (varIntTmp m 1).reverse

theorem WriteVarInt_of_le {n : ℕ} (h : n ≤ 0x7F) : WriteVarInt n = [n.toUInt8] := by
  rw [WriteVarInt, varIntTmp_eq, if_pos h, Nat.mod_eq_of_lt (by omega)]
  rfl

theorem WriteVarInt_of_gt {n : ℕ} (h : 0x7F < n) :
    WriteVarInt n = contBytes (n / 128 - 1) ++ [(n % 128).toUInt8] := by
  rw [WriteVarInt, varIntTmp_eq, if_neg (show ¬n ≤ 0x7F by omega),
    if_neg (show ¬(0 : ℕ) ≠ 0 by decide), add_zero, List.reverse_cons, contBytes]

theorem contBytes_of_le {m : ℕ} (h : m ≤ 0x7F) : contBytes m = [(m + 128).toUInt8] := by
  rw [contBytes, varIntTmp_eq, if_pos h, Nat.mod_eq_of_lt (by omega)]
  rfl

theorem contBytes_of_gt {m : ℕ} (h : 0x7F < m) :
    contBytes m = contBytes (m / 128 - 1) ++ [(m % 128 + 128).toUInt8] := by
  rw [contBytes, varIntTmp_eq, if_neg (show ¬m ≤ 0x7F by omega),
    if_pos (show (1 : ℕ) ≠ 0 by decide), List.reverse_cons, varIntTmp_succ _ 1, contBytes]

theorem length_varIntTmp (n len : ℕ) : (varIntTmp n len).length = GetSizeOfVarInt n := by
  induction n using Nat.strong_induction_on generalizing len with
  | _ n ih =>
    rw [varIntTmp_eq, GetSizeOfVarInt_eq]
    by_cases h : n ≤ 0x7F
    · rw [if_pos h, if_pos h]
      rfl
    · rw [if_neg h, if_neg h, List.length_cons, ih _ (by omega)]

theorem length_WriteVarInt (n : ℕ) : (WriteVarInt n).length = GetSizeOfVarInt n := by
  rw [WriteVarInt, List.length_reverse, length_varIntTmp]

theorem GetSizeOfVarInt_le {k n : ℕ} (hk : 0 < k) (h : n < 128 ^ k) : GetSizeOfVarInt n ≤ k := by
  induction k generalizing n with
  | zero => omega
  | succ k ih =>
    rw [GetSizeOfVarInt_eq]
    split_ifs with hn
    · omega
    · -- a value past one group needs a second one, so `k` is positive
      have hk : 0 < k := by
        rcases Nat.eq_zero_or_pos k with rfl | hk
        · rw [zero_add, pow_one] at h
          omega
        · exact hk
      rw [pow_succ] at h
      have := ih hk (show n / 128 - 1 < 128 ^ k by omega)
      omega

/-- `tmp` has `(w + 6) / 7` bytes, enough for every value of the type. -/
theorem length_varIntTmp_le {w n : ℕ} (hw : 0 < w) (hn : n < 2 ^ w) :
    (varIntTmp n 0).length ≤ (w + 6) / 7 := by
  rw [length_varIntTmp]
  refine GetSizeOfVarInt_le (by omega) ?_
  calc n < 2 ^ w := hn
    _ ≤ 2 ^ (7 * ((w + 6) / 7)) := Nat.pow_le_pow_right (by norm_num) (by omega)
    _ = 128 ^ ((w + 6) / 7) := by rw [pow_mul]; rfl

/-! ### The reader, one byte at a time -/

section Reader

variable {w : ℕ}

/-- The value after a byte: seven more bits, below the type's bound when the guard passed. -/
theorem shifted_value {n : ℕ} (b : UInt8) (hn : n * 128 + b.toNat % 128 < 2 ^ w) :
    (n <<< 7 ||| b.toNat &&& 0x7F) % 2 ^ w = n * 128 + b.toNat % 128 := by
  rw [and_0x7F, shiftLeft_or_lt (Nat.mod_lt _ (by norm_num)), Nat.mod_eq_of_lt hn]

theorem readVarIntLoop_cons_cont {n : ℕ} {b : UInt8} (hb : 128 ≤ b.toNat)
    (hn : n * 128 + b.toNat % 128 + 1 < 2 ^ w) (s : List UInt8) :
    readVarIntLoop w n (b :: s) = readVarIntLoop w (n * 128 + b.toNat % 128 + 1) s := by
  have hguard : ¬n > (2 ^ w - 1) >>> 7 := not_lt.mpr (le_shiftRight_max_of_lt (by omega))
  rw [readVarIntLoop, if_neg hguard]
  dsimp only
  rw [shifted_value b (by omega), if_pos ((and_0x80_ne_zero b.toNat_lt).mpr hb), if_neg (by omega)]

theorem readVarIntLoop_cons_last {n : ℕ} {b : UInt8} (hb : b.toNat < 128)
    (hn : n * 128 + b.toNat < 2 ^ w) (s : List UInt8) :
    readVarIntLoop w n (b :: s) = .ok (n * 128 + b.toNat, s) := by
  have hguard : ¬n > (2 ^ w - 1) >>> 7 := not_lt.mpr (le_shiftRight_max_of_lt (by omega))
  have hstop : ¬b.toNat &&& 0x80 ≠ 0 := by rw [and_0x80_ne_zero b.toNat_lt]; omega
  rw [readVarIntLoop, if_neg hguard]
  dsimp only
  rw [shifted_value b (by rwa [Nat.mod_eq_of_lt hb]), if_neg hstop, Nat.mod_eq_of_lt hb]

/-- What one byte can do: continue with one more group, or end the value. -/
theorem readVarIntLoop_cons_eq_ok (hw : 7 ≤ w) {n : ℕ} {b : UInt8} {s rest : List UInt8} {v : ℕ}
    (h : readVarIntLoop w n (b :: s) = .ok (v, rest)) :
    (128 ≤ b.toNat ∧ n * 128 + b.toNat % 128 + 1 < 2 ^ w ∧
        readVarIntLoop w (n * 128 + b.toNat % 128 + 1) s = .ok (v, rest)) ∨
      (b.toNat < 128 ∧ v = n * 128 + b.toNat ∧ rest = s) := by
  rw [readVarIntLoop] at h
  by_cases hguard : n > (2 ^ w - 1) >>> 7
  · rw [if_pos hguard] at h
    exact nomatch h
  rw [if_neg hguard] at h
  dsimp only at h
  have hlt := mul_add_lt_of_le_shiftRight hw (not_lt.mp hguard) (Nat.mod_lt b.toNat (by norm_num))
  rw [shifted_value b hlt] at h
  by_cases hcont : b.toNat &&& 0x80 ≠ 0
  · rw [if_pos hcont] at h
    by_cases hmax : n * 128 + b.toNat % 128 = 2 ^ w - 1
    · rw [if_pos hmax] at h
      exact nomatch h
    · rw [if_neg hmax] at h
      exact .inl ⟨(and_0x80_ne_zero b.toNat_lt).mp hcont, by omega, h⟩
  · rw [if_neg hcont] at h
    have hb : b.toNat < 128 := by
      rw [and_0x80_ne_zero b.toNat_lt] at hcont
      omega
    obtain ⟨rfl, rfl⟩ := Prod.mk.inj (Except.ok.inj h)
    exact .inr ⟨hb, by rw [Nat.mod_eq_of_lt hb], rfl⟩

/-- Reading the continuation groups of `m` leaves the reader at `m + 1`. -/
theorem readVarIntLoop_contBytes (m : ℕ) (hm : m + 1 < 2 ^ w) (rest : List UInt8) :
    readVarIntLoop w 0 (contBytes m ++ rest) = readVarIntLoop w (m + 1) rest := by
  induction m using Nat.strong_induction_on generalizing rest with
  | _ m ih =>
    by_cases h : m ≤ 0x7F
    · have hb : (m + 128).toUInt8.toNat = m + 128 := toNat_toUInt8_of_lt (by omega)
      rw [contBytes_of_le h, List.singleton_append, readVarIntLoop_cons_cont (by omega) (by omega),
        hb]
      congr 1
      omega
    · have hb : (m % 128 + 128).toUInt8.toNat = m % 128 + 128 :=
        toNat_toUInt8_of_lt (by omega)
      -- the groups above the last one bring the reader to `m / 128`
      rw [contBytes_of_gt (by omega), List.append_assoc, List.singleton_append,
        ih _ (by omega) (by omega), readVarIntLoop_cons_cont (by omega) (by omega), hb]
      congr 1
      omega

theorem ReadVarInt_WriteVarInt {n : ℕ} (hn : n < 2 ^ w) (rest : List UInt8) :
    (ReadVarInt w).run (WriteVarInt n ++ rest) = .ok (n, rest) := by
  change readVarIntLoop w 0 (WriteVarInt n ++ rest) = .ok (n, rest)
  by_cases h : n ≤ 0x7F
  · have hb : n.toUInt8.toNat = n := toNat_toUInt8_of_lt (by omega)
    rw [WriteVarInt_of_le h, List.singleton_append, readVarIntLoop_cons_last (by omega) (by omega),
      hb, zero_mul, zero_add]
  · have hb : (n % 128).toUInt8.toNat = n % 128 := toNat_toUInt8_of_lt (by omega)
    rw [WriteVarInt_of_gt (by omega), List.append_assoc, List.singleton_append,
      readVarIntLoop_contBytes _ (by omega), readVarIntLoop_cons_last (by omega) (by omega), hb]
    congr 2
    omega

/-- The bytes the reader has taken when the value read so far is `n`. -/
def varIntPrefix : ℕ → List UInt8
  | 0 => []
  | m + 1 => contBytes m

/-- Every input the loop accepts, after the bytes it had taken, is the encoding of its result. -/
theorem readVarIntLoop_eq_ok (hw : 7 ≤ w) :
    ∀ (s : List UInt8) (n v : ℕ) (rest : List UInt8), readVarIntLoop w n s = .ok (v, rest) →
      varIntPrefix n ++ s = WriteVarInt v ++ rest
  | [], _, _, _, h => nomatch h
  | b :: s, n, v, rest, h => by
    rcases readVarIntLoop_cons_eq_ok hw h with ⟨hb, -, h⟩ | ⟨hb, rfl, rfl⟩
    · -- a continuation byte adds one group to the prefix
      rw [← readVarIntLoop_eq_ok hw s _ v rest h]
      change varIntPrefix n ++ b :: s = contBytes (n * 128 + b.toNat % 128) ++ s
      have hbyte : (b.toNat % 128 + 128).toUInt8 = b := by
        have := b.toNat_lt
        exact toUInt8_eq_of_toNat (by omega)
      cases n with
      | zero =>
        rw [zero_mul, zero_add, contBytes_of_le (by omega), hbyte]
        rfl
      | succ a =>
        have hdiv : ((a + 1) * 128 + b.toNat % 128) / 128 - 1 = a := by omega
        have hmod : ((a + 1) * 128 + b.toNat % 128) % 128 = b.toNat % 128 := by omega
        rw [contBytes_of_gt (by omega), hdiv, hmod, hbyte, List.append_assoc]
        rfl
    · -- the last byte ends the encoding
      cases n with
      | zero =>
        rw [zero_mul, zero_add, WriteVarInt_of_le (by omega), toUInt8_eq_of_toNat rfl]
        rfl
      | succ a =>
        have hdiv : ((a + 1) * 128 + b.toNat) / 128 - 1 = a := by omega
        have hmod : ((a + 1) * 128 + b.toNat) % 128 = b.toNat := by omega
        rw [WriteVarInt_of_gt (by omega), hdiv, hmod, toUInt8_eq_of_toNat rfl, List.append_assoc]
        rfl

theorem ReadVarInt_onlyEncodings (hw : 7 ≤ w) : OnlyEncodings WriteVarInt (ReadVarInt w) :=
  fun s _ rest h ↦ readVarIntLoop_eq_ok hw s 0 _ rest h

end Reader

/-! ## Streams

A serializer is written once for every stream type. The only calls whose effect depends on the
stream are raw writes and the two integer encodings that `CSizeComputer` overloads, so a
serializer is modelled by the list of those calls: a `CDataStream` appends their bytes, a
`CSizeComputer` adds up their sizes. -/

/-- A call a serializer makes on its stream. -/
inductive WriteOp
  | write (bytes : List UInt8)
  | compactSize (nSize : UInt64)
  | varInt (n : ℕ)

/-- What a `CDataStream` appends for the call. -/
def WriteOp.bytes : WriteOp → List UInt8
  | .write bytes => bytes
  | .compactSize nSize => WriteCompactSize nSize
  | .varInt n => WriteVarInt n

/-- How far a `CSizeComputer` moves for the call. -/
def WriteOp.size : WriteOp → ℕ
  | .write bytes => bytes.length
  | .compactSize nSize => GetSizeOfCompactSize nSize
  | .varInt n => GetSizeOfVarInt n

/-- The bytes a `CDataStream` receives from the calls. -/
def CDataStream.written (ops : List WriteOp) : List UInt8 := ops.flatMap WriteOp.bytes

/-- The size a `CSizeComputer` reaches through the calls. -/
def CSizeComputer.size (ops : List WriteOp) : ℕ := (ops.map WriteOp.size).sum

@[simp] theorem CDataStream.written_nil : CDataStream.written [] = [] := rfl

@[simp] theorem CDataStream.written_cons (op : WriteOp) (ops : List WriteOp) :
    CDataStream.written (op :: ops) = op.bytes ++ CDataStream.written ops := rfl

@[simp] theorem CDataStream.written_append (ops ops' : List WriteOp) :
    CDataStream.written (ops ++ ops') = CDataStream.written ops ++ CDataStream.written ops' :=
  List.flatMap_append

theorem WriteOp.size_eq_length (op : WriteOp) : op.size = op.bytes.length := by
  cases op with
  | write bytes => rfl
  | compactSize nSize => exact (length_WriteCompactSize nSize).symm
  | varInt n => exact (length_WriteVarInt n).symm

/-- The size computer counts exactly the bytes the data stream receives. -/
theorem CSizeComputer.size_eq_length (ops : List WriteOp) :
    CSizeComputer.size ops = (CDataStream.written ops).length := by
  induction ops with
  | nil => rfl
  | cons op ops ih =>
    rw [CDataStream.written_cons, List.length_append, ← WriteOp.size_eq_length, ← ih]
    simp [CSizeComputer.size]

/-! ## Vectors -/

/-- `Serialize` of a `std::vector` or `prevector` of bytes: the size, then the bytes in one write
(a write of no bytes changes no stream). -/
def serializeBytes (v : List UInt8) : List WriteOp := [.compactSize v.length.toUInt64, .write v]

/-- `Serialize` of a vector of other elements: the size, then each element. -/
def serializeVector {α : Type} (ser : α → List WriteOp) (v : List α) : List WriteOp :=
  .compactSize v.length.toUInt64 :: v.flatMap ser

/-- `Unserialize` of a vector of bytes; the source reads it in blocks of at most five million
bytes, which takes the same bytes in the same order. -/
def unserializeBytes : Reader (List UInt8) := do
  let nSize ← ReadCompactSize
  readBytes (nSize.toNat % 2 ^ 32)

/-- `Unserialize` of a vector of other elements, one after the other. -/
def unserializeVector {α : Type} (read : Reader α) : Reader (List α) := do
  let nSize ← ReadCompactSize
  readMany read (nSize.toNat % 2 ^ 32)

theorem toNat_toUInt64_of_le_MAX_SIZE {n : ℕ} (h : n ≤ MAX_SIZE) : n.toUInt64.toNat = n := by
  have hMAX : MAX_SIZE = 0x02000000 := rfl
  rw [Nat.toUInt64_eq, UInt64.toNat_ofNat', Nat.mod_eq_of_lt (by omega)]

theorem mod_two_pow_32_of_le_MAX_SIZE {n : ℕ} (h : n ≤ MAX_SIZE) : n % 2 ^ 32 = n := by
  have hMAX : MAX_SIZE = 0x02000000 := rfl
  exact Nat.mod_eq_of_lt (by omega)

theorem unserializeBytes_serializeBytes {v : List UInt8} (hv : v.length ≤ MAX_SIZE)
    (rest : List UInt8) :
    unserializeBytes.run (CDataStream.written (serializeBytes v) ++ rest) = .ok (v, rest) := by
  have hsize := toNat_toUInt64_of_le_MAX_SIZE hv
  simp only [serializeBytes, CDataStream.written_cons, CDataStream.written_nil, WriteOp.bytes,
    List.append_nil, List.append_assoc]
  rw [unserializeBytes, run_bind_of_ok (ReadCompactSize_WriteCompactSize (by rwa [hsize]) _), hsize,
    mod_two_pow_32_of_le_MAX_SIZE hv]
  exact readBytes_append v rest

/-- A vector reads back from its serialization when every element reads back from its own. -/
theorem unserializeVector_serializeVector {α : Type} {ser : α → List WriteOp} {read : Reader α}
    {P : α → Prop} (h : ReadsBack (fun a ↦ CDataStream.written (ser a)) read P) {v : List α}
    (hv : ∀ a ∈ v, P a) (hlen : v.length ≤ MAX_SIZE) (rest : List UInt8) :
    (unserializeVector read).run (CDataStream.written (serializeVector ser v) ++ rest) =
      .ok (v, rest) := by
  have hsize := toNat_toUInt64_of_le_MAX_SIZE hlen
  have helems : CDataStream.written (v.flatMap ser) = v.flatMap fun a ↦ CDataStream.written (ser a) :=
    List.flatMap_assoc
  rw [serializeVector, CDataStream.written_cons, WriteOp.bytes, List.append_assoc, unserializeVector,
    run_bind_of_ok (ReadCompactSize_WriteCompactSize (by rwa [hsize]) _), hsize,
    mod_two_pow_32_of_le_MAX_SIZE hlen, helems]
  exact readMany_readsBack h v hv rest

/-! ## Both codecs -/

/-- `CompactSize` reads back every length up to `MAX_SIZE` from exactly the bytes
`GetSizeOfCompactSize` counts, and accepts nothing but encodings; `VarInt` at 32 and 64 bits
reads back every value from exactly the bytes `GetSizeOfVarInt` counts, fills no more of `tmp`
than it has, and accepts nothing but encodings. -/
theorem compactSize_varInt_canonical :
    (∀ nSize : UInt64, nSize.toNat ≤ MAX_SIZE → ∀ rest : List UInt8,
        ReadCompactSize.run (WriteCompactSize nSize ++ rest) = .ok (nSize, rest) ∧
          (WriteCompactSize nSize).length = GetSizeOfCompactSize nSize) ∧
      OnlyEncodings WriteCompactSize ReadCompactSize ∧
      ∀ w, w = 32 ∨ w = 64 →
        (∀ n < 2 ^ w, ∀ rest : List UInt8,
            (ReadVarInt w).run (WriteVarInt n ++ rest) = .ok (n, rest) ∧
              (WriteVarInt n).length = GetSizeOfVarInt n ∧ (varIntTmp n 0).length ≤ (w + 6) / 7) ∧
          OnlyEncodings WriteVarInt (ReadVarInt w) := by
  refine ⟨fun nSize hn rest ↦ ⟨ReadCompactSize_WriteCompactSize hn rest,
    length_WriteCompactSize nSize⟩, ReadCompactSize_onlyEncodings, fun w hw ↦ ?_⟩
  have hw7 : 7 ≤ w := by omega
  exact ⟨fun n hn rest ↦ ⟨ReadVarInt_WriteVarInt hn rest, length_WriteVarInt n,
    length_varIntTmp_le (by omega) hn⟩, ReadVarInt_onlyEncodings hw7⟩

theorem compactSize_varInt_canonical_at_300 :
    ReadCompactSize.run (WriteCompactSize 300 ++ []) = .ok (300, []) ∧
      (ReadVarInt 64).run (WriteVarInt 300 ++ []) = .ok (300, []) :=
  ⟨(compactSize_varInt_canonical.1 300 (by decide) []).1,
    ((compactSize_varInt_canonical.2.2 64 (.inr rfl)).1 300 (by decide) []).1⟩

end LightningCash
