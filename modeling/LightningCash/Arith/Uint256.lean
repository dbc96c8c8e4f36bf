import LightningCash.Arith.Compact

/-!
# `uint256`: the opaque 256-bit blob and its hex parser

`uint256` is `base_blob<256>`, thirty-two bytes with no arithmetic; `UintToArith256` reads them
as eight little-endian words. The consensus limits are written in `chainparams.cpp` as hex
strings read by `SetHex`, which walks the hex digits from the last one, packs two digits per
byte from the least significant byte up, and stops when the blob is full. A string with more
than sixty-four digits therefore loses its leading digits: `toNat_uint256S` says the value is
the string's number modulo `2 ^ 256`.
-/

namespace LightningCash

/-- `HexDigit`: the table `p_util_hexdigit`, with `-1` as `none`, on the ASCII characters it
lists. -/
def HexDigit (c : Char) : Option UInt8 :=
  if '0' ≤ c ∧ c ≤ '9' then some (c.toNat - '0'.toNat).toUInt8
  else if 'a' ≤ c ∧ c ≤ 'f' then some (c.toNat - 'a'.toNat + 10).toUInt8
  else if 'A' ≤ c ∧ c ≤ 'F' then some (c.toNat - 'A'.toNat + 10).toUInt8
  else none

/-- `isspace` in the C locale. -/
def isspace (c : Char) : Bool :=
  c = ' ' || c = '\t' || c = '\n' || c.toNat = 11 || c.toNat = 12 || c = '\r'

/-- The packing loop of `SetHex`, given the digit values from the last digit backwards and
the number of bytes left: the digit read first is the low nibble of a byte, the next one its
high nibble. -/
def fillBytes : ℕ → List UInt8 → List UInt8
  | 0, _ => []
  | n + 1, [] => List.replicate (n + 1) 0
  | n + 1, [d] => d :: List.replicate n 0
  | n + 1, d0 :: d1 :: ds => (d0 ||| d1 <<< 4) :: fillBytes n ds

@[simp] theorem length_fillBytes : ∀ (n : ℕ) (ds : List UInt8), (fillBytes n ds).length = n
  | 0, _ => rfl
  | n + 1, [] => by simp [fillBytes]
  | n + 1, [d] => by simp [fillBytes]
  | n + 1, d0 :: d1 :: ds => by simp [fillBytes, length_fillBytes n ds]

/-- `base_blob<BITS>::SetHex(psz)`: skip leading spaces and an optional `0x`, take the longest
run of hex digits, and pack it into `bytes` bytes. -/
def SetHex (bytes : ℕ) (psz : List Char) : List UInt8 :=
  let psz := psz.dropWhile isspace
  let psz := match psz with
    | '0' :: c :: rest => if c = 'x' ∨ c = 'X' then rest else psz
    | _ => psz
  let digits := (psz.takeWhile fun c ↦ (HexDigit c).isSome).map fun c ↦ (HexDigit c).getD 0
  fillBytes bytes digits.reverse

/-- `uint256`, thirty-two bytes, least significant first. -/
structure Uint256 where
  data : List UInt8
  length_data : data.length = 32
  deriving DecidableEq

/-- `uint256S(str)`. -/
def uint256S (str : String) : Uint256 := ⟨SetHex 32 str.toList, length_fillBytes _ _⟩

/-- `ReadLE32`: four bytes as a little-endian word. -/
def ReadLE32 (ptr : List UInt8) : UInt32 :=
  (ptr.getD 0 0).toUInt32 ||| (ptr.getD 1 0).toUInt32 <<< 8 ||| (ptr.getD 2 0).toUInt32 <<< 16 |||
    (ptr.getD 3 0).toUInt32 <<< 24

/-- `ReadLE32` on four bytes is their little-endian value. -/
theorem toNat_ReadLE32 (a b c d : UInt8) (rest : List UInt8) :
    (ReadLE32 (a :: b :: c :: d :: rest)).toNat =
      a.toNat + 256 * b.toNat + 65536 * c.toNat + 16777216 * d.toNat := by
  have ha := a.toNat_lt
  have hb := b.toNat_lt
  have hc := c.toNat_lt
  have hd := d.toNat_lt
  -- the bytes sit at disjoint bit positions, so the `|||` are sums
  have hor : ∀ {x k : ℕ} (y : ℕ), x < 2 ^ k → (x ||| y <<< k) = x + y * 2 ^ k := by
    intro x k y hx
    rw [Nat.or_comm, ← Nat.shiftLeft_add_eq_or_of_lt hx, Nat.shiftLeft_eq]
    omega
  simp only [ReadLE32, List.getD_cons_zero, List.getD_cons_succ, UInt32.toNat_or,
    UInt32.toNat_shiftLeft, UInt8.toNat_toUInt32]
  have h8 : (8 : UInt32).toNat % 32 = 8 := rfl
  have h16 : (16 : UInt32).toNat % 32 = 16 := rfl
  have h24 : (24 : UInt32).toNat % 32 = 24 := rfl
  have hb8 : b.toNat <<< 8 % 4294967296 = b.toNat <<< 8 :=
    Nat.mod_eq_of_lt (by rw [Nat.shiftLeft_eq]; omega)
  have hc16 : c.toNat <<< 16 % 4294967296 = c.toNat <<< 16 :=
    Nat.mod_eq_of_lt (by rw [Nat.shiftLeft_eq]; omega)
  have hd24 : d.toNat <<< 24 % 4294967296 = d.toNat <<< 24 :=
    Nat.mod_eq_of_lt (by rw [Nat.shiftLeft_eq]; omega)
  have h16' : a.toNat + b.toNat * 2 ^ 8 < 2 ^ 16 := by omega
  have h24' : a.toNat + b.toNat * 2 ^ 8 + c.toNat * 2 ^ 16 < 2 ^ 24 := by omega
  rw [h8, h16, h24, hb8, hc16, hd24, hor _ ha, hor _ h16', hor _ h24']
  omega

/-- `WriteLE32`: a word as four little-endian bytes. -/
def WriteLE32 (x : UInt32) : List UInt8 :=
  [x.toUInt8, (x >>> 8).toUInt8, (x >>> 16).toUInt8, (x >>> 24).toUInt8]

/-- `UintToArith256`: `b.pn[x] = ReadLE32(a.begin() + x * 4)`. -/
def UintToArith256 (a : Uint256) : ArithUint256 :=
  ⟨(List.range 8).map fun x ↦ ReadLE32 (a.data.drop (x * 4)), by simp⟩

/-- `ArithToUint256`: `WriteLE32(b.begin() + x * 4, a.pn[x])` for each limb. -/
def ArithToUint256 (a : ArithUint256) : Uint256 :=
  ⟨a.pn.flatMap WriteLE32, by simp [WriteLE32, a.length_pn]⟩

end LightningCash
