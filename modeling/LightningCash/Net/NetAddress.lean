import Mathlib.Data.List.GetD
import Mathlib.Data.Nat.Bitwise

/-!
# Network addresses and subnets

`CNetAddr` holds sixteen bytes, IPv4 addresses stored IPv4-mapped (`::ffff:a.b.c.d`), and
`CSubNet` an address, a sixteen-byte netmask and a validity flag. `CSubNet(addr, mask)` builds
the netmask of a prefix length bit by bit, counting from the start of the IPv4 part for an IPv4
address; `Match` compares the masked bytes; `ToString` reads the prefix length back from the
netmask.

The bits of an address are numbered from the most significant bit of its first byte. A prefix
mask of `p` bits keeps, in byte `j`, the `p - 8 j` leading bits (`maskByte`), and a masked byte
comparison is agreement on the bits the mask keeps. So a subnet of prefix length `m` matches
exactly the addresses that agree with it on the first `m` bits of its family: the first `m` of
all 128 bits for IPv6, the IPv4 prefix and the first `m` of the 32 IPv4 bits for IPv4.
-/

namespace LightningCash

/-- `pchIPv4`: the first twelve bytes of an IPv4-mapped address. -/
def pchIPv4 : List UInt8 := [0, 0, 0, 0, 0, 0, 0, 0, 0, 0, 0xff, 0xff]

/-- `g_internal_prefix`. -/
def g_internal_prefix : List UInt8 := [0xFD, 0x6C, 0xE9, 0xFE, 0x45, 0x49]

/-- `CNetAddr`: the sixteen bytes of `ip`. -/
structure CNetAddr where
  ip : List UInt8
  length_ip : ip.length = 16

namespace CNetAddr

/-- `GetByte(n)`: the bytes counted from the last. -/
def GetByte (a : CNetAddr) (n : ℕ) : UInt8 := a.ip.getD (15 - n) 0

/-- `IsIPv4()`. -/
def IsIPv4 (a : CNetAddr) : Bool := a.ip.take 12 == pchIPv4

/-- `IsRFC3849()`: the documentation prefix `2001:db8::/32`. -/
def IsRFC3849 (a : CNetAddr) : Bool :=
  a.GetByte 15 == 0x20 && a.GetByte 14 == 0x01 && a.GetByte 13 == 0x0D && a.GetByte 12 == 0xB8

/-- `IsInternal()`. -/
def IsInternal (a : CNetAddr) : Bool := a.ip.take 6 == g_internal_prefix

/-- `IsValid()`. -/
def IsValid (a : CNetAddr) : Bool :=
  -- `memcmp(ip, pchIPv4 + 3, sizeof(pchIPv4) - 3) == 0`
  if a.ip.take 9 == pchIPv4.drop 3 then false
  else if a.ip == List.replicate 16 0 then false
  else if a.IsRFC3849 then false
  else if a.IsInternal then false
  -- `INADDR_NONE` and `0` as the four IPv4 bytes
  else if a.IsIPv4 && (a.ip.drop 12 == [0xff, 0xff, 0xff, 0xff] || a.ip.drop 12 == [0, 0, 0, 0])
    then false
  else true

end CNetAddr

/-- `netmask[n >> 3] &= ~(1 << (7 - (n & 7)))`: clear bit `n` of the netmask. -/
def clearBit (netmask : List UInt8) (n : ℕ) : List UInt8 :=
  netmask.modify (n >>> 3) (· &&& ~~~((1 : UInt8) <<< (7 - (n &&& 7)).toUInt8))

/-- `for (; n < 128; ++n) netmask[n >> 3] &= ...`: clear the bits `n, ..., 127`. -/
def clearBitsFrom (netmask : List UInt8) (n : ℕ) : List UInt8 :=
  (List.range' n (128 - n)).foldl clearBit netmask

theorem length_clearBitsFrom (netmask : List UInt8) (n : ℕ) :
    (clearBitsFrom netmask n).length = netmask.length := by
  unfold clearBitsFrom
  induction List.range' n (128 - n) generalizing netmask with
  | nil => rfl
  | cons i is ih => rw [List.foldl_cons, ih, clearBit, List.length_modify]

/-- `CSubNet`: the network, its netmask, and whether it is valid. -/
structure CSubNet where
  network : CNetAddr
  netmask : List UInt8
  length_netmask : netmask.length = 16
  valid : Bool

namespace CSubNet

/-- `network.ip[x] &= netmask[x]` for every byte. -/
def maskAddr (addr : CNetAddr) (netmask : List UInt8) (h : netmask.length = 16) : CNetAddr :=
  ⟨List.zipWith (· &&& ·) addr.ip netmask, by simp [addr.length_ip, h]⟩

/-- `astartofs`: the byte where the prefix of an address starts, that of the IPv4 part for an
IPv4 address. -/
def astartofs (addr : CNetAddr) : ℕ := if addr.IsIPv4 then 12 else 0

/-- `CSubNet(addr, mask)`. -/
def ofMask (addr : CNetAddr) (mask : ℤ) : CSubNet :=
  if 0 ≤ mask ∧ mask ≤ 128 - astartofs addr * 8 then
    let netmask := clearBitsFrom (List.replicate 16 0xff) (mask.toNat + astartofs addr * 8)
    have h : netmask.length = 16 := by simp [netmask, length_clearBitsFrom]
    ⟨maskAddr addr netmask h, netmask, h, true⟩
  else ⟨maskAddr addr (List.replicate 16 0xff) (by simp), List.replicate 16 0xff, by simp, false⟩

/-- `Match(addr)`. -/
def Match (s : CSubNet) (addr : CNetAddr) : Bool :=
  s.valid && addr.IsValid &&
    (List.range 16).all fun x ↦ (addr.ip.getD x 0 &&& s.netmask.getD x 0) == s.network.ip.getD x 0

end CSubNet

/-- `NetmaskBits(x)`: the length of a byte of leading ones, `-1` for any other byte. -/
def NetmaskBits (x : UInt8) : ℤ :=
  if x = 0x00 then 0 else if x = 0x80 then 1 else if x = 0xc0 then 2 else if x = 0xe0 then 3
  else if x = 0xf0 then 4 else if x = 0xf8 then 5 else if x = 0xfc then 6
  else if x = 0xfe then 7 else if x = 0xff then 8 else -1

/-- The loops of `CSubNet::ToString` over the netmask from its start byte: the prefix length
`cidr`, or `none` where `valid_cidr` ends false. -/
def netmaskCidr : List UInt8 → Option ℕ
  | [] => some 0
  | b :: rest =>
    if b = 0xff then (netmaskCidr rest).map (· + 8)
    else if NetmaskBits b < 0 then none
    else if rest.all (· == 0) then some (NetmaskBits b).toNat
    else none

/-- `strprintf("%x", v)`. -/
def hexString (v : ℕ) : String := String.ofList (Nat.toDigits 16 v)

/-- The eight groups `netmask[2 i] << 8 | netmask[2 i + 1]` of an IPv6 netmask, in hex. -/
def hexGroups : List UInt8 → List String
  | b0 :: b1 :: rest => hexString (b0.toNat * 256 + b1.toNat) :: hexGroups rest
  | _ => []

/-- `CSubNet::ToString()`, the text of the network address given by `ToStringIP`, which calls
the system's `getnameinfo`. -/
def CSubNet.ToString (ToStringIP : CNetAddr → String) (s : CSubNet) : String :=
  let strNetmask :=
    match netmaskCidr (s.netmask.drop (if s.network.IsIPv4 then 12 else 0)) with
    | some cidr => toString cidr
    | none =>
      if s.network.IsIPv4 then ".".intercalate ((s.netmask.drop 12).map fun b ↦ toString b.toNat)
      else ":".intercalate (hexGroups s.netmask)
  ToStringIP s.network ++ "/" ++ strNetmask

/-! ## The netmask of a prefix -/

/-- A byte whose `b` leading bits are set, all of them from `b = 8` on. -/
def maskByte (b : ℕ) : UInt8 := (256 - 2 ^ (8 - b)).toUInt8

theorem toNat_maskByte (b : ℕ) : (maskByte b).toNat = 256 - 2 ^ (8 - b) := by
  have hpos := Nat.one_le_two_pow (n := 8 - b)
  rw [maskByte, Nat.toUInt8_eq, UInt8.toNat_ofNat', Nat.mod_eq_of_lt (by omega)]

theorem maskByte_of_le {b : ℕ} (h : 8 ≤ b) : maskByte b = 0xff := by
  rw [maskByte, Nat.sub_eq_zero_of_le h]
  rfl

theorem maskByte_zero : maskByte 0 = 0 := rfl

/-- Bit `k` of a mask byte, counted from the least significant bit. -/
theorem testBit_maskByte (b : ℕ) {k : ℕ} (hk : k < 8) :
    (maskByte b).toNat.testBit k = decide (8 - b ≤ k) := by
  have hbits : ∀ c ≤ 8, ∀ k < 8, (256 - 2 ^ c).testBit k = decide (c ≤ k) := by decide
  rw [toNat_maskByte]
  exact hbits _ (by omega) k hk

/-- Two bytes agree under a mask of `b` leading bits iff they agree on those bits. -/
theorem and_maskByte_eq_iff (x y : UInt8) (b : ℕ) :
    x &&& maskByte b = y &&& maskByte b ↔
      ∀ t < 8, t < b → x.toNat.testBit (7 - t) = y.toNat.testBit (7 - t) := by
  rw [← UInt8.toNat_inj, UInt8.toNat_and, UInt8.toNat_and]
  constructor
  · intro h t ht htb
    have hbit := congrArg (Nat.testBit · (7 - t)) h
    simp only [Nat.testBit_and, testBit_maskByte b (by omega : 7 - t < 8)] at hbit
    simpa [show 8 - b ≤ 7 - t by omega] using hbit
  · intro h
    apply Nat.eq_of_testBit_eq
    intro k
    rw [Nat.testBit_and, Nat.testBit_and]
    by_cases hk : k < 8
    · rw [testBit_maskByte b hk]
      by_cases hkb : 8 - b ≤ k
      · have hagree := h (7 - k) (by omega) (by omega)
        rw [show 7 - (7 - k) = k by omega] at hagree
        rw [hagree]
      · simp [hkb]
    · have hhigh (z : UInt8) : z.toNat.testBit k = false :=
        Nat.testBit_lt_two_pow (z.toNat_lt.trans_le (Nat.pow_le_pow_right Nat.zero_lt_two (by omega)))
      rw [hhigh x, hhigh y]

theorem and_ff (x : UInt8) : x &&& 0xff = x := by
  apply UInt8.toNat_inj.mp
  rw [UInt8.toNat_and, show (0xff : UInt8).toNat = 2 ^ 8 - 1 from rfl,
    Nat.and_two_pow_sub_one_eq_mod, Nat.mod_eq_of_lt x.toNat_lt]

/-- One round of the netmask loop clears one bit of one byte. -/
theorem getD_clearBit (netmask : List UInt8) (n j : ℕ) :
    (clearBit netmask n).getD j 0 =
      if j = n / 8 then netmask.getD j 0 &&& ~~~((1 : UInt8) <<< (7 - n % 8).toUInt8)
      else netmask.getD j 0 := by
  have hshift : n >>> 3 = n / 8 := Nat.shiftRight_eq_div_pow n 3
  have hmod : n &&& 7 = n % 8 := Nat.and_two_pow_sub_one_eq_mod n 3
  rw [clearBit, List.getD_eq_getElem?_getD, List.getElem?_modify, hshift, hmod,
    List.getD_eq_getElem?_getD]
  cases netmask[j]? with
  | none => split_ifs <;> simp
  | some v =>
    by_cases hj : j = n / 8
    · simp [hj]
    · simp [hj, Ne.symm hj]

/-- Clearing bit `r` of a mask of `r + 1` bits leaves a mask of `r` bits. -/
theorem maskByte_succ_and {r : ℕ} (hr : r < 8) :
    maskByte (r + 1) &&& ~~~((1 : UInt8) <<< (7 - r).toUInt8) = maskByte r := by
  revert r
  decide

theorem clearBitsFrom_of_lt (netmask : List UInt8) {n : ℕ} (hn : n < 128) :
    clearBitsFrom netmask n = clearBitsFrom (clearBit netmask n) (n + 1) := by
  rw [clearBitsFrom, clearBitsFrom, show 128 - n = (128 - (n + 1)) + 1 by omega, List.range'_succ]
  rfl

/-- The netmask loop from bit `n` keeps, in byte `j`, the first `n - 8 j` bits. -/
theorem getD_clearBitsFrom (netmask : List UInt8) {n : ℕ} (hn : n ≤ 128) {j : ℕ} (hj : j < 16) :
    (clearBitsFrom netmask n).getD j 0 = netmask.getD j 0 &&& maskByte (n - 8 * j) := by
  -- induction on the number of bits left to clear
  obtain ⟨k, hk⟩ : ∃ k, n + k = 128 := ⟨128 - n, by omega⟩
  induction k generalizing n netmask with
  | zero =>
    have h128 : n = 128 := by omega
    subst h128
    rw [maskByte_of_le (by omega), and_ff]
    rfl
  | succ k ih =>
    rw [clearBitsFrom_of_lt netmask (by omega), ih (clearBit netmask n) (by omega) (by omega),
      getD_clearBit]
    split_ifs with hjn
    · have hr : n - 8 * j = n % 8 := by omega
      rw [show n + 1 - 8 * j = n % 8 + 1 by omega, UInt8.and_assoc, UInt8.and_comm _ (maskByte _),
        maskByte_succ_and (Nat.mod_lt n (by decide)), hr]
    · rcases Nat.lt_or_gt_of_ne hjn with hlt | hgt
      · rw [maskByte_of_le (by omega), maskByte_of_le (by omega)]
      · rw [Nat.sub_eq_zero_of_le (by omega), Nat.sub_eq_zero_of_le (by omega)]
/-! ## Prefixes -/

/-- Bit `i` of an address, the bits numbered from the most significant bit of byte 0. -/
def bitAt (ip : List UInt8) (i : ℕ) : Bool := (ip.getD (i / 8) 0).toNat.testBit (7 - i % 8)

/-- Two addresses agree on their first `p` bits. -/
def PrefixAgree (ip ip' : List UInt8) (p : ℕ) : Prop := ∀ i < p, bitAt ip i = bitAt ip' i

instance (ip ip' : List UInt8) (p : ℕ) : Decidable (PrefixAgree ip ip' p) := by
  unfold PrefixAgree
  infer_instance

/-- Agreement on `p ≤ 128` bits is agreement of the bytes under the mask of `p` bits. -/
theorem prefixAgree_iff (ip ip' : List UInt8) {p : ℕ} (hp : p ≤ 128) :
    PrefixAgree ip ip' p ↔
      ∀ j < 16, ip.getD j 0 &&& maskByte (p - 8 * j) = ip'.getD j 0 &&& maskByte (p - 8 * j) := by
  simp only [and_maskByte_eq_iff]
  constructor
  · intro h j _ t ht htp
    have hi := h (8 * j + t) (by omega)
    rwa [bitAt, bitAt, show (8 * j + t) / 8 = j by omega, show (8 * j + t) % 8 = t by omega] at hi
  · intro h i hi
    exact h (i / 8) (by omega) (i % 8) (Nat.mod_lt i (by decide)) (by omega)

theorem bitAt_drop (ip : List UInt8) (i : ℕ) : bitAt (ip.drop 12) i = bitAt ip (96 + i) := by
  rw [bitAt, bitAt, List.getD_eq_getElem?_getD, List.getD_eq_getElem?_getD, List.getElem?_drop,
    show 12 + i / 8 = (96 + i) / 8 by omega, show (96 + i) % 8 = i % 8 by omega]

/-- The first `96 + m` bits are the first twelve bytes, then the first `m` bits after them. -/
theorem prefixAgree_add (ip ip' : List UInt8) (m : ℕ) :
    PrefixAgree ip ip' (96 + m) ↔
      PrefixAgree ip ip' 96 ∧ PrefixAgree (ip.drop 12) (ip'.drop 12) m := by
  constructor
  · intro h
    refine ⟨fun i hi ↦ h i (by omega), fun i hi ↦ ?_⟩
    rw [bitAt_drop, bitAt_drop]
    exact h _ (by omega)
  · rintro ⟨h96, hm⟩ i hi
    by_cases h : i < 96
    · exact h96 i h
    · have hagree := hm (i - 96) (by omega)
      rwa [bitAt_drop, bitAt_drop, show 96 + (i - 96) = i by omega] at hagree

theorem getD_take_of_lt (ip : List UInt8) {j : ℕ} (hj : j < 12) :
    (ip.take 12).getD j 0 = ip.getD j 0 := by
  rw [List.getD_eq_getElem?_getD, List.getD_eq_getElem?_getD, List.getElem?_take, if_pos hj]

/-- Agreement on the first 96 bits is equality of the first twelve bytes. -/
theorem prefixAgree_96_iff {ip ip' : List UInt8} (h : ip.length = 16) (h' : ip'.length = 16) :
    PrefixAgree ip ip' 96 ↔ ip.take 12 = ip'.take 12 := by
  rw [prefixAgree_iff ip ip' (by omega)]
  constructor
  · intro hb
    apply List.ext_getElem (by simp [h, h'])
    intro j hj _
    have hj12 : j < 12 := by simp [h] at hj; omega
    have hbyte := hb j (by omega)
    rw [maskByte_of_le (by omega), and_ff, and_ff] at hbyte
    rw [← List.getD_eq_getElem _ 0, ← List.getD_eq_getElem _ 0, getD_take_of_lt _ hj12,
      getD_take_of_lt _ hj12, hbyte]
  · intro heq j hj
    by_cases hj12 : j < 12
    · rw [maskByte_of_le (by omega), and_ff, and_ff, ← getD_take_of_lt _ hj12, heq,
        getD_take_of_lt _ hj12]
    · rw [Nat.sub_eq_zero_of_le (by omega), maskByte_zero, UInt8.and_zero, UInt8.and_zero]



theorem maskByte_ne_ff {r : ℕ} (hr : r < 8) : maskByte r ≠ 0xff := by
  revert r
  decide

theorem NetmaskBits_maskByte {r : ℕ} (hr : r < 8) : NetmaskBits (maskByte r) = r := by
  revert r
  decide

/-- A byte under a mask of fewer than eight bits is not `0xff`: its last bit is clear. -/
theorem and_maskByte_ne_ff (y : UInt8) {r : ℕ} (hr : r < 8) : y &&& maskByte r ≠ 0xff := by
  intro h
  have hbit := congrArg (fun z : UInt8 ↦ z.toNat.testBit 0) h
  simp only [UInt8.toNat_and, Nat.testBit_and, testBit_maskByte r (by decide : 0 < 8)] at hbit
  simp [show ¬ 8 - r ≤ 0 by omega] at hbit

/-- `ToString`'s loops read the prefix length back from the bytes `s, s + 1, ...` of a mask of
`p` bits. -/
theorem netmaskCidr_map_maskByte (p : ℕ) :
    ∀ k s : ℕ, 8 * s ≤ p → p ≤ 8 * (s + k) →
      netmaskCidr ((List.range' s k).map fun j ↦ maskByte (p - 8 * j)) = some (p - 8 * s) := by
  intro k
  induction k with
  | zero =>
    intro s hs hp
    rw [show p - 8 * s = 0 by omega]
    rfl
  | succ k ih =>
    intro s hs hp
    rw [List.range'_succ, List.map_cons, netmaskCidr]
    by_cases hfull : 8 ≤ p - 8 * s
    · -- a whole byte of the prefix
      rw [if_pos (maskByte_of_le hfull), ih (s + 1) (by omega) (by omega), Option.map_some]
      congr 1
      omega
    · -- the last, partial byte; zeros after it
      have hr : p - 8 * s < 8 := by omega
      have hzeros : ((List.range' (s + 1) k).map fun j ↦ maskByte (p - 8 * j)).all (· == 0) := by
        simp only [List.all_eq_true, List.mem_map, List.mem_range']
        rintro _ ⟨j, ⟨i, hi, rfl⟩, rfl⟩
        rw [Nat.sub_eq_zero_of_le (by omega), maskByte_zero]
        rfl
      rw [if_neg (maskByte_ne_ff hr), NetmaskBits_maskByte hr, if_neg (by omega), hzeros, if_pos rfl]
      rfl

/-! ## `CSubNet` -/

namespace CSubNet

theorem getD_maskAddr (addr : CNetAddr) (netmask : List UInt8) (h : netmask.length = 16) {j : ℕ}
    (hj : j < 16) :
    (maskAddr addr netmask h).ip.getD j 0 = addr.ip.getD j 0 &&& netmask.getD j 0 := by
  have hlen := addr.length_ip
  rw [List.getD_eq_getElem _ _ (by simp [maskAddr, hlen, h]; omega),
    List.getD_eq_getElem _ _ (by omega), List.getD_eq_getElem _ _ (by omega)]
  exact List.getElem_zipWith

/-- `Match` compares the sixteen masked bytes. -/
theorem Match_iff (s : CSubNet) (x : CNetAddr) :
    s.Match x = true ↔ s.valid = true ∧ x.IsValid = true ∧
      ∀ j < 16, x.ip.getD j 0 &&& s.netmask.getD j 0 = s.network.ip.getD j 0 := by
  simp [Match, List.all_eq_true, List.mem_range, and_assoc]

/-- The netmask of a prefix of `p ≤ 128` bits. -/
theorem getD_clearBitsFrom_ff {p : ℕ} (hp : p ≤ 128) {j : ℕ} (hj : j < 16) :
    (clearBitsFrom (List.replicate 16 0xff) p).getD j 0 = maskByte (p - 8 * j) := by
  rw [getD_clearBitsFrom _ hp hj, List.getD_eq_getElem _ _ (by simp [hj]), List.getElem_replicate,
    UInt8.and_comm, and_ff]

/-- With a prefix length in range, the subnet is valid, its netmask has `p` leading bits, and its
network is the address under that mask. -/
theorem ofMask_of_le {addr : CNetAddr} {mask : ℤ}
    (h : 0 ≤ mask ∧ mask ≤ 128 - astartofs addr * 8) :
    let p := mask.toNat + astartofs addr * 8
    (ofMask addr mask).valid = true ∧
      ∀ j < 16, (ofMask addr mask).netmask.getD j 0 = maskByte (p - 8 * j) ∧
        (ofMask addr mask).network.ip.getD j 0 = addr.ip.getD j 0 &&& maskByte (p - 8 * j) := by
  intro p
  have hp : p ≤ 128 := by omega
  rw [ofMask, if_pos h]
  refine ⟨rfl, fun j hj ↦ ⟨getD_clearBitsFrom_ff hp hj, ?_⟩⟩
  rw [getD_maskAddr _ _ _ hj, getD_clearBitsFrom_ff hp hj]

/-- A subnet in range matches the valid addresses that agree with it on its first
`mask + 8 * astartofs` bits. -/
theorem Match_ofMask_iff {addr : CNetAddr} {mask : ℤ}
    (h : 0 ≤ mask ∧ mask ≤ 128 - astartofs addr * 8) (x : CNetAddr) :
    (ofMask addr mask).Match x = true ↔
      x.IsValid = true ∧ PrefixAgree x.ip addr.ip (mask.toNat + astartofs addr * 8) := by
  obtain ⟨hvalid, hbytes⟩ := ofMask_of_le h
  rw [Match_iff, prefixAgree_iff _ _ (by omega)]
  constructor
  · rintro ⟨-, hx, hb⟩
    refine ⟨hx, fun j hj ↦ ?_⟩
    rw [← (hbytes j hj).2, ← (hbytes j hj).1]
    exact hb j hj
  · rintro ⟨hx, hb⟩
    refine ⟨hvalid, hx, fun j hj ↦ ?_⟩
    rw [(hbytes j hj).2, (hbytes j hj).1]
    exact hb j hj


/-- For an IPv4 address, sharing its first twelve bytes is being IPv4. -/
theorem take_eq_iff_IsIPv4 {addr : CNetAddr} (ha : addr.IsIPv4 = true) (x : CNetAddr) :
    x.ip.take 12 = addr.ip.take 12 ↔ x.IsIPv4 = true := by
  rw [beq_iff_eq.mp ha, CNetAddr.IsIPv4, beq_iff_eq]

/-- The width of the prefix lengths of an address's family. -/
def familyWidth (addr : CNetAddr) : ℤ := if addr.IsIPv4 then 32 else 128

theorem familyWidth_eq (addr : CNetAddr) : familyWidth addr = 128 - astartofs addr * 8 := by
  unfold familyWidth astartofs
  split_ifs <;> rfl

/-- A subnet in range matches the valid addresses that agree with it on the first `mask` bits of
its family: all 128 bits, or the IPv4 prefix and then the 32 IPv4 bits. -/
theorem Match_ofMask_iff_family {addr : CNetAddr} {mask : ℤ}
    (h : 0 ≤ mask ∧ mask ≤ familyWidth addr) {x : CNetAddr} (hx : x.IsValid = true) :
    (ofMask addr mask).Match x = true ↔
      if addr.IsIPv4 then x.IsIPv4 = true ∧ PrefixAgree (x.ip.drop 12) (addr.ip.drop 12) mask.toNat
      else PrefixAgree x.ip addr.ip mask.toNat := by
  rw [Match_ofMask_iff (familyWidth_eq addr ▸ h) x, astartofs]
  cases hv4 : addr.IsIPv4
  · simp [hx]
  · rw [if_pos rfl, if_pos rfl, Nat.add_comm, prefixAgree_add,
      prefixAgree_96_iff x.length_ip addr.length_ip, take_eq_iff_IsIPv4 hv4]
    simp [hx]


/-- The netmask of a subnet in range, as a list. -/
theorem netmask_ofMask {addr : CNetAddr} {mask : ℤ}
    (h : 0 ≤ mask ∧ mask ≤ 128 - astartofs addr * 8) :
    (ofMask addr mask).netmask =
      (List.range 16).map fun j ↦ maskByte (mask.toNat + astartofs addr * 8 - 8 * j) := by
  obtain ⟨-, hbytes⟩ := ofMask_of_le h
  have hlen := (ofMask addr mask).length_netmask
  apply List.ext_getElem (by simp [hlen])
  intro j hj _
  rw [← List.getD_eq_getElem _ 0, (hbytes j (by omega)).1]
  simp

/-- A prefix of at least 96 bits keeps the first twelve bytes of the address. -/
theorem take_network_ofMask {addr : CNetAddr} {mask : ℤ}
    (h : 0 ≤ mask ∧ mask ≤ 128 - astartofs addr * 8)
    (hp : 96 ≤ mask.toNat + astartofs addr * 8) :
    (ofMask addr mask).network.ip.take 12 = addr.ip.take 12 := by
  obtain ⟨-, hbytes⟩ := ofMask_of_le h
  apply List.ext_getElem (by simp [CNetAddr.length_ip])
  intro j hj _
  have hj12 : j < 12 := by simp [CNetAddr.length_ip] at hj; omega
  rw [← List.getD_eq_getElem _ 0, ← List.getD_eq_getElem _ 0, getD_take_of_lt _ hj12,
    getD_take_of_lt _ hj12, (hbytes j (by omega)).2, maskByte_of_le (by omega), and_ff]

/-- The network of a subnet in range is of the family of its address. -/
theorem IsIPv4_network_ofMask {addr : CNetAddr} {mask : ℤ}
    (h : 0 ≤ mask ∧ mask ≤ 128 - astartofs addr * 8) :
    (ofMask addr mask).network.IsIPv4 = addr.IsIPv4 := by
  by_cases hp : 96 ≤ mask.toNat + astartofs addr * 8
  · rw [CNetAddr.IsIPv4, CNetAddr.IsIPv4, take_network_ofMask h hp]
  -- a shorter prefix is an IPv6 one, and it clears the last bit of byte 11
  have hv4 : addr.IsIPv4 = false := by
    unfold astartofs at hp
    cases hv : addr.IsIPv4
    · rfl
    · simp [hv] at hp
  obtain ⟨-, hbytes⟩ := ofMask_of_le h
  rw [hv4, Bool.eq_false_iff]
  intro hnet
  have h11 : (ofMask addr mask).network.ip.getD 11 0 = 0xff := by
    rw [← getD_take_of_lt _ (by decide : 11 < 12), beq_iff_eq.mp hnet]
    rfl
  rw [(hbytes 11 (by decide)).2] at h11
  exact and_maskByte_ne_ff _ (by omega) h11

/-- A subnet in range prints its prefix length after the slash. -/
theorem ToString_ofMask {addr : CNetAddr} {mask : ℤ} (h : 0 ≤ mask ∧ mask ≤ familyWidth addr)
    (ToStringIP : CNetAddr → String) :
    (ofMask addr mask).ToString ToStringIP =
      ToStringIP (ofMask addr mask).network ++ "/" ++ toString mask.toNat := by
  have h' := familyWidth_eq addr ▸ h
  have hstart : (if addr.IsIPv4 then 12 else 0) = astartofs addr := rfl
  have hcidr : netmaskCidr ((ofMask addr mask).netmask.drop
      (if (ofMask addr mask).network.IsIPv4 then 12 else 0)) = some mask.toNat := by
    rw [IsIPv4_network_ofMask h', hstart, netmask_ofMask h', ← List.map_drop,
      List.range_eq_range', List.drop_range', netmaskCidr_map_maskByte _ _ _ (by omega)
        (by unfold astartofs at h' ⊢; split_ifs at h' ⊢ <;> omega)]
    congr 1
    omega
  rw [CSubNet.ToString, hcidr]

/-- Out of range, the subnet is invalid and matches nothing. -/
theorem ofMask_of_not_le {addr : CNetAddr} {mask : ℤ}
    (h : ¬(0 ≤ mask ∧ mask ≤ 128 - astartofs addr * 8)) :
    (ofMask addr mask).valid = false ∧ ∀ x, (ofMask addr mask).Match x = false := by
  have hvalid : (ofMask addr mask).valid = false := by rw [ofMask, if_neg h]
  exact ⟨hvalid, fun x ↦ by rw [Match, hvalid, Bool.false_and, Bool.false_and]⟩

/-- `CSubNet(addr, mask)` for every prefix length: in the range of the address's family the
subnet is valid, matches exactly the valid addresses that agree with the address on the first
`mask` bits of the family, and prints `/mask`; out of it the subnet is invalid and matches
nothing. -/
theorem ofMask_cidr (addr : CNetAddr) (mask : ℤ) :
    (0 ≤ mask ∧ mask ≤ familyWidth addr →
      (ofMask addr mask).valid = true ∧
        (∀ x : CNetAddr, x.IsValid = true →
          ((ofMask addr mask).Match x = true ↔
            if addr.IsIPv4 then
              x.IsIPv4 = true ∧ PrefixAgree (x.ip.drop 12) (addr.ip.drop 12) mask.toNat
            else PrefixAgree x.ip addr.ip mask.toNat)) ∧
        ∀ ToStringIP : CNetAddr → String,
          (ofMask addr mask).ToString ToStringIP =
            ToStringIP (ofMask addr mask).network ++ "/" ++ toString mask.toNat) ∧
      (¬(0 ≤ mask ∧ mask ≤ familyWidth addr) →
        (ofMask addr mask).valid = false ∧ ∀ x, (ofMask addr mask).Match x = false) :=
  ⟨fun h ↦ ⟨(ofMask_of_le (familyWidth_eq addr ▸ h)).1, fun _ hx ↦ Match_ofMask_iff_family h hx,
      ToString_ofMask h⟩,
    fun h ↦ ofMask_of_not_le (familyWidth_eq addr ▸ h)⟩

/-- `::ffff:192.168.1.7`. -/
def lanAddr : CNetAddr := ⟨pchIPv4 ++ [192, 168, 1, 7], rfl⟩

theorem ofMask_cidr_on_lan :
    (0 ≤ (24 : ℤ) ∧ (24 : ℤ) ≤ familyWidth lanAddr) ∧ (ofMask lanAddr 24).valid = true ∧
      ¬(0 ≤ (33 : ℤ) ∧ (33 : ℤ) ≤ familyWidth lanAddr) ∧ (ofMask lanAddr 33).valid = false :=
  have h24 : 0 ≤ (24 : ℤ) ∧ (24 : ℤ) ≤ familyWidth lanAddr := by decide
  have h33 : ¬(0 ≤ (33 : ℤ) ∧ (33 : ℤ) ≤ familyWidth lanAddr) := by decide
  ⟨h24, ((ofMask_cidr lanAddr 24).1 h24).1, h33,
    ((ofMask_cidr lanAddr 33).2 h33).1⟩

end CSubNet

end LightningCash
