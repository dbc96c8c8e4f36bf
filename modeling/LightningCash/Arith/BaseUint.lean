import Mathlib

/-!
# `base_uint`: fixed-width unsigned integers as 32-bit limbs

`arith_uint256` is `base_uint<256>`: eight little-endian `uint32_t` limbs `pn`, and every
operation is a loop over the limbs. The model keeps the limbs and the loops. Each loop is a
structural recursion over the limb list, with the 64-bit intermediates of the source as
`UInt64`, so that a reader can set it beside `arith_uint256.h` and `arith_uint256.cpp`.

The loops of `operator<<=` and `operator>>=` write into a zeroed copy at two positions per
source limb; they are kept as folds of their loop bodies over `List.range WIDTH`. `operator/=`
is the source's shift-and-subtract long division, with its `uint_error` as an `Except`.

What a value means is `toNat`, the base-`2³²` number its limbs denote; the specification of
each operation in those terms is proved in `LightningCash.Arith.Spec`.
-/

namespace LightningCash

/-- `base_uint<BITS>` with `WIDTH = BITS / 32` limbs, least significant first. -/
structure BaseUint (WIDTH : ℕ) where
  /-- The limbs `pn[0], …, pn[WIDTH - 1]`. -/
  pn : List UInt32
  length_pn : pn.length = WIDTH
  deriving DecidableEq

/-- `arith_uint256`, the only instance of `base_uint` the program uses. -/
abbrev ArithUint256 := BaseUint 8

namespace BaseUint

variable {WIDTH : ℕ}

/-- The number the limbs denote. -/
def toNat (a : BaseUint WIDTH) : ℕ := Nat.ofDigits (2 ^ 32) (a.pn.map UInt32.toNat)

/-! ## Carry loops -/

/-- The loop of `operator+=`: `n = carry + pn[i] + b.pn[i]` in 64 bits; the low word is the
limb, the high word the next carry. -/
def addCarry : UInt64 → List UInt32 → List UInt32 → List UInt32
  | carry, x :: xs, y :: ys =>
    let n := carry + x.toUInt64 + y.toUInt64
    n.toUInt32 :: addCarry (n >>> 32) xs ys
  | _, _, _ => []

/-- The loop of `operator*=(uint32_t)`: `n = carry + b32 * pn[i]` in 64 bits. -/
def mulWordCarry (b32 : UInt32) : UInt64 → List UInt32 → List UInt32
  | carry, x :: xs =>
    let n := carry + b32.toUInt64 * x.toUInt64
    n.toUInt32 :: mulWordCarry b32 (n >>> 32) xs
  | _, [] => []

/-- The loop of `operator++`: increment limbs while the incremented limb wraps to zero. -/
def incLoop : List UInt32 → List UInt32
  | [] => []
  | x :: xs => (x + 1) :: if x + 1 = 0 then incLoop xs else xs

/-- The loop of `CompareTo`, over the limbs from the most significant down. -/
def compareFromTop : List UInt32 → List UInt32 → ℤ
  | x :: xs, y :: ys => if x < y then -1 else if x > y then 1 else compareFromTop xs ys
  | _, _ => 0

/-- The inner loop of `bits()` on a nonzero limb: test bit `nbits` for `nbits = 31, …, 1` and
return `nbits + 1` at the first that is set; bit `0` is never tested, the fall-through `1`
covers it. -/
def limbBits (x : UInt32) : ℕ → ℕ
  | 0 => 1
  | nbits + 1 =>
    if x &&& ((1 : UInt32) <<< (nbits + 1).toUInt32) ≠ 0 then nbits + 2 else limbBits x nbits

/-- The outer loop of `bits()` over the limbs from the most significant down; the head of the
list sits at position `xs.length`. -/
def bitsFromTop : List UInt32 → ℕ
  | [] => 0
  | x :: xs => if x ≠ 0 then 32 * xs.length + limbBits x 31 else bitsFromTop xs

@[simp] theorem length_addCarry (c : UInt64) :
    ∀ xs ys : List UInt32, (addCarry c xs ys).length = min xs.length ys.length := by
  intro xs
  induction xs generalizing c with
  | nil => intro ys; simp [addCarry]
  | cons x xs ih =>
    intro ys
    cases ys with
    | nil => simp [addCarry]
    | cons y ys => simp [addCarry, ih, Nat.succ_min_succ]

@[simp] theorem length_mulWordCarry (b32 : UInt32) :
    ∀ (c : UInt64) (xs : List UInt32), (mulWordCarry b32 c xs).length = xs.length := by
  intro c xs
  induction xs generalizing c with
  | nil => rfl
  | cons x xs ih => simp [mulWordCarry, ih]

/-- The loop of `operator--`: decrement limbs while the decremented limb wraps to
`(uint32_t)-1`. -/
def decLoop : List UInt32 → List UInt32
  | [] => []
  | x :: xs => (x - 1) :: if x - 1 = 0xffffffff then decLoop xs else xs

/-- The inner loop of `operator*=(const base_uint &b)` for one row `j`, over the limbs
`pn[j], pn[j + 1], …` of the product being built: `n = carry + pn[i + j] + a.pn[j] * b.pn[i]`.
`ys` holds `b.pn[i], b.pn[i + 1], …`; the loop stops at the top limb, so the row is cut to
the width. -/
def mulRowCarry (aj : UInt32) : UInt64 → List UInt32 → List UInt32 → List UInt32
  | carry, p :: ps, ys =>
    let n := carry + p.toUInt64 + aj.toUInt64 * (ys.headD 0).toUInt64
    n.toUInt32 :: mulRowCarry aj (n >>> 32) ps ys.tail
  | _, [], _ => []

/-- The outer loop of `operator*=(const base_uint &b)` over the limbs `a.pn[j]` of the old
value: row `j` rewrites `pn[j], …` and leaves `pn[j]` final, so the rows walk the limbs that
remain above it. -/
def mulRows (ys : List UInt32) : List UInt32 → List UInt32 → List UInt32
  | aj :: as, pn =>
    match mulRowCarry aj 0 pn ys with
    | [] => []
    | p :: ps => p :: mulRows ys as ps
  | [], pn => pn

@[simp] theorem length_incLoop : ∀ xs : List UInt32, (incLoop xs).length = xs.length := by
  intro xs
  induction xs with
  | nil => rfl
  | cons x xs ih => by_cases h : x + 1 = 0 <;> simp [incLoop, h, ih]

@[simp] theorem length_decLoop : ∀ xs : List UInt32, (decLoop xs).length = xs.length := by
  intro xs
  induction xs with
  | nil => rfl
  | cons x xs ih => by_cases h : x - 1 = 0xffffffff <;> simp [decLoop, h, ih]

@[simp] theorem length_mulRowCarry (aj : UInt32) :
    ∀ (c : UInt64) (ps ys : List UInt32), (mulRowCarry aj c ps ys).length = ps.length := by
  intro c ps
  induction ps generalizing c with
  | nil => intro ys; rfl
  | cons p ps ih => intro ys; simp [mulRowCarry, ih]

theorem length_mulRows (ys : List UInt32) :
    ∀ (as pn : List UInt32), (mulRows ys as pn).length = pn.length := by
  intro as
  induction as with
  | nil => intro pn; rfl
  | cons aj as ih =>
    intro pn
    have hrow := length_mulRowCarry aj 0 pn ys
    unfold mulRows
    split
    · rename_i h
      rw [h] at hrow
      exact hrow
    · rename_i p ps h
      rw [h, List.length_cons] at hrow
      rw [List.length_cons, ih, hrow]

/-! ## Construction, complement, addition and multiplication by a word -/

/-- `base_uint()`: every limb zero. -/
def zero : BaseUint WIDTH := ⟨List.replicate WIDTH 0, List.length_replicate⟩

/-- `base_uint(uint64_t b)` and `operator=(uint64_t)`: the low two limbs from `b`, the rest
zero. The source writes `pn[1]`, so it needs `WIDTH ≥ 2`. -/
def ofUInt64 {W : ℕ} (b : UInt64) : BaseUint (W + 2) :=
  ⟨b.toUInt32 :: (b >>> 32).toUInt32 :: List.replicate W 0, by simp⟩

/-- `operator~`: every limb complemented. -/
def complement (a : BaseUint WIDTH) : BaseUint WIDTH :=
  ⟨a.pn.map (~~~ ·), by simp [a.length_pn]⟩

/-- `operator++`. -/
def increment (a : BaseUint WIDTH) : BaseUint WIDTH :=
  ⟨incLoop a.pn, by simp [a.length_pn]⟩

/-- `operator-()`: the complement, incremented. -/
def negate (a : BaseUint WIDTH) : BaseUint WIDTH := a.complement.increment

/-- `operator+=`. -/
def add (a b : BaseUint WIDTH) : BaseUint WIDTH :=
  ⟨addCarry 0 a.pn b.pn, by simp [a.length_pn, b.length_pn]⟩

/-- `operator-=`: `*this += -b`. -/
def sub (a b : BaseUint WIDTH) : BaseUint WIDTH := a.add b.negate

/-- `operator*=(uint32_t)`. -/
def mulWord (a : BaseUint WIDTH) (b32 : UInt32) : BaseUint WIDTH :=
  ⟨mulWordCarry b32 0 a.pn, by simp [a.length_pn]⟩

/-- `operator*=(const base_uint &b)`: the rows of the schoolbook product, each cut to the
width, accumulated into a zeroed value. -/
def mul (a b : BaseUint WIDTH) : BaseUint WIDTH :=
  ⟨mulRows b.pn a.pn (List.replicate WIDTH 0), by rw [length_mulRows, List.length_replicate]⟩

/-- `operator--`. -/
def decrement (a : BaseUint WIDTH) : BaseUint WIDTH :=
  ⟨decLoop a.pn, by simp [a.length_pn]⟩

instance : Add (BaseUint WIDTH) := ⟨add⟩
instance : Sub (BaseUint WIDTH) := ⟨sub⟩
instance : Mul (BaseUint WIDTH) := ⟨mul⟩
instance : HMul (BaseUint WIDTH) UInt32 (BaseUint WIDTH) := ⟨mulWord⟩

/-! ## Comparison and bit length -/

/-- `CompareTo`: `-1`, `0` or `1`. -/
def CompareTo (a b : BaseUint WIDTH) : ℤ := compareFromTop a.pn.reverse b.pn.reverse

/-- `operator<`. -/
instance : LT (BaseUint WIDTH) := ⟨fun a b ↦ a.CompareTo b < 0⟩

/-- `operator<=`. -/
instance : LE (BaseUint WIDTH) := ⟨fun a b ↦ a.CompareTo b ≤ 0⟩

instance (a b : BaseUint WIDTH) : Decidable (a < b) :=
  inferInstanceAs (Decidable (a.CompareTo b < 0))

instance (a b : BaseUint WIDTH) : Decidable (a ≤ b) :=
  inferInstanceAs (Decidable (a.CompareTo b ≤ 0))

/-- `bits()`: the position of the highest set bit plus one, `0` for zero. -/
def bits (a : BaseUint WIDTH) : ℕ := bitsFromTop a.pn.reverse

/-- `GetLow64()`: `pn[0] | (uint64_t)pn[1] << 32`. -/
def GetLow64 (a : BaseUint WIDTH) : UInt64 :=
  (a.pn.getD 0 0).toUInt64 ||| (a.pn.getD 1 0).toUInt64 <<< 32

/-! ## Shifts -/

/-- The body of `operator<<=`'s loop at limb `i`, with `k = shift / 32` and `s = shift % 32`;
`a` is the copy of the old limbs and `pn` the limbs being built. -/
def shlBody (a : List UInt32) (k s : ℕ) (pn : List UInt32) (i : ℕ) : List UInt32 :=
  let pn :=
    if i + k + 1 < pn.length ∧ s ≠ 0 then
      pn.modify (i + k + 1) (· ||| a.getD i 0 >>> (32 - s).toUInt32)
    else pn
  if i + k < pn.length then pn.modify (i + k) (· ||| a.getD i 0 <<< s.toUInt32) else pn

/-- The body of `operator>>=`'s loop at limb `i`. -/
def shrBody (a : List UInt32) (k s : ℕ) (pn : List UInt32) (i : ℕ) : List UInt32 :=
  let pn :=
    if k + 1 ≤ i ∧ s ≠ 0 then pn.modify (i - k - 1) (· ||| a.getD i 0 <<< (32 - s).toUInt32)
    else pn
  if k ≤ i then pn.modify (i - k) (· ||| a.getD i 0 >>> s.toUInt32) else pn

@[simp] theorem length_shlBody (a : List UInt32) (k s : ℕ) (pn : List UInt32) (i : ℕ) :
    (shlBody a k s pn i).length = pn.length := by
  unfold shlBody
  dsimp only
  split <;> split <;> simp

@[simp] theorem length_shrBody (a : List UInt32) (k s : ℕ) (pn : List UInt32) (i : ℕ) :
    (shrBody a k s pn i).length = pn.length := by
  unfold shrBody
  dsimp only
  split <;> split <;> simp

theorem length_foldl_of_length {f : List UInt32 → ℕ → List UInt32}
    (hf : ∀ pn i, (f pn i).length = pn.length) :
    ∀ (is : List ℕ) (pn : List UInt32), (is.foldl f pn).length = pn.length := by
  intro is
  induction is with
  | nil => intro pn; rfl
  | cons i is ih => intro pn; rw [List.foldl_cons, ih, hf]

/-- `operator<<=(unsigned int shift)`. -/
def shiftLeft (a : BaseUint WIDTH) (shift : ℕ) : BaseUint WIDTH :=
  ⟨(List.range WIDTH).foldl (shlBody a.pn (shift / 32) (shift % 32)) (List.replicate WIDTH 0),
    by rw [length_foldl_of_length (length_shlBody _ _ _), List.length_replicate]⟩

/-- `operator>>=(unsigned int shift)`. -/
def shiftRight (a : BaseUint WIDTH) (shift : ℕ) : BaseUint WIDTH :=
  ⟨(List.range WIDTH).foldl (shrBody a.pn (shift / 32) (shift % 32)) (List.replicate WIDTH 0),
    by rw [length_foldl_of_length (length_shrBody _ _ _), List.length_replicate]⟩

instance : HShiftLeft (BaseUint WIDTH) ℕ (BaseUint WIDTH) := ⟨shiftLeft⟩
instance : HShiftRight (BaseUint WIDTH) ℕ (BaseUint WIDTH) := ⟨shiftRight⟩

/-! ## Long division -/

/-- `pn[shift / 32] |= (1 << (shift & 31))`: set one bit of the quotient. -/
def setBit (a : BaseUint WIDTH) (shift : ℕ) : BaseUint WIDTH :=
  ⟨a.pn.modify (shift / 32) (· ||| (1 : UInt32) <<< (shift % 32).toUInt32), by
    simp [a.length_pn]⟩

/-- One pass of the `while (shift >= 0)` loop of `operator/=` before the divisor moves:
`if (num >= div) { num -= div; pn[shift / 32] |= (1 << (shift & 31)); }`. -/
def divStep (shift : ℕ) (num div quot : BaseUint WIDTH) : BaseUint WIDTH × BaseUint WIDTH :=
  if num.CompareTo div ≥ 0 then (num - div, quot.setBit shift) else (num, quot)

/-- The loop of `operator/=`, run from `shift` down to `0`; `div >>= 1` after each pass. -/
def divLoop : ℕ → BaseUint WIDTH → BaseUint WIDTH → BaseUint WIDTH → BaseUint WIDTH
  | shift, num, div, quot =>
    let p := divStep shift num div quot
    match shift with
    | 0 => p.2
    | shift + 1 => divLoop shift p.1 (div >>> 1) p.2

/-- `operator/=`: throws `uint_error("Division by zero")` on a zero divisor. -/
def divide (a b : BaseUint WIDTH) : Except String (BaseUint WIDTH) :=
  let num_bits := a.bits
  let div_bits := b.bits
  if div_bits = 0 then .error "Division by zero"
  else if div_bits > num_bits then .ok zero
  else
    let shift := num_bits - div_bits
    .ok (divLoop shift a (b <<< shift) zero)

end BaseUint

end LightningCash
