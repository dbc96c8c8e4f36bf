import LightningCash.Primitives.Transaction

/-!
# Scripts: `GetOp`, `CScriptNum` and the script templates

`script.h` and `script.cpp`: reading a script one operation at a time, the numbers the stack
machine computes with, building a push, `FindAndDelete`, and the templates `VerifyScript`
recognizes (pay-to-script-hash, witness programs, push-only scripts).

A script is a byte list and a position in it is the suffix that remains, so that `GetOp` returns
the operation, its push data and the script after it. Script numbers are integers: the source's
`int64_t` never overflows on operands of at most five bytes.
-/

namespace LightningCash

/-- `valtype`: one element of the stack. -/
abbrev valtype := List UInt8

/-! ## Limits and opcodes -/

/-- `MAX_SCRIPT_ELEMENT_SIZE`. -/
def MAX_SCRIPT_ELEMENT_SIZE : ℕ := 520

/-- `MAX_OPS_PER_SCRIPT`. -/
def MAX_OPS_PER_SCRIPT : ℕ := 201

/-- `MAX_PUBKEYS_PER_MULTISIG`. -/
def MAX_PUBKEYS_PER_MULTISIG : ℤ := 20

/-- `MAX_SCRIPT_SIZE`. -/
def MAX_SCRIPT_SIZE : ℕ := 10000

/-- `MAX_STACK_SIZE`. -/
def MAX_STACK_SIZE : ℕ := 1000

/-- `OP_0`. -/
def OP_0 : UInt8 := 0x00

/-- `OP_PUSHDATA1`. -/
def OP_PUSHDATA1 : UInt8 := 0x4c

/-- `OP_PUSHDATA2`. -/
def OP_PUSHDATA2 : UInt8 := 0x4d

/-- `OP_PUSHDATA4`. -/
def OP_PUSHDATA4 : UInt8 := 0x4e

/-- `OP_1NEGATE`. -/
def OP_1NEGATE : UInt8 := 0x4f

/-- `OP_1`. -/
def OP_1 : UInt8 := 0x51

/-- `OP_16`. -/
def OP_16 : UInt8 := 0x60

/-- `OP_IF`. -/
def OP_IF : UInt8 := 0x63

/-- `OP_ENDIF`. -/
def OP_ENDIF : UInt8 := 0x68

/-- `OP_DUP`. -/
def OP_DUP : UInt8 := 0x76

/-- `OP_EQUAL`. -/
def OP_EQUAL : UInt8 := 0x87

/-- `OP_EQUALVERIFY`. -/
def OP_EQUALVERIFY : UInt8 := 0x88

/-- `OP_HASH160`. -/
def OP_HASH160 : UInt8 := 0xa9

/-- `OP_CHECKSIG`. -/
def OP_CHECKSIG : UInt8 := 0xac

/-! ## `GetOp` -/

/-- `ReadLE16`: two bytes as a little-endian number. -/
def ReadLE16 (ptr : List UInt8) : ℕ := (ptr.getD 0 0).toNat + 256 * (ptr.getD 1 0).toNat

/-- The size of a push and the script after its size bytes: `none` where they run past the
end. -/
def pushSize (opcode : UInt8) (pc : List UInt8) : Option (ℕ × List UInt8) :=
  if opcode < OP_PUSHDATA1 then some (opcode.toNat, pc)
  else if opcode = OP_PUSHDATA1 then
    match pc with
    | [] => none
    | b :: pc => some (b.toNat, pc)
  else if opcode = OP_PUSHDATA2 then
    if pc.length < 2 then none else some (ReadLE16 pc, pc.drop 2)
  else if pc.length < 4 then none else some ((ReadLE32 pc).toNat, pc.drop 4)

/-- `CScript::GetOp2(pc, opcodeRet, pvchRet)`: the operation at `pc`, its push data and the
script after it, or `none` where the source returns `false`. -/
def GetOp : List UInt8 → Option (UInt8 × valtype × List UInt8)
  | [] => none
  | opcode :: pc =>
    if opcode ≤ OP_PUSHDATA4 then
      match pushSize opcode pc with
      | none => none
      | some (nSize, pc) =>
        if pc.length < nSize then none else some (opcode, pc.take nSize, pc.drop nSize)
    else some (opcode, [], pc)

theorem length_le_of_pushSize {opcode : UInt8} {pc rest : List UInt8} {n : ℕ}
    (h : pushSize opcode pc = some (n, rest)) : rest.length ≤ pc.length := by
  unfold pushSize at h
  split_ifs at h
  · cases h; rfl
  · split at h
    · cases h
    · cases h; simp
  · cases h; simp
  · cases h; simp

/-- Every operation read consumes at least its opcode byte, so a loop over `GetOp` ends. -/
theorem length_lt_of_GetOp {pc rest : List UInt8} {opcode : UInt8} {vch : valtype}
    (h : GetOp pc = some (opcode, vch, rest)) : rest.length < pc.length := by
  match pc, h with
  | b :: pc, h =>
    simp only [GetOp] at h
    split_ifs at h with hpush
    · split at h
      · cases h
      · rename_i nSize pc' hsize
        have hle := length_le_of_pushSize hsize
        split_ifs at h
        cases h
        simp only [List.length_drop, List.length_cons]
        omega
    · cases h
      simp

/-- `CScript::IsPushOnly()`: every operation is a push or a small number. -/
def IsPushOnly (pc : List UInt8) : Bool :=
  match h : GetOp pc with
  | none => pc.isEmpty
  | some (opcode, _, rest) => opcode ≤ OP_16 && IsPushOnly rest
termination_by pc.length
decreasing_by exact length_lt_of_GetOp h

/-! ## `CScriptNum` -/

/-- `CScriptNum::set_vch`: little-endian magnitude, the top bit of the last byte the sign. -/
def set_vch (vch : valtype) : ℤ :=
  match vch.getLast? with
  | none => 0
  | some last =>
    if last &&& 0x80 = 0 then Nat.ofDigits 256 (vch.map UInt8.toNat)
    else -(Nat.ofDigits 256 ((vch.dropLast ++ [last &&& 0x7f]).map UInt8.toNat) : ℤ)

/-- `CScriptNum(vch, fRequireMinimal, nMaxNumSize)`: a `scriptnum_error` is `none`. -/
def CScriptNum (vch : valtype) (fRequireMinimal : Bool) (nMaxNumSize : ℕ) : Option ℤ :=
  if vch.length > nMaxNumSize then none
  else if fRequireMinimal ∧ vch.length > 0 ∧ vch.getLastD 0 &&& 0x7f = 0 ∧
      (vch.length ≤ 1 ∨ vch.getD (vch.length - 2) 0 &&& 0x80 = 0) then none
  else some (set_vch vch)

/-- `CScriptNum::nDefaultMaxNumSize`. -/
def nDefaultMaxNumSize : ℕ := 4

/-- A number that parses with minimal encoding required parses the same without. -/
theorem CScriptNum_of_minimal {vch : valtype} {fRequireMinimal : Bool} {n : ℕ} {x : ℤ}
    (h : CScriptNum vch fRequireMinimal n = some x) : CScriptNum vch false n = some x := by
  unfold CScriptNum at h ⊢
  split_ifs at h with h1 h2
  simp only [Bool.false_eq_true, false_and, if_false, if_neg h1]
  exact h

/-- `CScriptNum::getint()`: clamped to `int`. -/
def getint (x : ℤ) : ℤ := max (-2 ^ 31) (min (2 ^ 31 - 1) x)

/-- `CScriptNum::serialize`: the shortest encoding, little-endian with a sign bit. -/
def serialize (value : ℤ) : valtype :=
  if value = 0 then [] else
  let neg := value < 0
  let result := (Nat.digits 256 value.natAbs).map Nat.toUInt8
  match result.getLast? with
  | none => result
  | some last =>
    if last &&& 0x80 ≠ 0 then result ++ [if neg then 0x80 else 0]
    else if neg then result.dropLast ++ [last ||| 0x80]
    else result

/-- `CheckMinimalPush(data, opcode)`: a push uses the shortest form for its data. -/
def CheckMinimalPush (data : valtype) (opcode : UInt8) : Bool :=
  if data.length = 0 then opcode == OP_0
  else if data.length = 1 ∧ 1 ≤ data.getD 0 0 ∧ data.getD 0 0 ≤ 16 then
    opcode == OP_1 + (data.getD 0 0 - 1)
  else if data.length = 1 ∧ data.getD 0 0 = 0x81 then opcode == OP_1NEGATE
  else if data.length ≤ 75 then opcode.toNat == data.length
  else if data.length ≤ 255 then opcode == OP_PUSHDATA1
  else if data.length ≤ 65535 then opcode == OP_PUSHDATA2
  else true

/-- `CastToBool(vch)`: some byte nonzero, the sign bit of the last byte aside. -/
def CastToBool (vch : valtype) : Bool :=
  match vch.getLast? with
  | none => false
  | some last => vch.dropLast.any (· != 0) || (last != 0 && last != 0x80)

/-! ## Building scripts -/

/-- `CScript << vector`: the shortest push opcode for the size, then the data. -/
def pushData (b : valtype) : List UInt8 :=
  let n := b.length
  if n < OP_PUSHDATA1.toNat then n.toUInt8 :: b
  else if n ≤ 0xff then OP_PUSHDATA1 :: n.toUInt8 :: b
  else if n ≤ 0xffff then OP_PUSHDATA2 :: n.toUInt8 :: (n / 256).toUInt8 :: b
  else OP_PUSHDATA4 :: n.toUInt8 :: (n / 256).toUInt8 :: (n / 65536).toUInt8 ::
    (n / 16777216).toUInt8 :: b

/-- The runs of `b` at `pc` that `FindAndDelete` skips, and how many. -/
def skipRuns (b : List UInt8) (pc : List UInt8) : List UInt8 × ℕ :=
  if hb : b ≠ [] ∧ b <+: pc then
    let r := skipRuns b (pc.drop b.length)
    (r.1, r.2 + 1)
  else (pc, 0)
termination_by pc.length
decreasing_by
  have : 0 < b.length := List.length_pos_of_ne_nil hb.1
  have : b.length ≤ pc.length := hb.2.length_le
  simp only [List.length_drop]
  omega

theorem length_skipRuns_le (b pc : List UInt8) : (skipRuns b pc).1.length ≤ pc.length := by
  unfold skipRuns
  split_ifs with hb
  · have ih := length_skipRuns_le b (pc.drop b.length)
    rw [List.length_drop] at ih
    dsimp only
    omega
  · exact le_rfl
termination_by pc.length
decreasing_by
  have : 0 < b.length := List.length_pos_of_ne_nil hb.1
  have : b.length ≤ pc.length := hb.2.length_le
  simp only [List.length_drop]
  omega

/-- The loop of `FindAndDelete` from `pc`: the bytes kept and the number of runs removed. At
each operation boundary the runs of `b` are dropped, then the operation is kept whole. -/
def findAndDeleteFrom (b : List UInt8) (pc : List UInt8) : List UInt8 × ℕ :=
  let skipped := skipRuns b pc
  match h : GetOp skipped.1 with
  | none => skipped
  | some (_, _, rest) =>
    let (out, n) := findAndDeleteFrom b rest
    (skipped.1.take (skipped.1.length - rest.length) ++ out, skipped.2 + n)
termination_by pc.length
decreasing_by exact lt_of_lt_of_le (length_lt_of_GetOp h) (length_skipRuns_le b pc)

/-- `CScript::FindAndDelete(b)`: the script without the runs of `b` found at operation
boundaries; unchanged when there are none or `b` is empty. -/
def FindAndDelete (script b : List UInt8) : List UInt8 :=
  if b = [] then script
  else
    let (result, nFound) := findAndDeleteFrom b script
    if nFound > 0 then result else script

/-! ## Templates -/

/-- `CScript::IsPayToScriptHash()`: `OP_HASH160 <20 bytes> OP_EQUAL`. -/
def IsPayToScriptHash (script : List UInt8) : Bool :=
  script.length == 23 && script.getD 0 0 == OP_HASH160 && script.getD 1 0 == 0x14 &&
    script.getD 22 0 == OP_EQUAL

/-- `CScript::IsWitnessProgram(version, program)`: a version opcode and one push of 2 to 40
bytes filling the script. -/
def IsWitnessProgram (script : List UInt8) : Option (ℤ × valtype) :=
  if script.length < 4 ∨ script.length > 42 then none
  else
    let op := script.getD 0 0
    if op ≠ OP_0 ∧ (op < OP_1 ∨ op > OP_16) then none
    else if (script.getD 1 0).toNat + 2 = script.length then
      -- `DecodeOP_N`
      some (if op = OP_0 then 0 else (op.toNat : ℤ) - (OP_1.toNat - 1), script.drop 2)
    else none

end LightningCash
