import LightningCash.Lib.Except
import LightningCash.Script.Script

/-!
# The script interpreter: `EvalScript`, `VerifyWitnessProgram` and `VerifyScript`

`interpreter.cpp`. `EvalScript` runs a script on a stack: it reads one operation at a time with
`GetOp`, checks the limits, and executes the operation when the enclosing branches are taken
(`vfExec`), the conditionals themselves always. `VerifyScript` runs the signature script and the
locking script, then, as the flags ask, the witness program and the pay-to-script-hash redeem
script, and the final clean-stack and witness checks.

The stack is a list with its top first (`stacktop(-1)` is the head). The verification flags are
the source's `unsigned int` bit set. The hash functions and `CPubKey::CheckLowS` are given as
`ScriptPrimitives`, the signature checker as `BaseSignatureChecker`; a `scriptnum_error`, which
`EvalScript` catches, is `SCRIPT_ERR_UNKNOWN_ERROR`. `VerifyScript`'s `assert`s are failures of
their own kind.

The `switch` over opcodes is split as the source groups its cases: `opcodeCase` names the case
an opcode falls in, and each group is one function.
-/

namespace LightningCash

/-! ## Flags, errors and what the interpreter is given -/

/-- `SCRIPT_VERIFY_P2SH`. -/
def SCRIPT_VERIFY_P2SH : UInt32 := (1 : UInt32) <<< 0
/-- `SCRIPT_VERIFY_STRICTENC`. -/
def SCRIPT_VERIFY_STRICTENC : UInt32 := (1 : UInt32) <<< 1
/-- `SCRIPT_VERIFY_DERSIG`. -/
def SCRIPT_VERIFY_DERSIG : UInt32 := (1 : UInt32) <<< 2
/-- `SCRIPT_VERIFY_LOW_S`. -/
def SCRIPT_VERIFY_LOW_S : UInt32 := (1 : UInt32) <<< 3
/-- `SCRIPT_VERIFY_NULLDUMMY`. -/
def SCRIPT_VERIFY_NULLDUMMY : UInt32 := (1 : UInt32) <<< 4
/-- `SCRIPT_VERIFY_SIGPUSHONLY`. -/
def SCRIPT_VERIFY_SIGPUSHONLY : UInt32 := (1 : UInt32) <<< 5
/-- `SCRIPT_VERIFY_MINIMALDATA`. -/
def SCRIPT_VERIFY_MINIMALDATA : UInt32 := (1 : UInt32) <<< 6
/-- `SCRIPT_VERIFY_DISCOURAGE_UPGRADABLE_NOPS`. -/
def SCRIPT_VERIFY_DISCOURAGE_UPGRADABLE_NOPS : UInt32 := (1 : UInt32) <<< 7
/-- `SCRIPT_VERIFY_CLEANSTACK`. -/
def SCRIPT_VERIFY_CLEANSTACK : UInt32 := (1 : UInt32) <<< 8
/-- `SCRIPT_VERIFY_CHECKLOCKTIMEVERIFY`. -/
def SCRIPT_VERIFY_CHECKLOCKTIMEVERIFY : UInt32 := (1 : UInt32) <<< 9
/-- `SCRIPT_VERIFY_CHECKSEQUENCEVERIFY`. -/
def SCRIPT_VERIFY_CHECKSEQUENCEVERIFY : UInt32 := (1 : UInt32) <<< 10
/-- `SCRIPT_VERIFY_WITNESS`. -/
def SCRIPT_VERIFY_WITNESS : UInt32 := (1 : UInt32) <<< 11
/-- `SCRIPT_VERIFY_DISCOURAGE_UPGRADABLE_WITNESS_PROGRAM`. -/
def SCRIPT_VERIFY_DISCOURAGE_UPGRADABLE_WITNESS_PROGRAM : UInt32 := (1 : UInt32) <<< 12
/-- `SCRIPT_VERIFY_MINIMALIF`. -/
def SCRIPT_VERIFY_MINIMALIF : UInt32 := (1 : UInt32) <<< 13
/-- `SCRIPT_VERIFY_NULLFAIL`. -/
def SCRIPT_VERIFY_NULLFAIL : UInt32 := (1 : UInt32) <<< 14
/-- `SCRIPT_VERIFY_WITNESS_PUBKEYTYPE`. -/
def SCRIPT_VERIFY_WITNESS_PUBKEYTYPE : UInt32 := (1 : UInt32) <<< 15

/-- `(flags & mask) != 0`. -/
def hasFlag (flags mask : UInt32) : Bool := flags &&& mask != 0

/-- `ScriptError`, without `SCRIPT_ERR_OK` and the count. -/
inductive ScriptError where
  | SCRIPT_ERR_UNKNOWN_ERROR
  | SCRIPT_ERR_EVAL_FALSE
  | SCRIPT_ERR_OP_RETURN
  | SCRIPT_ERR_SCRIPT_SIZE
  | SCRIPT_ERR_PUSH_SIZE
  | SCRIPT_ERR_OP_COUNT
  | SCRIPT_ERR_STACK_SIZE
  | SCRIPT_ERR_SIG_COUNT
  | SCRIPT_ERR_PUBKEY_COUNT
  | SCRIPT_ERR_VERIFY
  | SCRIPT_ERR_EQUALVERIFY
  | SCRIPT_ERR_CHECKMULTISIGVERIFY
  | SCRIPT_ERR_CHECKSIGVERIFY
  | SCRIPT_ERR_NUMEQUALVERIFY
  | SCRIPT_ERR_BAD_OPCODE
  | SCRIPT_ERR_DISABLED_OPCODE
  | SCRIPT_ERR_INVALID_STACK_OPERATION
  | SCRIPT_ERR_INVALID_ALTSTACK_OPERATION
  | SCRIPT_ERR_UNBALANCED_CONDITIONAL
  | SCRIPT_ERR_NEGATIVE_LOCKTIME
  | SCRIPT_ERR_UNSATISFIED_LOCKTIME
  | SCRIPT_ERR_SIG_HASHTYPE
  | SCRIPT_ERR_SIG_DER
  | SCRIPT_ERR_MINIMALDATA
  | SCRIPT_ERR_SIG_PUSHONLY
  | SCRIPT_ERR_SIG_HIGH_S
  | SCRIPT_ERR_SIG_NULLDUMMY
  | SCRIPT_ERR_PUBKEYTYPE
  | SCRIPT_ERR_CLEANSTACK
  | SCRIPT_ERR_MINIMALIF
  | SCRIPT_ERR_SIG_NULLFAIL
  | SCRIPT_ERR_DISCOURAGE_UPGRADABLE_NOPS
  | SCRIPT_ERR_DISCOURAGE_UPGRADABLE_WITNESS_PROGRAM
  | SCRIPT_ERR_WITNESS_PROGRAM_WRONG_LENGTH
  | SCRIPT_ERR_WITNESS_PROGRAM_WITNESS_EMPTY
  | SCRIPT_ERR_WITNESS_PROGRAM_MISMATCH
  | SCRIPT_ERR_WITNESS_MALLEATED
  | SCRIPT_ERR_WITNESS_MALLEATED_P2SH
  | SCRIPT_ERR_WITNESS_UNEXPECTED
  | SCRIPT_ERR_WITNESS_PUBKEYTYPE
  deriving DecidableEq

open ScriptError

/-- `SigVersion`. -/
inductive SigVersion where
  | SIGVERSION_BASE
  | SIGVERSION_WITNESS_V0
  deriving DecidableEq

open SigVersion

/-- The hash functions and the low-`s` test of `CPubKey` that the interpreter calls. -/
structure ScriptPrimitives where
  RIPEMD160 : valtype → valtype
  SHA1 : valtype → valtype
  SHA256 : valtype → valtype
  CheckLowS : valtype → Bool

/-- `BaseSignatureChecker`: the signature, lock-time and sequence checks of the spending
transaction. -/
structure BaseSignatureChecker where
  CheckSig : valtype → valtype → List UInt8 → SigVersion → Bool
  CheckLockTime : ℤ → Bool
  CheckSequence : ℤ → Bool

/-- What one run of `EvalScript` is given besides the stack and the script. -/
structure ScriptContext where
  prims : ScriptPrimitives
  checker : BaseSignatureChecker
  flags : UInt32
  sigversion : SigVersion

/-- `vchTrue`. -/
def vchTrue : valtype := [1]

/-- `vchFalse`. -/
def vchFalse : valtype := []

/-- A truth value as the interpreter pushes it. -/
def boolVch (b : Bool) : valtype := if b then vchTrue else vchFalse

/-! ## Signature and key encodings -/

/-- `IsCompressedOrUncompressedPubKey`. -/
def IsCompressedOrUncompressedPubKey (vchPubKey : valtype) : Bool :=
  if vchPubKey.length < 33 then false
  else if vchPubKey.getD 0 0 = 0x04 then vchPubKey.length = 65
  else if vchPubKey.getD 0 0 = 0x02 ∨ vchPubKey.getD 0 0 = 0x03 then vchPubKey.length = 33
  else false

/-- `IsCompressedPubKey`. -/
def IsCompressedPubKey (vchPubKey : valtype) : Bool :=
  vchPubKey.length = 33 && (vchPubKey.getD 0 0 == 0x02 || vchPubKey.getD 0 0 == 0x03)

/-- `IsValidSignatureEncoding`: the strict DER layout with a trailing hash type byte. -/
def IsValidSignatureEncoding (sig : valtype) : Bool :=
  let byte (i : ℕ) : UInt8 := sig.getD i 0
  let n := sig.length
  if n < 9 ∨ n > 73 then false
  else if byte 0 ≠ 0x30 then false
  else if (byte 1).toNat ≠ n - 3 then false
  else
    let lenR := (byte 3).toNat
    if 5 + lenR ≥ n then false
    else
      let lenS := (byte (5 + lenR)).toNat
      if lenR + lenS + 7 ≠ n then false
      else if byte 2 ≠ 0x02 then false
      else if lenR = 0 then false
      else if byte 4 &&& 0x80 ≠ 0 then false
      else if lenR > 1 ∧ byte 4 = 0x00 ∧ byte 5 &&& 0x80 = 0 then false
      else if byte (lenR + 4) ≠ 0x02 then false
      else if lenS = 0 then false
      else if byte (lenR + 6) &&& 0x80 ≠ 0 then false
      else if lenS > 1 ∧ byte (lenR + 6) = 0x00 ∧ byte (lenR + 7) &&& 0x80 = 0 then false
      else true

/-- `IsLowDERSignature`. -/
def IsLowDERSignature (prims : ScriptPrimitives) (vchSig : valtype) : Except ScriptError Unit :=
  if !IsValidSignatureEncoding vchSig then .error SCRIPT_ERR_SIG_DER
  else if !prims.CheckLowS vchSig.dropLast then .error SCRIPT_ERR_SIG_HIGH_S
  else .ok ()

/-- `IsDefinedHashtypeSignature`: `SIGHASH_ALL`, `SIGHASH_NONE` or `SIGHASH_SINGLE`, with or
without `SIGHASH_ANYONECANPAY`. -/
def IsDefinedHashtypeSignature (vchSig : valtype) : Bool :=
  match vchSig.getLast? with
  | none => false
  | some last =>
    let nHashType := last &&& ~~~0x80
    1 ≤ nHashType ∧ nHashType ≤ 3

/-- `CheckSignatureEncoding(vchSig, flags, serror)`. -/
def CheckSignatureEncoding (prims : ScriptPrimitives) (vchSig : valtype) (flags : UInt32) :
    Except ScriptError Unit :=
  if vchSig.length = 0 then .ok ()
  else if hasFlag flags (SCRIPT_VERIFY_DERSIG ||| SCRIPT_VERIFY_LOW_S ||| SCRIPT_VERIFY_STRICTENC)
      && !IsValidSignatureEncoding vchSig then .error SCRIPT_ERR_SIG_DER
  else do
    if hasFlag flags SCRIPT_VERIFY_LOW_S then IsLowDERSignature prims vchSig
    if hasFlag flags SCRIPT_VERIFY_STRICTENC && !IsDefinedHashtypeSignature vchSig then
      throw SCRIPT_ERR_SIG_HASHTYPE

/-- `CheckPubKeyEncoding(vchPubKey, flags, sigversion, serror)`. -/
def CheckPubKeyEncoding (vchPubKey : valtype) (flags : UInt32) (sigversion : SigVersion) :
    Except ScriptError Unit :=
  if hasFlag flags SCRIPT_VERIFY_STRICTENC && !IsCompressedOrUncompressedPubKey vchPubKey then
    .error SCRIPT_ERR_PUBKEYTYPE
  else if hasFlag flags SCRIPT_VERIFY_WITNESS_PUBKEYTYPE && sigversion == SIGVERSION_WITNESS_V0 &&
      !IsCompressedPubKey vchPubKey then .error SCRIPT_ERR_WITNESS_PUBKEYTYPE
  else .ok ()

/-! ## The cases of the `switch` -/

/-- The operations that only rearrange or inspect the stack. -/
inductive StackOp where
  | OP_2DROP | OP_2DUP | OP_3DUP | OP_2OVER | OP_2ROT | OP_2SWAP | OP_IFDUP | OP_DEPTH
  | OP_DROP | OP_DUP | OP_NIP | OP_OVER | OP_ROT | OP_SWAP | OP_TUCK | OP_SIZE

/-- The one-operand numeric operations. -/
inductive UnaryOp where
  | OP_1ADD | OP_1SUB | OP_NEGATE | OP_ABS | OP_NOT | OP_0NOTEQUAL

/-- The two-operand numeric operations. -/
inductive BinaryOp where
  | OP_ADD | OP_SUB | OP_BOOLAND | OP_BOOLOR | OP_NUMEQUAL | OP_NUMEQUALVERIFY | OP_NUMNOTEQUAL
  | OP_LESSTHAN | OP_GREATERTHAN | OP_LESSTHANOREQUAL | OP_GREATERTHANOREQUAL | OP_MIN | OP_MAX

/-- The hash operations. -/
inductive HashOp where
  | OP_RIPEMD160 | OP_SHA1 | OP_SHA256 | OP_HASH160 | OP_HASH256

/-- The case of the `switch` an opcode falls in. -/
inductive OpCase where
  | smallInt (opcode : UInt8)
  | nop
  | checkLockTimeVerify
  | checkSequenceVerify
  | upgradableNop
  | conditional (notIf : Bool)
  | opElse
  | opEndIf
  | verify
  | opReturn
  | toAltStack
  | fromAltStack
  | stack (op : StackOp)
  | pickRoll (roll : Bool)
  | equal (verifyAfter : Bool)
  | unary (op : UnaryOp)
  | binary (op : BinaryOp)
  | within
  | hash (op : HashOp)
  | codeSeparator
  | checkSig (verifyAfter : Bool)
  | checkMultiSig (verifyAfter : Bool)
  | bad

/-- The `case` labels of `EvalScript`'s `switch`; an opcode with none is `default`. -/
def opcodeCase (opcode : UInt8) : OpCase :=
  match opcode.toNat with
  | 0x4f | 0x51 | 0x52 | 0x53 | 0x54 | 0x55 | 0x56 | 0x57 | 0x58 | 0x59 | 0x5a | 0x5b | 0x5c
  | 0x5d | 0x5e | 0x5f | 0x60 => .smallInt opcode
  | 0x61 => .nop
  | 0xb1 => .checkLockTimeVerify
  | 0xb2 => .checkSequenceVerify
  | 0xb0 | 0xb3 | 0xb4 | 0xb5 | 0xb6 | 0xb7 | 0xb8 | 0xb9 => .upgradableNop
  | 0x63 => .conditional false
  | 0x64 => .conditional true
  | 0x67 => .opElse
  | 0x68 => .opEndIf
  | 0x69 => .verify
  | 0x6a => .opReturn
  | 0x6b => .toAltStack
  | 0x6c => .fromAltStack
  | 0x6d => .stack .OP_2DROP
  | 0x6e => .stack .OP_2DUP
  | 0x6f => .stack .OP_3DUP
  | 0x70 => .stack .OP_2OVER
  | 0x71 => .stack .OP_2ROT
  | 0x72 => .stack .OP_2SWAP
  | 0x73 => .stack .OP_IFDUP
  | 0x74 => .stack .OP_DEPTH
  | 0x75 => .stack .OP_DROP
  | 0x76 => .stack .OP_DUP
  | 0x77 => .stack .OP_NIP
  | 0x78 => .stack .OP_OVER
  | 0x79 => .pickRoll false
  | 0x7a => .pickRoll true
  | 0x7b => .stack .OP_ROT
  | 0x7c => .stack .OP_SWAP
  | 0x7d => .stack .OP_TUCK
  | 0x82 => .stack .OP_SIZE
  | 0x87 => .equal false
  | 0x88 => .equal true
  | 0x8b => .unary .OP_1ADD
  | 0x8c => .unary .OP_1SUB
  | 0x8f => .unary .OP_NEGATE
  | 0x90 => .unary .OP_ABS
  | 0x91 => .unary .OP_NOT
  | 0x92 => .unary .OP_0NOTEQUAL
  | 0x93 => .binary .OP_ADD
  | 0x94 => .binary .OP_SUB
  | 0x9a => .binary .OP_BOOLAND
  | 0x9b => .binary .OP_BOOLOR
  | 0x9c => .binary .OP_NUMEQUAL
  | 0x9d => .binary .OP_NUMEQUALVERIFY
  | 0x9e => .binary .OP_NUMNOTEQUAL
  | 0x9f => .binary .OP_LESSTHAN
  | 0xa0 => .binary .OP_GREATERTHAN
  | 0xa1 => .binary .OP_LESSTHANOREQUAL
  | 0xa2 => .binary .OP_GREATERTHANOREQUAL
  | 0xa3 => .binary .OP_MIN
  | 0xa4 => .binary .OP_MAX
  | 0xa5 => .within
  | 0xa6 => .hash .OP_RIPEMD160
  | 0xa7 => .hash .OP_SHA1
  | 0xa8 => .hash .OP_SHA256
  | 0xa9 => .hash .OP_HASH160
  | 0xaa => .hash .OP_HASH256
  | 0xab => .codeSeparator
  | 0xac => .checkSig false
  | 0xad => .checkSig true
  | 0xae => .checkMultiSig false
  | 0xaf => .checkMultiSig true
  | _ => .bad

/-- The opcodes `EvalScript` refuses wherever they stand, executed or not. -/
def isDisabledOpcode (opcode : UInt8) : Bool :=
  [0x7e, 0x7f, 0x80, 0x81, 0x83, 0x84, 0x85, 0x86, 0x8d, 0x8e, 0x95, 0x96, 0x97, 0x98,
    0x99].contains opcode

/-- The stack operations, the top of the stack first. -/
def execStackOp (op : StackOp) (stack : List valtype) : Except ScriptError (List valtype) :=
  match op, stack with
  | .OP_2DROP, _ :: _ :: r => .ok r
  | .OP_2DUP, a :: b :: r => .ok (a :: b :: a :: b :: r)
  | .OP_3DUP, a :: b :: c :: r => .ok (a :: b :: c :: a :: b :: c :: r)
  | .OP_2OVER, a :: b :: c :: d :: r => .ok (c :: d :: a :: b :: c :: d :: r)
  | .OP_2ROT, a :: b :: c :: d :: e :: f :: r => .ok (e :: f :: a :: b :: c :: d :: r)
  | .OP_2SWAP, a :: b :: c :: d :: r => .ok (c :: d :: a :: b :: r)
  | .OP_IFDUP, a :: r => .ok (if CastToBool a then a :: a :: r else a :: r)
  | .OP_DEPTH, r => .ok (serialize r.length :: r)
  | .OP_DROP, _ :: r => .ok r
  | .OP_DUP, a :: r => .ok (a :: a :: r)
  | .OP_NIP, a :: _ :: r => .ok (a :: r)
  | .OP_OVER, a :: b :: r => .ok (b :: a :: b :: r)
  | .OP_ROT, a :: b :: c :: r => .ok (c :: a :: b :: r)
  | .OP_SWAP, a :: b :: r => .ok (b :: a :: r)
  | .OP_TUCK, a :: b :: r => .ok (a :: b :: a :: r)
  | .OP_SIZE, a :: r => .ok (serialize a.length :: a :: r)
  | _, _ => .error SCRIPT_ERR_INVALID_STACK_OPERATION

/-- The one-operand numeric operations on their operand. -/
def execUnary (op : UnaryOp) (bn : ℤ) : ℤ :=
  match op with
  | .OP_1ADD => bn + 1
  | .OP_1SUB => bn - 1
  | .OP_NEGATE => -bn
  | .OP_ABS => if bn < 0 then -bn else bn
  | .OP_NOT => if bn = 0 then 1 else 0
  | .OP_0NOTEQUAL => if bn ≠ 0 then 1 else 0

/-- The two-operand numeric operations on `stacktop(-2)` and `stacktop(-1)`. -/
def execBinary (op : BinaryOp) (bn1 bn2 : ℤ) : ℤ :=
  let ofBool (b : Bool) : ℤ := if b then 1 else 0
  match op with
  | .OP_ADD => bn1 + bn2
  | .OP_SUB => bn1 - bn2
  | .OP_BOOLAND => ofBool (bn1 ≠ 0 ∧ bn2 ≠ 0)
  | .OP_BOOLOR => ofBool (bn1 ≠ 0 ∨ bn2 ≠ 0)
  | .OP_NUMEQUAL => ofBool (bn1 = bn2)
  | .OP_NUMEQUALVERIFY => ofBool (bn1 = bn2)
  | .OP_NUMNOTEQUAL => ofBool (bn1 ≠ bn2)
  | .OP_LESSTHAN => ofBool (bn1 < bn2)
  | .OP_GREATERTHAN => ofBool (bn1 > bn2)
  | .OP_LESSTHANOREQUAL => ofBool (bn1 ≤ bn2)
  | .OP_GREATERTHANOREQUAL => ofBool (bn1 ≥ bn2)
  | .OP_MIN => if bn1 < bn2 then bn1 else bn2
  | .OP_MAX => if bn1 > bn2 then bn1 else bn2

/-- The hash operations on their operand. -/
def execHash (prims : ScriptPrimitives) (op : HashOp) (vch : valtype) : valtype :=
  match op with
  | .OP_RIPEMD160 => prims.RIPEMD160 vch
  | .OP_SHA1 => prims.SHA1 vch
  | .OP_SHA256 => prims.SHA256 vch
  | .OP_HASH160 => prims.RIPEMD160 (prims.SHA256 vch)
  | .OP_HASH256 => prims.SHA256 (prims.SHA256 vch)

/-- A `CScriptNum` read inside `EvalScript`: the `scriptnum_error` it may throw is caught as
`SCRIPT_ERR_UNKNOWN_ERROR`. -/
def scriptNum (vch : valtype) (fRequireMinimal : Bool) (nMaxNumSize : ℕ) :
    Except ScriptError ℤ :=
  match CScriptNum vch fRequireMinimal nMaxNumSize with
  | some n => .ok n
  | none => .error SCRIPT_ERR_UNKNOWN_ERROR

/-- The state `EvalScript` keeps across operations. -/
structure EvalState where
  stack : List valtype
  altstack : List valtype
  vfExec : List Bool
  nOpCount : ℕ
  pbegincodehash : List UInt8

/-- `SEQUENCE_LOCKTIME_DISABLE_FLAG`, as a bit position. -/
def SEQUENCE_LOCKTIME_DISABLE_BIT : ℕ := 31

/-- `OP_CHECKLOCKTIMEVERIFY`: a no-op without its flag; with it, the top of the stack read as a
five-byte number must be a lock time the transaction satisfies. -/
def opCheckLockTimeVerify (ctx : ScriptContext) (stack : List valtype) :
    Except ScriptError Unit :=
  if !hasFlag ctx.flags SCRIPT_VERIFY_CHECKLOCKTIMEVERIFY then .ok () else
  match stack with
  | [] => .error SCRIPT_ERR_INVALID_STACK_OPERATION
  | top :: _ => do
    let nLockTime ← scriptNum top (hasFlag ctx.flags SCRIPT_VERIFY_MINIMALDATA) 5
    if nLockTime < 0 then throw SCRIPT_ERR_NEGATIVE_LOCKTIME
    if !ctx.checker.CheckLockTime nLockTime then throw SCRIPT_ERR_UNSATISFIED_LOCKTIME

/-- `OP_CHECKSEQUENCEVERIFY`: the same for a relative lock time, which the disable bit turns
off. -/
def opCheckSequenceVerify (ctx : ScriptContext) (stack : List valtype) :
    Except ScriptError Unit :=
  if !hasFlag ctx.flags SCRIPT_VERIFY_CHECKSEQUENCEVERIFY then .ok () else
  match stack with
  | [] => .error SCRIPT_ERR_INVALID_STACK_OPERATION
  | top :: _ => do
    let nSequence ← scriptNum top (hasFlag ctx.flags SCRIPT_VERIFY_MINIMALDATA) 5
    if nSequence < 0 then throw SCRIPT_ERR_NEGATIVE_LOCKTIME
    if nSequence.toNat.testBit SEQUENCE_LOCKTIME_DISABLE_BIT then return ()
    if !ctx.checker.CheckSequence nSequence then throw SCRIPT_ERR_UNSATISFIED_LOCKTIME

/-- `OP_IF` and `OP_NOTIF`: in an executed branch, pop the condition (minimally encoded under
`MINIMALIF` in witness scripts); push the branch taken onto `vfExec`. -/
def opConditional (ctx : ScriptContext) (notIf fExec : Bool) (s : EvalState) :
    Except ScriptError EvalState :=
  if !fExec then .ok { s with vfExec := false :: s.vfExec } else
  match s.stack with
  | [] => .error SCRIPT_ERR_UNBALANCED_CONDITIONAL
  | vch :: rest => do
    if ctx.sigversion == SIGVERSION_WITNESS_V0 && hasFlag ctx.flags SCRIPT_VERIFY_MINIMALIF then
      if vch.length > 1 then throw SCRIPT_ERR_MINIMALIF
      if vch.length = 1 ∧ vch.getD 0 0 ≠ 1 then throw SCRIPT_ERR_MINIMALIF
    let fValue := if notIf then !CastToBool vch else CastToBool vch
    pure { s with stack := rest, vfExec := fValue :: s.vfExec }

/-- `OP_CHECKSIG` and `OP_CHECKSIGVERIFY`. Outside witness scripts the signature is first
deleted from the script code. -/
def opCheckSig (ctx : ScriptContext) (verifyAfter : Bool) (s : EvalState) :
    Except ScriptError (List valtype) :=
  match s.stack with
  | vchPubKey :: vchSig :: rest => do
    let scriptCode := if ctx.sigversion == SIGVERSION_BASE then
      FindAndDelete s.pbegincodehash (pushData vchSig) else s.pbegincodehash
    CheckSignatureEncoding ctx.prims vchSig ctx.flags
    CheckPubKeyEncoding vchPubKey ctx.flags ctx.sigversion
    let fSuccess := ctx.checker.CheckSig vchSig vchPubKey scriptCode ctx.sigversion
    if !fSuccess && hasFlag ctx.flags SCRIPT_VERIFY_NULLFAIL && vchSig.length ≠ 0 then
      throw SCRIPT_ERR_SIG_NULLFAIL
    if verifyAfter then
      if fSuccess then pure rest else throw SCRIPT_ERR_CHECKSIGVERIFY
    else pure (boolVch fSuccess :: rest)
  | _ => .error SCRIPT_ERR_INVALID_STACK_OPERATION

/-- The signature loop of `OP_CHECKMULTISIG`: signatures and keys in stack order, each
signature tried against the keys left until one matches; `false` once more signatures remain
than keys. -/
def multiSigLoop (ctx : ScriptContext) (scriptCode : List UInt8) :
    List valtype → List valtype → Except ScriptError Bool
  | [], _ => .ok true
  | vchSig :: sigs, keys =>
    match keys with
    | [] => .ok false
    | vchPubKey :: keys' => do
      CheckSignatureEncoding ctx.prims vchSig ctx.flags
      CheckPubKeyEncoding vchPubKey ctx.flags ctx.sigversion
      let fOk := ctx.checker.CheckSig vchSig vchPubKey scriptCode ctx.sigversion
      let sigs := if fOk then sigs else vchSig :: sigs
      -- `nSigsCount > nKeysCount` after this key: not enough keys left
      if sigs.length > keys'.length then pure false
      else multiSigLoop ctx scriptCode sigs keys'
termination_by _ keys => keys.length
decreasing_by simp

/-- `OP_CHECKMULTISIG` and `OP_CHECKMULTISIGVERIFY`: the key count, the keys, the signature
count, the signatures and the extra element, all counted against the stack; under `NULLFAIL`
a failed check requires every signature empty, under `NULLDUMMY` the extra element. -/
def opCheckMultiSig (ctx : ScriptContext) (verifyAfter : Bool) (s : EvalState) :
    Except ScriptError EvalState := do
  let fRequireMinimal := hasFlag ctx.flags SCRIPT_VERIFY_MINIMALDATA
  let stack := s.stack
  let top ← match stack with
    | [] => throw SCRIPT_ERR_INVALID_STACK_OPERATION
    | top :: _ => pure top
  let nKeysCount := getint (← scriptNum top fRequireMinimal nDefaultMaxNumSize)
  if nKeysCount < 0 ∨ nKeysCount > MAX_PUBKEYS_PER_MULTISIG then throw SCRIPT_ERR_PUBKEY_COUNT
  let nOpCount := s.nOpCount + nKeysCount.toNat
  if nOpCount > MAX_OPS_PER_SCRIPT then throw SCRIPT_ERR_OP_COUNT
  let keys := (stack.drop 1).take nKeysCount.toNat
  -- `i` counts the elements used so far: the key count and the keys
  if stack.length < 2 + nKeysCount.toNat then throw SCRIPT_ERR_INVALID_STACK_OPERATION
  let nSigsCount := getint (← scriptNum (stack.getD (1 + nKeysCount.toNat) [])
    fRequireMinimal nDefaultMaxNumSize)
  if nSigsCount < 0 ∨ nSigsCount > nKeysCount then throw SCRIPT_ERR_SIG_COUNT
  let nUsed := 2 + nKeysCount.toNat + nSigsCount.toNat
  if stack.length < nUsed + 1 then throw SCRIPT_ERR_INVALID_STACK_OPERATION
  let sigs := (stack.drop (2 + nKeysCount.toNat)).take nSigsCount.toNat
  let scriptCode := if ctx.sigversion == SIGVERSION_BASE then
    sigs.foldl (fun code vchSig ↦ FindAndDelete code (pushData vchSig)) s.pbegincodehash
    else s.pbegincodehash
  let fSuccess ← multiSigLoop ctx scriptCode sigs keys
  -- the pops: after the key count, the keys and the signature count, every signature must be
  -- empty when the check failed under `NULLFAIL`
  if !fSuccess && hasFlag ctx.flags SCRIPT_VERIFY_NULLFAIL && sigs.any (·.length ≠ 0) then
    throw SCRIPT_ERR_SIG_NULLFAIL
  let rest := stack.drop nUsed
  match rest with
  | [] => throw SCRIPT_ERR_INVALID_STACK_OPERATION
  | dummy :: rest =>
    if hasFlag ctx.flags SCRIPT_VERIFY_NULLDUMMY && dummy.length ≠ 0 then
      throw SCRIPT_ERR_SIG_NULLDUMMY
    let stack := if verifyAfter then rest else boolVch fSuccess :: rest
    if verifyAfter && !fSuccess then throw SCRIPT_ERR_CHECKMULTISIGVERIFY
    pure { s with stack, nOpCount }

/-- One case of the `switch`, `pc` being the script after the opcode. -/
def execOpcode (ctx : ScriptContext) (fExec : Bool) (opcode : UInt8) (pc : List UInt8)
    (s : EvalState) : Except ScriptError EvalState :=
  let fRequireMinimal := hasFlag ctx.flags SCRIPT_VERIFY_MINIMALDATA
  match opcodeCase opcode with
  | .smallInt op =>
    .ok { s with stack := serialize ((op.toNat : ℤ) - (OP_1.toNat - 1)) :: s.stack }
  | .nop => .ok s
  | .checkLockTimeVerify => do opCheckLockTimeVerify ctx s.stack; pure s
  | .checkSequenceVerify => do opCheckSequenceVerify ctx s.stack; pure s
  | .upgradableNop =>
    if hasFlag ctx.flags SCRIPT_VERIFY_DISCOURAGE_UPGRADABLE_NOPS then
      .error SCRIPT_ERR_DISCOURAGE_UPGRADABLE_NOPS
    else .ok s
  | .conditional notIf => opConditional ctx notIf fExec s
  | .opElse =>
    match s.vfExec with
    | [] => .error SCRIPT_ERR_UNBALANCED_CONDITIONAL
    | b :: bs => .ok { s with vfExec := (!b) :: bs }
  | .opEndIf =>
    match s.vfExec with
    | [] => .error SCRIPT_ERR_UNBALANCED_CONDITIONAL
    | _ :: bs => .ok { s with vfExec := bs }
  | .verify =>
    match s.stack with
    | [] => .error SCRIPT_ERR_INVALID_STACK_OPERATION
    | top :: rest => if CastToBool top then .ok { s with stack := rest }
      else .error SCRIPT_ERR_VERIFY
  | .opReturn => .error SCRIPT_ERR_OP_RETURN
  | .toAltStack =>
    match s.stack with
    | [] => .error SCRIPT_ERR_INVALID_STACK_OPERATION
    | top :: rest => .ok { s with stack := rest, altstack := top :: s.altstack }
  | .fromAltStack =>
    match s.altstack with
    | [] => .error SCRIPT_ERR_INVALID_ALTSTACK_OPERATION
    | top :: rest => .ok { s with stack := top :: s.stack, altstack := rest }
  | .stack op => do pure { s with stack := ← execStackOp op s.stack }
  | .pickRoll roll =>
    match s.stack with
    | top :: rest@(_ :: _) => do
      let n := getint (← scriptNum top fRequireMinimal nDefaultMaxNumSize)
      if n < 0 ∨ n ≥ rest.length then throw SCRIPT_ERR_INVALID_STACK_OPERATION
      let vch := rest.getD n.toNat []
      let rest := if roll then rest.eraseIdx n.toNat else rest
      pure { s with stack := vch :: rest }
    | _ => .error SCRIPT_ERR_INVALID_STACK_OPERATION
  | .equal verifyAfter =>
    match s.stack with
    | vch2 :: vch1 :: rest =>
      let fEqual := vch1 == vch2
      if verifyAfter then
        if fEqual then .ok { s with stack := rest } else .error SCRIPT_ERR_EQUALVERIFY
      else .ok { s with stack := boolVch fEqual :: rest }
    | _ => .error SCRIPT_ERR_INVALID_STACK_OPERATION
  | .unary op =>
    match s.stack with
    | top :: rest => do
      let bn ← scriptNum top fRequireMinimal nDefaultMaxNumSize
      pure { s with stack := serialize (execUnary op bn) :: rest }
    | [] => .error SCRIPT_ERR_INVALID_STACK_OPERATION
  | .binary op =>
    match s.stack with
    | top :: second :: rest => do
      let bn1 ← scriptNum second fRequireMinimal nDefaultMaxNumSize
      let bn2 ← scriptNum top fRequireMinimal nDefaultMaxNumSize
      let result := serialize (execBinary op bn1 bn2)
      match op with
      | .OP_NUMEQUALVERIFY =>
        if CastToBool result then pure { s with stack := rest }
        else throw SCRIPT_ERR_NUMEQUALVERIFY
      | _ => pure { s with stack := result :: rest }
    | _ => .error SCRIPT_ERR_INVALID_STACK_OPERATION
  | .within =>
    match s.stack with
    | top :: second :: third :: rest => do
      let bn1 ← scriptNum third fRequireMinimal nDefaultMaxNumSize
      let bn2 ← scriptNum second fRequireMinimal nDefaultMaxNumSize
      let bn3 ← scriptNum top fRequireMinimal nDefaultMaxNumSize
      pure { s with stack := boolVch (bn2 ≤ bn1 ∧ bn1 < bn3) :: rest }
    | _ => .error SCRIPT_ERR_INVALID_STACK_OPERATION
  | .hash op =>
    match s.stack with
    | top :: rest => .ok { s with stack := execHash ctx.prims op top :: rest }
    | [] => .error SCRIPT_ERR_INVALID_STACK_OPERATION
  | .codeSeparator => .ok { s with pbegincodehash := pc }
  | .checkSig verifyAfter => do pure { s with stack := ← opCheckSig ctx verifyAfter s }
  | .checkMultiSig verifyAfter => opCheckMultiSig ctx verifyAfter s
  | .bad => .error SCRIPT_ERR_BAD_OPCODE

/-! ## `EvalScript` -/

/-- One pass of `EvalScript`'s loop after `GetOp`: the push size and operation count limits,
the disabled opcodes, then a push or a case of the `switch` when it is to run, and the stack
size limit. -/
def evalStep (ctx : ScriptContext) (opcode : UInt8) (vchPushValue : valtype) (pc : List UInt8)
    (s : EvalState) : Except ScriptError EvalState := do
  let fExec := !s.vfExec.contains false
  if vchPushValue.length > MAX_SCRIPT_ELEMENT_SIZE then throw SCRIPT_ERR_PUSH_SIZE
  let nOpCount := if opcode > OP_16 then s.nOpCount + 1 else s.nOpCount
  if opcode > OP_16 ∧ nOpCount > MAX_OPS_PER_SCRIPT then throw SCRIPT_ERR_OP_COUNT
  if isDisabledOpcode opcode then throw SCRIPT_ERR_DISABLED_OPCODE
  let s := { s with nOpCount }
  let s ← if fExec ∧ opcode ≤ OP_PUSHDATA4 then
      if hasFlag ctx.flags SCRIPT_VERIFY_MINIMALDATA && !CheckMinimalPush vchPushValue opcode then
        throw SCRIPT_ERR_MINIMALDATA
      else pure { s with stack := vchPushValue :: s.stack }
    else if fExec ∨ (OP_IF ≤ opcode ∧ opcode ≤ OP_ENDIF) then
      execOpcode ctx fExec opcode pc s
    else pure s
  if s.stack.length + s.altstack.length > MAX_STACK_SIZE then throw SCRIPT_ERR_STACK_SIZE
  pure s

/-- The loop `while (pc < pend)` of `EvalScript`. -/
def evalLoop (ctx : ScriptContext) (pc : List UInt8) (s : EvalState) :
    Except ScriptError EvalState :=
  if pc.isEmpty then .ok s else
  match h : GetOp pc with
  | none => .error SCRIPT_ERR_BAD_OPCODE
  | some (opcode, vchPushValue, rest) => do
    let s ← evalStep ctx opcode vchPushValue rest s
    evalLoop ctx rest s
termination_by pc.length
decreasing_by exact length_lt_of_GetOp h

/-- `EvalScript(stack, script, flags, checker, sigversion, serror)`: the stack it leaves. -/
def EvalScript (ctx : ScriptContext) (stack : List valtype) (script : List UInt8) :
    Except ScriptError (List valtype) := do
  if script.length > MAX_SCRIPT_SIZE then throw SCRIPT_ERR_SCRIPT_SIZE
  let s ← evalLoop ctx script ⟨stack, [], [], 0, script⟩
  if !s.vfExec.isEmpty then throw SCRIPT_ERR_UNBALANCED_CONDITIONAL
  pure s.stack

/-! ## `VerifyWitnessProgram` and `VerifyScript` -/

/-- What a witness program asks to run: the initial stack (top first) and the script, or
nothing for a version the node does not know. -/
def witnessScript (prims : ScriptPrimitives) (witness : List valtype) (witversion : ℤ)
    (program : valtype) (flags : UInt32) :
    Except ScriptError (Option (List valtype × List UInt8)) :=
  if witversion = 0 then
    if program.length = 32 then
      match witness.getLast? with
      | none => .error SCRIPT_ERR_WITNESS_PROGRAM_WITNESS_EMPTY
      | some scriptPubKey =>
        if prims.SHA256 scriptPubKey ≠ program then .error SCRIPT_ERR_WITNESS_PROGRAM_MISMATCH
        else .ok (some (witness.dropLast.reverse, scriptPubKey))
    else if program.length = 20 then
      if witness.length ≠ 2 then .error SCRIPT_ERR_WITNESS_PROGRAM_MISMATCH
      else .ok (some (witness.reverse,
        [OP_DUP, OP_HASH160] ++ pushData program ++ [OP_EQUALVERIFY, OP_CHECKSIG]))
    else .error SCRIPT_ERR_WITNESS_PROGRAM_WRONG_LENGTH
  else if hasFlag flags SCRIPT_VERIFY_DISCOURAGE_UPGRADABLE_WITNESS_PROGRAM then
    .error SCRIPT_ERR_DISCOURAGE_UPGRADABLE_WITNESS_PROGRAM
  else .ok none

/-- `VerifyWitnessProgram(witness, witversion, program, flags, checker, serror)`. -/
def VerifyWitnessProgram (prims : ScriptPrimitives) (checker : BaseSignatureChecker)
    (witness : List valtype) (witversion : ℤ) (program : valtype) (flags : UInt32) :
    Except ScriptError Unit := do
  match ← witnessScript prims witness witversion program flags with
  | none => pure ()
  | some (stack, scriptPubKey) =>
    if stack.any (·.length > MAX_SCRIPT_ELEMENT_SIZE) then throw SCRIPT_ERR_PUSH_SIZE
    let stack ← EvalScript ⟨prims, checker, flags, SIGVERSION_WITNESS_V0⟩ stack scriptPubKey
    match stack with
    | [top] => if CastToBool top then pure () else throw SCRIPT_ERR_EVAL_FALSE
    | _ => throw SCRIPT_ERR_EVAL_FALSE

/-- How `VerifyScript` fails: a script error, or one of its `assert`s. -/
inductive VerifyFailure where
  | scriptError (e : ScriptError)
  | assertionFailed (cond : String)
  deriving DecidableEq

/-- `stack.resize(1)`: the bottom element, or one empty element for an empty stack. -/
def resizeOne (stack : List valtype) : List valtype :=
  match stack.getLast? with
  | some bottom => [bottom]
  | none => [[]]

/-- The first part of `VerifyScript`: `SIGPUSHONLY`, the signature script, the locking script
and its result; the stack, and the copy kept for pay-to-script-hash. -/
def verifyScripts (prims : ScriptPrimitives) (checker : BaseSignatureChecker)
    (scriptSig scriptPubKey : List UInt8) (flags : UInt32) :
    Except ScriptError (List valtype × List valtype) := do
  if hasFlag flags SCRIPT_VERIFY_SIGPUSHONLY && !IsPushOnly scriptSig then
    throw SCRIPT_ERR_SIG_PUSHONLY
  let ctx : ScriptContext := ⟨prims, checker, flags, SIGVERSION_BASE⟩
  let stack ← EvalScript ctx [] scriptSig
  let stackCopy := if hasFlag flags SCRIPT_VERIFY_P2SH then stack else []
  let stack ← EvalScript ctx stack scriptPubKey
  match stack with
  | [] => throw SCRIPT_ERR_EVAL_FALSE
  | top :: _ => if CastToBool top then pure (stack, stackCopy) else throw SCRIPT_ERR_EVAL_FALSE

/-- The witness program check of `VerifyScript`, bare or nested: `hadWitness` and the stack
after it. `scriptSigExpected` is what the signature script must be for this kind of program. -/
def verifyWitness (prims : ScriptPrimitives) (checker : BaseSignatureChecker)
    (scriptSig scriptSigExpected script : List UInt8) (witness : List valtype) (flags : UInt32)
    (malleated : ScriptError) (stack : List valtype) : Except ScriptError (Bool × List valtype) :=
  if !hasFlag flags SCRIPT_VERIFY_WITNESS then .ok (false, stack) else
  match IsWitnessProgram script with
  | none => .ok (false, stack)
  | some (witnessversion, witnessprogram) => do
    if scriptSig ≠ scriptSigExpected then throw malleated
    VerifyWitnessProgram prims checker witness witnessversion witnessprogram flags
    pure (true, resizeOne stack)

/-- The pay-to-script-hash part of `VerifyScript`: the redeem script on the copied stack, and
its own witness program. -/
def verifyP2SH (prims : ScriptPrimitives) (checker : BaseSignatureChecker)
    (scriptSig : List UInt8) (witness : List valtype) (flags : UInt32)
    (stackCopy : List valtype) : Except VerifyFailure (Bool × List valtype) :=
  if !IsPushOnly scriptSig then .error (.scriptError SCRIPT_ERR_SIG_PUSHONLY) else
  match stackCopy with
  | [] => .error (.assertionFailed "!stack.empty()")
  | pubKeySerialized :: stack =>
    let result : Except ScriptError (Bool × List valtype) := do
      let stack ← EvalScript ⟨prims, checker, flags, SIGVERSION_BASE⟩ stack pubKeySerialized
      match stack with
      | [] => throw SCRIPT_ERR_EVAL_FALSE
      | top :: _ =>
        if !CastToBool top then throw SCRIPT_ERR_EVAL_FALSE
        verifyWitness prims checker scriptSig (pushData pubKeySerialized) pubKeySerialized
          witness flags SCRIPT_ERR_WITNESS_MALLEATED_P2SH stack
    result.mapError .scriptError

/-- `VerifyScript(scriptSig, scriptPubKey, witness, flags, checker, serror)`; the witness stack
is in the source's order, its last element on top. -/
def VerifyScript (prims : ScriptPrimitives) (scriptSig scriptPubKey : List UInt8)
    (witness : List valtype) (flags : UInt32) (checker : BaseSignatureChecker) :
    Except VerifyFailure Unit := do
  let (stack, stackCopy) ← (verifyScripts prims checker scriptSig scriptPubKey flags).mapError
    .scriptError
  let (hadWitness, stack) ← (verifyWitness prims checker scriptSig [] scriptPubKey witness flags
    SCRIPT_ERR_WITNESS_MALLEATED stack).mapError .scriptError
  let (hadWitness, stack) ←
    if hasFlag flags SCRIPT_VERIFY_P2SH && IsPayToScriptHash scriptPubKey then do
      let (hadP2SHWitness, stack) ← verifyP2SH prims checker scriptSig witness flags stackCopy
      pure (hadWitness || hadP2SHWitness, stack)
    else pure (hadWitness, stack)
  if hasFlag flags SCRIPT_VERIFY_CLEANSTACK then
    if !hasFlag flags SCRIPT_VERIFY_P2SH then
      throw (.assertionFailed "(flags & SCRIPT_VERIFY_P2SH) != 0")
    if !hasFlag flags SCRIPT_VERIFY_WITNESS then
      throw (.assertionFailed "(flags & SCRIPT_VERIFY_WITNESS) != 0")
    if stack.length ≠ 1 then throw (.scriptError SCRIPT_ERR_CLEANSTACK)
  if hasFlag flags SCRIPT_VERIFY_WITNESS then
    if !hasFlag flags SCRIPT_VERIFY_P2SH then
      throw (.assertionFailed "(flags & SCRIPT_VERIFY_P2SH) != 0")
    if !hadWitness && witness ≠ [] then throw (.scriptError SCRIPT_ERR_WITNESS_UNEXPECTED)

end LightningCash
