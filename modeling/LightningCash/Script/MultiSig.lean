import LightningCash.Lib.Matching
import LightningCash.Script.Encoding
import LightningCash.Script.FlagMonotone

/-!
# `OP_CHECKMULTISIG` is ordered matching

With none of the flags that check encodings or ask for empty elements (`STRICTENC`, `DERSIG`,
`LOW_S`, `WITNESS_PUBKEYTYPE`, `NULLFAIL`, `NULLDUMMY`), the only thing `OP_CHECKMULTISIG` looks at
besides the stack layout is the checker's `CheckSig`, for one script code fixed before the loop.
The loop tries the first signature left against the first key left, drops the key in every case
and the signature when it matched: it is `Matching.greedyMatch`, the earliest-partner pass, cut
short once fewer keys than signatures remain, where the greedy pass fails anyway. By
`Matching.greedyMatch_iff` it then pushes true exactly when the signatures map, in order, into the
keys.

The stack layout is the one the opcode reads from the top: the key count, the keys, the signature
count, the signatures and one extra element, the counts written as `serialize` writes them.
-/

namespace LightningCash

open Except ScriptError SigVersion Matching

/-- The flags under which `OP_CHECKMULTISIG` checks more than the matching: the encodings of
signatures and keys, and the empty elements `NULLFAIL` and `NULLDUMMY` ask for. -/
def multiSigCheckFlags : UInt32 :=
  SCRIPT_VERIFY_STRICTENC ||| SCRIPT_VERIFY_DERSIG ||| SCRIPT_VERIFY_LOW_S |||
    SCRIPT_VERIFY_WITNESS_PUBKEYTYPE ||| SCRIPT_VERIFY_NULLFAIL ||| SCRIPT_VERIFY_NULLDUMMY

/-- A flag inside a mask the flags avoid is not set. -/
theorem hasFlag_eq_false_of_and {flags mask m : UInt32} (h : flags &&& mask = 0)
    (hm : m &&& mask = m) : hasFlag flags m = false := by
  simp only [hasFlag, bne_eq_false_iff_eq]
  calc flags &&& m = flags &&& (mask &&& m) := by rw [UInt32.and_comm mask m, hm]
    _ = flags &&& mask &&& m := (UInt32.and_assoc flags mask m).symm
    _ = 0 := by rw [h, UInt32.zero_and]

section NoEncodingChecks

variable {flags : UInt32} (hflags : flags &&& multiSigCheckFlags = 0)
include hflags

theorem CheckSignatureEncoding_of_flags (prims : ScriptPrimitives) (vchSig : valtype) :
    CheckSignatureEncoding prims vchSig flags = .ok () := by
  have hder : hasFlag flags (SCRIPT_VERIFY_DERSIG ||| SCRIPT_VERIFY_LOW_S |||
      SCRIPT_VERIFY_STRICTENC) = false := hasFlag_eq_false_of_and hflags (by decide)
  have hlow : hasFlag flags SCRIPT_VERIFY_LOW_S = false :=
    hasFlag_eq_false_of_and hflags (by decide)
  have hstrict : hasFlag flags SCRIPT_VERIFY_STRICTENC = false :=
    hasFlag_eq_false_of_and hflags (by decide)
  unfold CheckSignatureEncoding
  simp only [hder, hlow, hstrict, Bool.false_and, Bool.false_eq_true, if_false]
  split <;> rfl

theorem CheckPubKeyEncoding_of_flags (vchPubKey : valtype) (sigversion : SigVersion) :
    CheckPubKeyEncoding vchPubKey flags sigversion = .ok () := by
  have hstrict : hasFlag flags SCRIPT_VERIFY_STRICTENC = false :=
    hasFlag_eq_false_of_and hflags (by decide)
  have hwit : hasFlag flags SCRIPT_VERIFY_WITNESS_PUBKEYTYPE = false :=
    hasFlag_eq_false_of_and hflags (by decide)
  simp only [CheckPubKeyEncoding, hstrict, hwit, Bool.false_and, Bool.false_eq_true, if_false]

theorem hasFlag_NULLFAIL_of_flags : hasFlag flags SCRIPT_VERIFY_NULLFAIL = false :=
  hasFlag_eq_false_of_and hflags (by decide)

theorem hasFlag_NULLDUMMY_of_flags : hasFlag flags SCRIPT_VERIFY_NULLDUMMY = false :=
  hasFlag_eq_false_of_and hflags (by decide)

end NoEncodingChecks

/-- The signature loop is the greedy matching of the signatures into the keys, under
`CheckSig` for the loop's script code. The induction is on the keys, the signatures left
generalised; the loop's early `false` is where the greedy pass would fail for lack of keys. -/
theorem multiSigLoop_eq_greedyMatch {ctx : ScriptContext}
    (hflags : ctx.flags &&& multiSigCheckFlags = 0) (scriptCode : List UInt8) :
    ∀ (sigs keys : List valtype), sigs.length ≤ keys.length →
      multiSigLoop ctx scriptCode sigs keys =
        .ok (greedyMatch (fun sig key ↦ ctx.checker.CheckSig sig key scriptCode ctx.sigversion)
          sigs keys) := by
  intro sigs keys
  induction keys generalizing sigs with
  | nil =>
    intro hlen
    rw [List.length_eq_zero_iff.1 (Nat.le_zero.1 hlen), multiSigLoop, greedyMatch_nil_left]
  | cons vchPubKey keys ih =>
    intro hlen
    cases sigs with
    | nil => rw [multiSigLoop, greedyMatch_nil_left]
    | cons vchSig sigs =>
      rw [multiSigLoop, greedyMatch_cons_cons, CheckSignatureEncoding_of_flags hflags,
        CheckPubKeyEncoding_of_flags hflags]
      simp only [Except.ok_bind]
      -- the signatures left after this key, as the greedy pass leaves them
      cases hOk : ctx.checker.CheckSig vchSig vchPubKey scriptCode ctx.sigversion with
      | false =>
        simp only [Bool.false_eq_true, if_false]
        split_ifs with hshort
        · rw [greedyMatch_eq_false_of_length_lt hshort, pure_eq_ok]
        · exact ih (vchSig :: sigs) (by omega)
      | true =>
        simp only [if_true]
        simp only [List.length_cons] at hlen
        split_ifs with hshort
        · omega
        · exact ih sigs (by omega)

/-- The script code the signatures of `OP_CHECKMULTISIG` are checked against: from the last
`OP_CODESEPARATOR`, with every signature deleted from it outside witness scripts. -/
def multiSigScriptCode (ctx : ScriptContext) (s : EvalState) (sigs : List valtype) :
    List UInt8 :=
  if ctx.sigversion == SIGVERSION_BASE then
    sigs.foldl (fun code vchSig ↦ FindAndDelete code (pushData vchSig)) s.pbegincodehash
  else s.pbegincodehash

/-- A count of at most twenty, written as `serialize` writes it, reads back as itself, whether
minimal encoding is asked for or not. -/
theorem scriptNum_serialize_count {n : ℕ} (hn : n ≤ 20) (fRequireMinimal : Bool) :
    scriptNum (serialize n) fRequireMinimal nDefaultMaxNumSize = .ok n := by
  interval_cases n <;> cases fRequireMinimal <;> decide

theorem getint_natCast_of_lt {n : ℕ} (hn : n < 2 ^ 31) : getint n = n := by
  unfold getint
  omega

/-- Where `OP_CHECKMULTISIG` finds its operands on a stack of the layout it expects: the keys
after the key count, the signature count after them, the signatures, the extra element. -/
theorem multiSig_operands {nKeys nSigs dummy : valtype} {keys sigs rest stack : List valtype}
    (h : stack = nKeys :: keys ++ nSigs :: sigs ++ dummy :: rest) :
    (stack.drop 1).take keys.length = keys ∧
      stack.getD (1 + keys.length) [] = nSigs ∧
      (stack.drop (2 + keys.length)).take sigs.length = sigs ∧
      stack.drop (2 + keys.length + sigs.length) = dummy :: rest ∧
      stack.drop (keys.length + sigs.length + 3) = rest ∧
      stack.length = keys.length + sigs.length + 3 + rest.length := by
  -- the same stack cut after the key count, after the signature count, and after the extra
  -- element
  have hcut₁ : stack = [nKeys] ++ (keys ++ nSigs :: sigs ++ dummy :: rest) := by simp [h]
  have hcut₂ : stack = (nKeys :: keys ++ [nSigs]) ++ (sigs ++ dummy :: rest) := by simp [h]
  have hcut₃ : stack = (nKeys :: keys ++ nSigs :: sigs) ++ dummy :: rest := h
  have hcut₄ : stack = (nKeys :: keys ++ nSigs :: sigs ++ [dummy]) ++ rest := by simp [h]
  refine ⟨?_, ?_, ?_, ?_, ?_, ?_⟩
  · rw [hcut₁, List.drop_left' (by simp), List.append_assoc, List.take_left' (by simp)]
  · rw [h, List.getD_eq_getElem?_getD, Nat.add_comm, List.append_assoc, List.cons_append,
      List.getElem?_cons_succ, List.getElem?_append_right le_rfl, Nat.sub_self]
    rfl
  · rw [hcut₂, List.drop_left' (by simp; omega), List.take_left' (by simp)]
  · rw [hcut₃, List.drop_left' (by simp; omega)]
  · rw [hcut₄, List.drop_left' (by simp; omega)]
  · simp [h]
    omega

/-- On a stack of that layout, with counts in range and the flags of `multiSigCheckFlags`
off, the opcode replaces its operands by the verdict of the signature loop. The counts are read
back, every range and size check passes, and the `NULLFAIL` and `NULLDUMMY` checks are off. -/
theorem opCheckMultiSig_of_layout {ctx : ScriptContext} {s : EvalState}
    (hflags : ctx.flags &&& multiSigCheckFlags = 0)
    {keys sigs : List valtype} {dummy : valtype} {rest : List valtype}
    (hsigs : sigs.length ≤ keys.length) (hkeys : keys.length ≤ 20)
    (hops : s.nOpCount + keys.length ≤ MAX_OPS_PER_SCRIPT)
    (hstack : s.stack =
      serialize keys.length :: keys ++ serialize sigs.length :: sigs ++ dummy :: rest) :
    opCheckMultiSig ctx false s =
      (fun fSuccess ↦ { s with stack := boolVch fSuccess :: rest,
                               nOpCount := s.nOpCount + keys.length }) <$>
        multiSigLoop ctx (multiSigScriptCode ctx s sigs) sigs keys := by
  have hK := scriptNum_serialize_count hkeys (hasFlag ctx.flags SCRIPT_VERIFY_MINIMALDATA)
  have hS := scriptNum_serialize_count (hsigs.trans hkeys)
    (hasFlag ctx.flags SCRIPT_VERIFY_MINIMALDATA)
  have hgetK : getint keys.length = keys.length := getint_natCast_of_lt (by omega)
  have hgetS : getint sigs.length = sigs.length := getint_natCast_of_lt (by omega)
  obtain ⟨hkeysAt, hcountAt, hsigsAt, hdummyAt, -, hlen⟩ := multiSig_operands hstack
  -- the guards of the opcode, each false here
  have hKrange : ¬((keys.length : ℤ) < 0 ∨ (keys.length : ℤ) > MAX_PUBKEYS_PER_MULTISIG) := by
    unfold MAX_PUBKEYS_PER_MULTISIG
    omega
  have hSrange : ¬((sigs.length : ℤ) < 0 ∨ (sigs.length : ℤ) > keys.length) := by omega
  have hopsOk : ¬(s.nOpCount + keys.length > MAX_OPS_PER_SCRIPT) := by omega
  have hstackK : ¬(s.stack.length < 2 + keys.length) := by omega
  have hstackS : ¬(s.stack.length < 2 + keys.length + sigs.length + 1) := by omega
  obtain ⟨tail, htail⟩ : ∃ tail, s.stack = serialize keys.length :: tail :=
    ⟨_, by rw [hstack, List.cons_append, List.cons_append]⟩
  unfold opCheckMultiSig
  -- the top of the stack is the key count; the other reads are the named positions
  generalize s.stack = stack at htail hkeysAt hcountAt hsigsAt hdummyAt hstackK hstackS ⊢
  subst htail
  simp only [hK, hgetK, Int.toNat_natCast, hKrange, hopsOk, hstackK, hcountAt, hS, hgetS, hSrange,
    hstackS, hsigsAt, hkeysAt, hdummyAt, if_false, Except.ok_bind, pure_bind,
    hasFlag_NULLFAIL_of_flags hflags, hasFlag_NULLDUMMY_of_flags hflags, Bool.and_false,
    Bool.false_and, Bool.false_eq_true, multiSigScriptCode]
  cases multiSigLoop ctx _ sigs keys <;> rfl

theorem opCheckMultiSig_ordered_match (ctx : ScriptContext) (s : EvalState)
    (hflags : ctx.flags &&& multiSigCheckFlags = 0)
    (keys sigs : List valtype) (dummy : valtype) (rest : List valtype)
    (hsigs : sigs.length ≤ keys.length) (hkeys : keys.length ≤ 20)
    (hops : s.nOpCount + keys.length ≤ MAX_OPS_PER_SCRIPT)
    (hstack : s.stack =
      serialize keys.length :: keys ++ serialize sigs.length :: sigs ++ dummy :: rest) :
    ∃ fSuccess : Bool,
      opCheckMultiSig ctx false s = .ok { s with
        stack := boolVch fSuccess :: s.stack.drop (keys.length + sigs.length + 3),
        nOpCount := s.nOpCount + keys.length } ∧
      (fSuccess = true ↔ OrderedMatch (fun sig key ↦
        ctx.checker.CheckSig sig key (multiSigScriptCode ctx s sigs) ctx.sigversion = true)
        sigs keys) := by
  refine ⟨greedyMatch (fun sig key ↦
    ctx.checker.CheckSig sig key (multiSigScriptCode ctx s sigs) ctx.sigversion) sigs keys,
    ?_, greedyMatch_iff _ _ _⟩
  obtain ⟨-, -, -, -, hrestAt, -⟩ := multiSig_operands hstack
  rw [opCheckMultiSig_of_layout hflags hsigs hkeys hops hstack,
    multiSigLoop_eq_greedyMatch hflags _ sigs keys hsigs, hrestAt]
  rfl

/-- A checker under which a signature matches the key equal to it. -/
def equalBytesChecker : BaseSignatureChecker :=
  ⟨fun vchSig vchPubKey _ _ ↦ vchSig == vchPubKey, fun _ ↦ true, fun _ ↦ true⟩

/-- Keys `[1]`, `[2]`, `[3]` and signatures `[1]`, `[3]` above an empty extra element. -/
def twoOfThreeState : EvalState :=
  ⟨serialize 3 :: [[1], [2], [3]] ++ serialize 2 :: [[1], [3]] ++ [] :: [], [], [], 0, []⟩

theorem opCheckMultiSig_ordered_match_two_of_three :
    opCheckMultiSig ⟨identityPrimitives, equalBytesChecker, 0, SIGVERSION_BASE⟩ false
        twoOfThreeState = .ok { twoOfThreeState with stack := [vchTrue], nOpCount := 3 } := by
  obtain ⟨fSuccess, hrun, hmatch⟩ :=
    opCheckMultiSig_ordered_match ⟨identityPrimitives, equalBytesChecker, 0, SIGVERSION_BASE⟩
      twoOfThreeState (by decide) [[1], [2], [3]] [[1], [3]] [] [] (by decide) (by decide)
      (by decide) rfl
  -- the first signature takes the first key, the second the third
  have hsuccess : fSuccess = true := hmatch.2 ⟨![0, 2], by decide, by decide⟩
  rw [hrun, hsuccess]
  rfl

end LightningCash
