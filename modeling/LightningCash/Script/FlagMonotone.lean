import LightningCash.Lib.Refines
import LightningCash.Script.Interpreter

/-!
# Verification flags only add rejections

Every flag `EvalScript` reads guards a check that throws; none changes what a successful run
computes. `CHECKLOCKTIMEVERIFY` and `CHECKSEQUENCEVERIFY` leave the stack as the `NOP`s they
replace, and a number read under `MINIMALDATA` has the value it has without. So a run under a
set of flags refines, in the sense of `Except.Refines`, the run under any subset: per case of the
`switch`, for one pass of the loop, and by induction on the script for the loop and `EvalScript`.

`VerifyScript` is different: `P2SH` and `WITNESS` switch on whole stages and change the stack the
final checks look at. Its monotonicity needs the weaker set to meet `VerifyScript`'s own
preconditions. When that set has `WITNESS` it has `P2SH` as well, and every stage runs as under
the stronger set. When it has not, it has no `CLEANSTACK` either, and only the stages' success
matters.
-/

namespace LightningCash

open Except ScriptError SigVersion

section FlagSubset

/-! Throughout, `F &&& G = F`: `F` is a subset of `G`, and the run under `G` is the stricter. -/

variable {F G : UInt32}

/-- A flag of a subset is a flag of the set. -/
theorem hasFlag_mono (hFG : F &&& G = F) {m : UInt32} (h : hasFlag F m = true) :
    hasFlag G m = true := by
  simp only [hasFlag, bne_iff_ne, ne_eq] at h ⊢
  intro hG
  apply h
  calc F &&& m = F &&& G &&& m := by rw [hFG]
    _ = F &&& (G &&& m) := UInt32.and_assoc F G m
    _ = 0 := by rw [hG, UInt32.and_zero]

theorem hasFlag_and_mono (hFG : F &&& G = F) {m : UInt32} {c : Bool}
    (h : (hasFlag F m && c) = true) : (hasFlag G m && c) = true := by
  rw [Bool.and_eq_true] at h ⊢
  exact ⟨hasFlag_mono hFG h.1, h.2⟩

theorem and_hasFlag_mono (hFG : F &&& G = F) {m : UInt32} {c : Bool}
    (h : (c && hasFlag F m) = true) : (c && hasFlag G m) = true := by
  rw [Bool.and_eq_true] at h ⊢
  exact ⟨h.1, hasFlag_mono hFG h.2⟩

theorem and_hasFlag_and_mono (hFG : F &&& G = F) {m : UInt32} {b c : Bool}
    (h : (b && hasFlag F m && c) = true) : (b && hasFlag G m && c) = true := by
  rw [Bool.and_eq_true] at h ⊢
  exact ⟨and_hasFlag_mono hFG h.1, h.2⟩

/-! ### The checks that read flags -/

theorem scriptNum_eq_ok {vch : valtype} {b : Bool} {n : ℕ} {x : ℤ} :
    scriptNum vch b n = .ok x ↔ CScriptNum vch b n = some x := by
  unfold scriptNum
  split <;> simp_all

/-- Requiring minimal encoding only rejects: a number read with it reads the same without. -/
theorem scriptNum_refines {b b' : Bool} (hb : b' = true → b = true) (vch : valtype) (n : ℕ) :
    Refines (scriptNum vch b n) (scriptNum vch b' n) := by
  intro x h
  rw [scriptNum_eq_ok] at h ⊢
  cases b' with
  | false => exact CScriptNum_of_minimal h
  | true => rwa [← hb rfl]

theorem CheckSignatureEncoding_refines (hFG : F &&& G = F) (prims : ScriptPrimitives)
    (vchSig : valtype) :
    Refines (CheckSignatureEncoding prims vchSig G) (CheckSignatureEncoding prims vchSig F) := by
  unfold CheckSignatureEncoding
  refine .ite (.refl _) (.guard (hasFlag_and_mono hFG) _ _ ?_)
  refine .ite_bind (hasFlag_mono hFG) _ ?_
  exact .guard (hasFlag_and_mono hFG) _ _ (.refl _)

theorem CheckPubKeyEncoding_refines (hFG : F &&& G = F) (vchPubKey : valtype)
    (sigversion : SigVersion) :
    Refines (CheckPubKeyEncoding vchPubKey G sigversion)
      (CheckPubKeyEncoding vchPubKey F sigversion) := by
  unfold CheckPubKeyEncoding
  simp only [Bool.and_assoc]
  exact .guard (hasFlag_and_mono hFG) _ _ (.guard (hasFlag_and_mono hFG) _ _ (.refl _))

variable {prims : ScriptPrimitives} {checker : BaseSignatureChecker} {sigversion : SigVersion}

/-! ### The cases of the `switch`

Each case is a congruence: the same binds on both sides, the flag guards related by
`hasFlag_mono`. Lock-time and sequence checks are off under `F` when their flag is, which leaves
the `NOP` they replace. -/

theorem opCheckLockTimeVerify_refines (hFG : F &&& G = F) (stack : List valtype) :
    Refines (opCheckLockTimeVerify ⟨prims, checker, G, sigversion⟩ stack)
      (opCheckLockTimeVerify ⟨prims, checker, F, sigversion⟩ stack) := by
  unfold opCheckLockTimeVerify
  cases hF : hasFlag F SCRIPT_VERIFY_CHECKLOCKTIMEVERIFY with
  | false => exact .ok_unit_right _
  | true =>
    rw [hasFlag_mono hFG hF]
    cases stack with
    | nil => exact .refl _
    | cons top _ => exact .bind (scriptNum_refines (hasFlag_mono hFG) top 5) fun _ ↦ .refl _

theorem opCheckSequenceVerify_refines (hFG : F &&& G = F) (stack : List valtype) :
    Refines (opCheckSequenceVerify ⟨prims, checker, G, sigversion⟩ stack)
      (opCheckSequenceVerify ⟨prims, checker, F, sigversion⟩ stack) := by
  unfold opCheckSequenceVerify
  cases hF : hasFlag F SCRIPT_VERIFY_CHECKSEQUENCEVERIFY with
  | false => exact .ok_unit_right _
  | true =>
    rw [hasFlag_mono hFG hF]
    cases stack with
    | nil => exact .refl _
    | cons top _ => exact .bind (scriptNum_refines (hasFlag_mono hFG) top 5) fun _ ↦ .refl _

theorem opConditional_refines (hFG : F &&& G = F) (notIf fExec : Bool) (s : EvalState) :
    Refines (opConditional ⟨prims, checker, G, sigversion⟩ notIf fExec s)
      (opConditional ⟨prims, checker, F, sigversion⟩ notIf fExec s) := by
  unfold opConditional
  refine .ite (.refl _) ?_
  cases s.stack with
  | nil => exact .refl _
  | cons vch rest =>
    exact .ite_of_imp (and_hasFlag_mono hFG) (.refl _) (.guard_left _ (.guard_left _ (.refl _)))
      (.refl _)

theorem opCheckSig_refines (hFG : F &&& G = F) (verifyAfter : Bool) (s : EvalState) :
    Refines (opCheckSig ⟨prims, checker, G, sigversion⟩ verifyAfter s)
      (opCheckSig ⟨prims, checker, F, sigversion⟩ verifyAfter s) := by
  unfold opCheckSig
  match s.stack with
  | vchPubKey :: vchSig :: rest =>
    refine .bind (CheckSignatureEncoding_refines hFG prims vchSig) fun _ ↦ ?_
    refine .bind (CheckPubKeyEncoding_refines hFG vchPubKey sigversion) fun _ ↦ ?_
    exact .guard (and_hasFlag_and_mono hFG) _ _ (.refl _)
  | [] => exact .refl _
  | [_] => exact .refl _
theorem multiSigLoop_refines (hFG : F &&& G = F) (scriptCode : List UInt8) :
    ∀ sigs keys : List valtype,
      Refines (multiSigLoop ⟨prims, checker, G, sigversion⟩ scriptCode sigs keys)
        (multiSigLoop ⟨prims, checker, F, sigversion⟩ scriptCode sigs keys)
  | [], _ => by
    unfold multiSigLoop
    exact .refl _
  | _ :: _, [] => by
    unfold multiSigLoop
    exact .refl _
  | vchSig :: sigs, vchPubKey :: keys => by
    rw [multiSigLoop, multiSigLoop]
    refine .bind (CheckSignatureEncoding_refines hFG prims vchSig) fun _ ↦ ?_
    refine .bind (CheckPubKeyEncoding_refines hFG vchPubKey sigversion) fun _ ↦ ?_
    exact .ite (.refl _) (multiSigLoop_refines hFG scriptCode _ keys)
termination_by _ keys => keys.length

theorem opCheckMultiSig_refines (hFG : F &&& G = F) (verifyAfter : Bool) (s : EvalState) :
    Refines (opCheckMultiSig ⟨prims, checker, G, sigversion⟩ verifyAfter s)
      (opCheckMultiSig ⟨prims, checker, F, sigversion⟩ verifyAfter s) := by
  unfold opCheckMultiSig
  cases s.stack with
  | nil => exact .refl _
  | cons top _ =>
    refine .bind (.refl _) fun top ↦ ?_
    refine .bind (scriptNum_refines (hasFlag_mono hFG) _ _) fun nKeys ↦ ?_
    refine .guard id _ _ (.guard id _ _ (.guard id _ _ ?_))
    refine .bind (scriptNum_refines (hasFlag_mono hFG) _ _) fun nSigs ↦ ?_
    refine .guard id _ _ (.guard id _ _ ?_)
    refine .bind (multiSigLoop_refines hFG _ _ _) fun fSuccess ↦ ?_
    refine .guard (and_hasFlag_and_mono hFG) _ _ ?_
    dsimp only
    split
    · exact .refl _
    · exact .guard (hasFlag_and_mono hFG) _ _ (.refl _)

theorem execOpcode_refines (hFG : F &&& G = F) (fExec : Bool) (opcode : UInt8)
    (pc : List UInt8) (s : EvalState) :
    Refines (execOpcode ⟨prims, checker, G, sigversion⟩ fExec opcode pc s)
      (execOpcode ⟨prims, checker, F, sigversion⟩ fExec opcode pc s) := by
  have hnum : ∀ vch,
      Refines (scriptNum vch (hasFlag G SCRIPT_VERIFY_MINIMALDATA) nDefaultMaxNumSize)
        (scriptNum vch (hasFlag F SCRIPT_VERIFY_MINIMALDATA) nDefaultMaxNumSize) :=
    fun vch ↦ scriptNum_refines (hasFlag_mono hFG) vch _
  unfold execOpcode
  cases opcodeCase opcode <;> dsimp only
  case checkLockTimeVerify =>
    exact .bind (opCheckLockTimeVerify_refines hFG s.stack) fun _ ↦ .refl _
  case checkSequenceVerify =>
    exact .bind (opCheckSequenceVerify_refines hFG s.stack) fun _ ↦ .refl _
  case upgradableNop => exact .guard (hasFlag_mono hFG) _ _ (.refl _)
  case conditional notIf => exact opConditional_refines hFG notIf fExec s
  case pickRoll =>
    split
    · exact .bind (hnum _) fun _ ↦ .refl _
    · exact .refl _
  case unary =>
    split
    · exact .bind (hnum _) fun _ ↦ .refl _
    · exact .refl _
  case binary =>
    split
    · exact .bind (hnum _) fun _ ↦ .bind (hnum _) fun _ ↦ .refl _
    · exact .refl _
  case within =>
    split
    · exact .bind (hnum _) fun _ ↦ .bind (hnum _) fun _ ↦ .bind (hnum _) fun _ ↦ .refl _
    · exact .refl _
  case checkSig verifyAfter => exact .bind (opCheckSig_refines hFG verifyAfter s) fun _ ↦ .refl _
  case checkMultiSig verifyAfter => exact opCheckMultiSig_refines hFG verifyAfter s
  -- the other cases do not read the flags
  all_goals exact .refl _

/-! ### The loop -/

/-- One pass of `EvalScript`'s loop: the step lemma. -/
theorem evalStep_refines (hFG : F &&& G = F) (opcode : UInt8) (vchPushValue : valtype)
    (pc : List UInt8) (s : EvalState) :
    Refines (evalStep ⟨prims, checker, G, sigversion⟩ opcode vchPushValue pc s)
      (evalStep ⟨prims, checker, F, sigversion⟩ opcode vchPushValue pc s) := by
  unfold evalStep
  refine .guard id _ _ (.guard id _ _ (.guard id _ _ (.ite ?_ (.ite ?_ (.refl _)))))
  · exact .guard (hasFlag_and_mono hFG) _ _ (.refl _)
  · exact .bind (execOpcode_refines hFG _ _ _ _) fun _ ↦ .refl _

/-- The whole loop, by induction on the script left to run: the run lemma. -/
theorem evalLoop_refines (hFG : F &&& G = F) (pc : List UInt8) (s : EvalState) :
    Refines (evalLoop ⟨prims, checker, G, sigversion⟩ pc s)
      (evalLoop ⟨prims, checker, F, sigversion⟩ pc s) := by
  rw [evalLoop, evalLoop]
  refine .ite (.refl _) ?_
  split
  · exact .refl _
  · rename_i opcode vchPushValue rest hop
    have := length_lt_of_GetOp hop
    exact .bind (evalStep_refines hFG opcode vchPushValue rest s) fun s' ↦
      evalLoop_refines hFG rest s'
termination_by pc.length

theorem EvalScript_refines (hFG : F &&& G = F) (stack : List valtype) (script : List UInt8) :
    Refines (EvalScript ⟨prims, checker, G, sigversion⟩ stack script)
      (EvalScript ⟨prims, checker, F, sigversion⟩ stack script) := by
  unfold EvalScript
  exact .guard id _ _ (.bind (evalLoop_refines hFG _ _) fun _ ↦ .refl _)

/-! ### The stages of `VerifyScript` -/

theorem witnessScript_refines (hFG : F &&& G = F) (witness : List valtype) (witversion : ℤ)
    (program : valtype) :
    Refines (witnessScript prims witness witversion program G)
      (witnessScript prims witness witversion program F) := by
  unfold witnessScript
  exact .ite (.refl _) (.guard (hasFlag_mono hFG) _ _ (.refl _))

theorem VerifyWitnessProgram_refines (hFG : F &&& G = F) (witness : List valtype)
    (witversion : ℤ) (program : valtype) :
    Refines (VerifyWitnessProgram prims checker witness witversion program G)
      (VerifyWitnessProgram prims checker witness witversion program F) := by
  unfold VerifyWitnessProgram
  refine .bind (witnessScript_refines hFG witness witversion program) fun r ↦ ?_
  rcases r with _ | ⟨stack, scriptPubKey⟩
  · exact .refl _
  · exact .guard id _ _ (.bind (EvalScript_refines hFG _ _) fun _ ↦ .refl _)

section Stages

variable {scriptSig : List UInt8} {witness : List valtype}

theorem verifyWitness_refines (hFG : F &&& G = F) (hW : hasFlag F SCRIPT_VERIFY_WITNESS = true)
    (scriptSigExpected script : List UInt8) (malleated : ScriptError) (stack : List valtype) :
    Refines
      (verifyWitness prims checker scriptSig scriptSigExpected script witness G malleated stack)
      (verifyWitness prims checker scriptSig scriptSigExpected script witness F malleated stack) := by
  unfold verifyWitness
  rw [hW, hasFlag_mono hFG hW]
  refine .ite (.refl _) ?_
  split
  · exact .refl _
  · exact .guard id _ _ (.bind (VerifyWitnessProgram_refines hFG _ _ _) fun _ ↦ .refl _)

theorem verifyScripts_refines (hFG : F &&& G = F)
    (hP : hasFlag F SCRIPT_VERIFY_P2SH = hasFlag G SCRIPT_VERIFY_P2SH) (scriptPubKey : List UInt8) :
    Refines (verifyScripts prims checker scriptSig scriptPubKey G)
      (verifyScripts prims checker scriptSig scriptPubKey F) := by
  unfold verifyScripts
  refine .guard (hasFlag_and_mono hFG) _ _ (.bind (EvalScript_refines hFG _ _) fun stack ↦ ?_)
  rw [hP]
  exact .bind (EvalScript_refines hFG _ _) fun _ ↦ .refl _

/-- Under fewer flags the scripts leave the same stack; the copy kept for pay-to-script-hash is
the same when both keep one. -/
theorem verifyScripts_of_ok (hFG : F &&& G = F) {scriptPubKey : List UInt8}
    {stack stackCopy : List valtype}
    (h : verifyScripts prims checker scriptSig scriptPubKey G = .ok (stack, stackCopy)) :
    verifyScripts prims checker scriptSig scriptPubKey F =
      .ok (stack, if hasFlag F SCRIPT_VERIFY_P2SH then stackCopy else []) := by
  cases hP : hasFlag F SCRIPT_VERIFY_P2SH with
  | true => exact verifyScripts_refines hFG (hP.trans (hasFlag_mono hFG hP).symm) _ _ h
  | false =>
    unfold verifyScripts at h ⊢
    dsimp only at h ⊢
    have hpush : ¬ (hasFlag G SCRIPT_VERIFY_SIGPUSHONLY && !IsPushOnly scriptSig) = true := by
      intro hc
      rw [if_pos hc] at h
      cases h
    rw [if_neg hpush] at h
    rw [if_neg (mt (hasFlag_and_mono hFG) hpush)]
    obtain ⟨stack₁, h₁, h⟩ := bind_eq_ok.mp h
    obtain ⟨stack₂, h₂, h⟩ := bind_eq_ok.mp h
    rw [EvalScript_refines hFG _ _ _ h₁, ok_bind, EvalScript_refines hFG _ _ _ h₂, ok_bind, hP]
    -- the check on the result is the same; only the copy differs
    rcases stack₂ with _ | ⟨top, rest⟩
    · cases h
    · dsimp only at h ⊢
      by_cases htop : CastToBool top = true
      · rw [if_pos htop] at h ⊢
        obtain ⟨rfl, -⟩ := Prod.mk.inj (Except.ok.inj h)
        rfl
      · rw [if_neg htop] at h
        cases h

theorem verifyP2SH_refines (hFG : F &&& G = F) (hW : hasFlag F SCRIPT_VERIFY_WITNESS = true)
    (stackCopy : List valtype) :
    Refines (verifyP2SH prims checker scriptSig witness G stackCopy)
      (verifyP2SH prims checker scriptSig witness F stackCopy) := by
  unfold verifyP2SH
  refine .ite (.refl _) ?_
  split
  · exact .refl _
  · refine .mapError _ (.bind (EvalScript_refines hFG _ _) fun stack ↦ ?_)
    split
    · exact .refl _
    · exact .guard id _ _ (verifyWitness_refines hFG hW _ _ _ _)

/-- Without `WITNESS` the redeem script's witness program is not looked at: the redeem script
alone decides, and it runs under fewer flags as it did under more. -/
theorem verifyP2SH_ok_of_ok (hFG : F &&& G = F) {stackCopy : List valtype}
    {r : Bool × List valtype}
    (h : verifyP2SH prims checker scriptSig witness G stackCopy = .ok r) :
    ∃ r', verifyP2SH prims checker scriptSig witness F stackCopy = .ok r' := by
  cases hW : hasFlag F SCRIPT_VERIFY_WITNESS with
  | true => exact ⟨r, verifyP2SH_refines hFG hW _ _ h⟩
  | false =>
    unfold verifyP2SH at h ⊢
    by_cases hpush : (!IsPushOnly scriptSig) = true
    · rw [if_pos hpush] at h
      cases h
    rw [if_neg hpush] at h ⊢
    rcases stackCopy with _ | ⟨pubKeySerialized, stack⟩
    · cases h
    dsimp only at h ⊢
    obtain ⟨stack₂, h₂, h⟩ := bind_eq_ok.mp (mapError_eq_ok.mp h)
    rcases stack₂ with _ | ⟨top, rest⟩
    · cases h
    dsimp only at h
    have htop : ¬ (!CastToBool top) = true := by
      intro hc
      rw [if_pos hc] at h
      cases h
    refine ⟨(false, top :: rest), mapError_eq_ok.mpr ?_⟩
    rw [EvalScript_refines hFG _ _ _ h₂, ok_bind]
    simp only [if_neg htop, verifyWitness, hW]
    rfl

end Stages

/-- With `WITNESS`, and so `P2SH`, in the subset, every stage runs under `F` as under `G`; only
`CLEANSTACK` may be on under `G` alone, and it only rejects. -/
theorem VerifyScript_refines_of_witness (hFG : F &&& G = F)
    (hP : hasFlag F SCRIPT_VERIFY_P2SH = true) (hW : hasFlag F SCRIPT_VERIFY_WITNESS = true)
    (scriptSig scriptPubKey : List UInt8) (witness : List valtype) :
    Refines (VerifyScript prims scriptSig scriptPubKey witness G checker)
      (VerifyScript prims scriptSig scriptPubKey witness F checker) := by
  have hGP := hasFlag_mono hFG hP
  have hGW := hasFlag_mono hFG hW
  unfold VerifyScript
  refine .bind (.mapError _ (verifyScripts_refines hFG (hP.trans hGP.symm) _))
    fun ⟨stack, stackCopy⟩ ↦ ?_
  refine .bind (.mapError _ (verifyWitness_refines hFG hW _ _ _ _))
    fun ⟨hadWitness, stack⟩ ↦ ?_
  simp only [hP, hGP, hW, hGW, Bool.true_and, Bool.not_true, Bool.false_eq_true, if_false,
    if_true]
  -- past the stages only the clean-stack check may be off under `F` and on under `G`
  refine .ite (.bind (verifyP2SH_refines hFG hW _) fun _ ↦ .bind (.refl _) fun _ ↦ ?_)
    (.bind (.refl _) fun _ ↦ ?_) <;>
  exact .ite_of_imp (hasFlag_mono hFG) (.refl _) (.guard_left _ (.refl _)) (.refl _)

end FlagSubset

/-- `VerifyScript`'s own preconditions on its flags, the conditions of its `assert`s:
`CLEANSTACK` only with `P2SH` and `WITNESS`, and `WITNESS` only with `P2SH`. -/
def FlagsConsistent (flags : UInt32) : Prop :=
  (hasFlag flags SCRIPT_VERIFY_CLEANSTACK = true →
      hasFlag flags SCRIPT_VERIFY_P2SH = true ∧ hasFlag flags SCRIPT_VERIFY_WITNESS = true) ∧
    (hasFlag flags SCRIPT_VERIFY_WITNESS = true → hasFlag flags SCRIPT_VERIFY_P2SH = true)

instance : DecidablePred FlagsConsistent := fun _ ↦ inferInstanceAs (Decidable (_ ∧ _))

/-- Script verification flags are monotone: a spend that verifies under a set of flags verifies
under any subset that meets `VerifyScript`'s preconditions. So a soft fork that adds flags never
makes a valid spend under the old rules invalid under the old rules. -/
theorem VerifyScript_flags_monotone (prims : ScriptPrimitives)
    (scriptSig scriptPubKey : List UInt8) (witness : List valtype) (checker : BaseSignatureChecker)
    {F G : UInt32}
    (hFG : F &&& G = F) (hF : FlagsConsistent F)
    (h : VerifyScript prims scriptSig scriptPubKey witness G checker = .ok ()) :
    VerifyScript prims scriptSig scriptPubKey witness F checker = .ok () := by
  cases hW : hasFlag F SCRIPT_VERIFY_WITNESS with
  | true => exact VerifyScript_refines_of_witness hFG (hF.2 hW) hW _ _ _ () h
  | false =>
    -- without `WITNESS` there is no `CLEANSTACK` either, and no final check under `F`
    have hCS : hasFlag F SCRIPT_VERIFY_CLEANSTACK = false := by
      cases hc : hasFlag F SCRIPT_VERIFY_CLEANSTACK
      · rfl
      · exact absurd (hF.1 hc).2 (by rw [hW]; decide)
    unfold VerifyScript at h ⊢
    obtain ⟨⟨stack, stackCopy⟩, h₁, h⟩ := bind_eq_ok.mp h
    rw [verifyScripts_of_ok hFG (mapError_eq_ok.mp h₁)]
    simp only [verifyWitness, hW, hCS, Except.mapError, ok_bind, Bool.not_false, if_true,
      Bool.false_eq_true, if_false, pure_eq_ok]
    -- only the redeem script is left to run under `F`, and it ran under `G`
    by_cases hc : (hasFlag F SCRIPT_VERIFY_P2SH && IsPayToScriptHash scriptPubKey) = true
    · rw [if_pos hc, if_pos (Bool.and_eq_true_iff.mp hc).1]
      dsimp only at h
      obtain ⟨⟨hadWitness, stack₂⟩, -, h⟩ := bind_eq_ok.mp h
      dsimp only at h
      rw [if_pos (hasFlag_and_mono hFG hc)] at h
      obtain ⟨r, h₃, -⟩ := bind_eq_ok.mp h
      obtain ⟨r', hr'⟩ := verifyP2SH_ok_of_ok hFG h₃
      rw [hr']
      rfl
    · rw [if_neg hc]

/-- Hash functions and a low-`s` test that accept everything. -/
def identityPrimitives : ScriptPrimitives := ⟨id, id, id, fun _ ↦ true⟩

/-- A signature checker that accepts every signature and lock time. -/
def acceptingChecker : BaseSignatureChecker :=
  ⟨fun _ _ _ _ ↦ true, fun _ ↦ true, fun _ ↦ true⟩

theorem VerifyScript_flags_monotone_on_true_script :
    VerifyScript identityPrimitives [] [OP_1] [] SCRIPT_VERIFY_P2SH acceptingChecker = .ok () :=
  @VerifyScript_flags_monotone identityPrimitives [] [OP_1] [] acceptingChecker SCRIPT_VERIFY_P2SH
    (SCRIPT_VERIFY_P2SH ||| SCRIPT_VERIFY_WITNESS ||| SCRIPT_VERIFY_CLEANSTACK) (by decide)
    (by decide) (by decide +kernel)

end LightningCash
