import LightningCash.Lib.Brackets
import LightningCash.Lib.Except
import LightningCash.Script.Encoding
import LightningCash.Script.FlagMonotone

/-!
# The conditionals of `EvalScript` are well nested

`vfExec` holds one entry per conditional open at the current opcode, innermost first: whether
the branch being read is taken. `OP_IF` and `OP_NOTIF` push an entry even where they are not
executed (then `false`, without reading the stack), `OP_ELSE` toggles the innermost one,
`OP_ENDIF` pops it, and every other opcode runs exactly when no entry is `false`.

Read through `bracketOf`, the opcodes of a script are a word of `Brackets.Bracket`, and
`vfExec` is the counter of `Brackets.depthAfter`: at every state the loop reaches, its length is
the depth of the opcodes read so far (`LoopSteps.depthAfter`). `OP_ELSE` and `OP_ENDIF` fail on
an empty `vfExec` and `EvalScript` fails on a non-empty one at the end, so a script that runs is
balanced, and by `Brackets.balanced_iff_nested` well nested.

The step lemma `evalStep_branchStep` says what one pass does to the conditionals, for every
opcode and every state; it is proved with the postcondition rules of `Lib.Except`, which follow
the `do` blocks of `evalStep` and `execOpcode` check by check.
-/

namespace LightningCash

open Except ScriptError SigVersion Brackets

/-- `OP_NOTIF`. -/
def OP_NOTIF : UInt8 := 0x64

/-- The part an opcode plays in the nesting: the `case` labels `OP_IF`/`OP_NOTIF`, `OP_ELSE`
and `OP_ENDIF`, and everything else. -/
def bracketOf (opcode : UInt8) : Bracket :=
  match opcodeCase opcode with
  | .conditional _ => .opening
  | .opElse => .separator
  | .opEndIf => .closing
  | _ => .other

/-- The opcodes `GetOp` reads from a script up to its end, or `none` where one does not
parse. -/
def scriptOps (pc : List UInt8) : Option (List UInt8) :=
  if pc.isEmpty then some [] else
  match h : GetOp pc with
  | none => none
  | some (opcode, _, rest) => (scriptOps rest).map (opcode :: ·)
termination_by pc.length
decreasing_by exact length_lt_of_GetOp h

/-- The loop of `EvalScript` goes from the script left `pc` and the state `s` to `pc'` and
`s'`, reading the opcodes `ops`, every pass succeeding. -/
inductive LoopSteps (ctx : ScriptContext) :
    List UInt8 → EvalState → List UInt8 → List UInt8 → EvalState → Prop
  | refl (pc : List UInt8) (s : EvalState) : LoopSteps ctx pc s [] pc s
  | step {pc rest pc' ops : List UInt8} {s s₁ s' : EvalState} {opcode : UInt8} {vch : valtype} :
      GetOp pc = some (opcode, vch, rest) → evalStep ctx opcode vch rest s = .ok s₁ →
      LoopSteps ctx rest s₁ ops pc' s' → LoopSteps ctx pc s (opcode :: ops) pc' s'

/-! ## What one pass does to the conditionals -/

/-- Running an opcode: a push puts its data on the stack; any other opcode is its case of the
`switch`. -/
def Executes (ctx : ScriptContext) (opcode : UInt8) (vch : valtype) (pc : List UInt8)
    (s s' : EvalState) : Prop :=
  if opcode ≤ OP_PUSHDATA4 then s' = { s with stack := vch :: s.stack }
  else execOpcode ctx true opcode pc s = .ok s'

/-- One pass of the loop from `s` to `s'` on `opcode`, as the conditionals see it. `OP_IF` and
`OP_NOTIF` open a branch: inside a branch not taken, one not taken and the stack untouched;
otherwise the branch its popped condition selects. `OP_ELSE` toggles the innermost branch and
`OP_ENDIF` closes it, both needing one open. Any other opcode leaves the branches as they are,
and runs exactly when every open branch is taken: skipped, it changes nothing but the operation
count. -/
def BranchStep (ctx : ScriptContext) (opcode : UInt8) (vch : valtype) (pc : List UInt8)
    (s s' : EvalState) : Prop :=
  match bracketOf opcode with
  | .opening =>
    if false ∈ s.vfExec then s'.vfExec = false :: s.vfExec ∧ s'.stack = s.stack
    else ∃ top rest, s.stack = top :: rest ∧ s'.stack = rest ∧
      s'.vfExec = (if opcode = OP_NOTIF then !CastToBool top else CastToBool top) :: s.vfExec
  | .separator => ∃ b bs, s.vfExec = b :: bs ∧ s'.vfExec = (!b) :: bs
  | .closing => ∃ b, s.vfExec = b :: s'.vfExec
  | .other =>
    s'.vfExec = s.vfExec ∧
      if false ∈ s.vfExec then ∃ n, s' = { s with nOpCount := n }
      else ∃ n, Executes ctx opcode vch pc { s with nOpCount := n } s'

section BranchStep

variable {ctx : ScriptContext} {opcode : UInt8} {vch : valtype} {pc : List UInt8}
  {s s' : EvalState}

theorem branchStep_of_opening (hb : bracketOf opcode = .opening) :
    BranchStep ctx opcode vch pc s s' ↔
      if false ∈ s.vfExec then s'.vfExec = false :: s.vfExec ∧ s'.stack = s.stack
      else ∃ top rest, s.stack = top :: rest ∧ s'.stack = rest ∧
        s'.vfExec = (if opcode = OP_NOTIF then !CastToBool top else CastToBool top) :: s.vfExec := by
  rw [BranchStep, hb]

theorem branchStep_of_separator (hb : bracketOf opcode = .separator) :
    BranchStep ctx opcode vch pc s s' ↔ ∃ b bs, s.vfExec = b :: bs ∧ s'.vfExec = (!b) :: bs := by
  rw [BranchStep, hb]

theorem branchStep_of_closing (hb : bracketOf opcode = .closing) :
    BranchStep ctx opcode vch pc s s' ↔ ∃ b, s.vfExec = b :: s'.vfExec := by
  rw [BranchStep, hb]

theorem branchStep_of_other (hb : bracketOf opcode = .other) :
    BranchStep ctx opcode vch pc s s' ↔ s'.vfExec = s.vfExec ∧
      if false ∈ s.vfExec then ∃ n, s' = { s with nOpCount := n }
      else ∃ n, Executes ctx opcode vch pc { s with nOpCount := n } s' := by
  rw [BranchStep, hb]

end BranchStep

/-! ## The four opcodes of the conditionals -/

@[simp] theorem toNat_OP_IF : OP_IF.toNat = 99 := rfl

@[simp] theorem toNat_OP_NOTIF : OP_NOTIF.toNat = 100 := rfl

@[simp] theorem toNat_OP_ENDIF : OP_ENDIF.toNat = 104 := rfl

/-- The opcodes of the conditionals, read back from their cases of the `switch`. -/
theorem toNat_of_opcodeCase (opcode : UInt8) :
    (∀ notIf, opcodeCase opcode = .conditional notIf →
      opcode.toNat = if notIf then 100 else 99) ∧
    (opcodeCase opcode = .opElse → opcode.toNat = 103) ∧
    (opcodeCase opcode = .opEndIf → opcode.toNat = 104) := by
  unfold opcodeCase
  split <;> refine ⟨fun _ h ↦ ?_, fun h ↦ ?_, fun h ↦ ?_⟩ <;> cases h <;> assumption

/-- A conditional is no push, and is dispatched even in a branch not taken. -/
theorem range_of_bracketOf {opcode : UInt8} (h : bracketOf opcode ≠ .other) :
    ¬opcode ≤ OP_PUSHDATA4 ∧ OP_IF ≤ opcode ∧ opcode ≤ OP_ENDIF := by
  obtain ⟨hif, helse, hendif⟩ := toNat_of_opcodeCase opcode
  have hn : 99 ≤ opcode.toNat ∧ opcode.toNat ≤ 104 := by
    unfold bracketOf at h
    split at h
    · rename_i notIf hc
      have := hif notIf hc
      split at this <;> omega
    · rename_i hc; have := helse hc; omega
    · rename_i hc; have := hendif hc; omega
    · exact absurd rfl h
  simp only [UInt8.le_iff_toNat_le, toNat_OP_PUSHDATA4, toNat_OP_IF, toNat_OP_ENDIF]
  omega

theorem opcodeCase_of_opening {opcode : UInt8} (h : bracketOf opcode = .opening) :
    opcodeCase opcode = .conditional (decide (opcode = OP_NOTIF)) := by
  unfold bracketOf at h
  split at h
  · rename_i notIf hc
    have hn := (toNat_of_opcodeCase opcode).1 notIf hc
    rw [hc]
    cases notIf
    · simp only [Bool.false_eq_true, if_false] at hn
      simp [← UInt8.toNat_inj, hn]
    · simp only [if_true] at hn
      simp [← UInt8.toNat_inj, hn]
  all_goals cases h

theorem opcodeCase_of_separator {opcode : UInt8} (h : bracketOf opcode = .separator) :
    opcodeCase opcode = .opElse := by
  unfold bracketOf at h
  split at h <;> first | assumption | cases h

theorem opcodeCase_of_closing {opcode : UInt8} (h : bracketOf opcode = .closing) :
    opcodeCase opcode = .opEndIf := by
  unfold bracketOf at h
  split at h <;> first | assumption | cases h

/-- Between `OP_IF` and `OP_ENDIF`, the opcodes no conditional are `OP_VERIF` and
`OP_VERNOTIF`, for which the `switch` has no case. -/
theorem opcodeCase_of_other_of_range {opcode : UInt8} (h : bracketOf opcode = .other)
    (h₁ : OP_IF ≤ opcode) (h₂ : opcode ≤ OP_ENDIF) : opcodeCase opcode = .bad := by
  rw [UInt8.le_iff_toNat_le, toNat_OP_IF] at h₁
  rw [UInt8.le_iff_toNat_le, toNat_OP_ENDIF] at h₂
  obtain ⟨n, hn⟩ : ∃ n : Fin 6, opcode = (99 + n.val).toUInt8 := by
    refine ⟨⟨opcode.toNat - 99, by omega⟩, ?_⟩
    rw [← UInt8.toNat_inj, toNat_toUInt8_of_lt (by simp only; omega)]
    simp only
    omega
  subst hn
  fin_cases n <;> first | rfl | exact absurd h (by decide)

/-! ## The other opcodes leave the branches alone -/

theorem opCheckMultiSig_vfExec (ctx : ScriptContext) (verifyAfter : Bool) (s : EvalState) :
    SatisfiesM (fun s' : EvalState ↦ s'.vfExec = s.vfExec) (opCheckMultiSig ctx verifyAfter s) := by
  unfold opCheckMultiSig
  cases s.stack with
  | nil => exact satisfiesM_error _
  | cons top _ =>
    -- the key count and its checks
    refine .bind_pre (.pure ?_)
    refine .bind_pre (.of_true fun nKeys ↦ ?_)
    refine satisfiesM_guard fun _ ↦ satisfiesM_guard fun _ ↦ satisfiesM_guard fun _ ↦ ?_
    -- the signature count and its checks
    refine .bind_pre (.of_true fun nSigs ↦ ?_)
    refine satisfiesM_guard fun _ ↦ satisfiesM_guard fun _ ↦ ?_
    -- the signature loop, `NULLFAIL`, the extra element
    refine .bind_pre (.of_true fun fSuccess ↦ ?_)
    refine satisfiesM_guard fun _ ↦ ?_
    dsimp only
    split
    · exact satisfiesM_error _
    · exact satisfiesM_guard fun _ ↦ satisfiesM_guard fun _ ↦ .pure rfl

/-- A case of the `switch` that is no conditional leaves the branches as they are. -/
theorem execOpcode_vfExec {opcode : UInt8} (h : bracketOf opcode = .other) (ctx : ScriptContext)
    (fExec : Bool) (pc : List UInt8) (s : EvalState) :
    SatisfiesM (fun s' : EvalState ↦ s'.vfExec = s.vfExec) (execOpcode ctx fExec opcode pc s) := by
  unfold bracketOf at h
  unfold execOpcode
  dsimp only
  generalize opcodeCase opcode = c at h ⊢
  cases c <;> dsimp only at h ⊢
  case conditional | opElse | opEndIf => cases h
  case smallInt | nop | codeSeparator => exact .pure rfl
  case opReturn | bad => exact satisfiesM_error _
  case checkLockTimeVerify | checkSequenceVerify => exact .bind_pre (.of_true fun _ ↦ .pure rfl)
  case stack | checkSig => exact .bind_pre (.of_true fun _ ↦ .pure rfl)
  case upgradableNop => exact satisfiesM_ite (fun _ ↦ satisfiesM_error _) fun _ ↦ .pure rfl
  case checkMultiSig verifyAfter => exact opCheckMultiSig_vfExec ctx verifyAfter s
  case verify =>
    split
    · exact satisfiesM_error _
    · exact satisfiesM_ite (fun _ ↦ .pure rfl) fun _ ↦ satisfiesM_error _
  case toAltStack | fromAltStack =>
    split
    · exact satisfiesM_error _
    · exact .pure rfl
  case hash =>
    split
    · exact .pure rfl
    · exact satisfiesM_error _
  case pickRoll =>
    split
    · exact .bind_pre (.of_true fun _ ↦ satisfiesM_guard fun _ ↦ .pure rfl)
    · exact satisfiesM_error _
  case equal =>
    split
    · split
      · exact satisfiesM_ite (fun _ ↦ .pure rfl) fun _ ↦ satisfiesM_error _
      · exact .pure rfl
    · exact satisfiesM_error _
  case unary =>
    split
    · exact .bind_pre (.of_true fun _ ↦ .pure rfl)
    · exact satisfiesM_error _
  case binary =>
    split
    · refine .bind_pre (.of_true fun _ ↦ .bind_pre (.of_true fun _ ↦ ?_))
      split
      · exact satisfiesM_ite (fun _ ↦ .pure rfl) fun _ ↦ satisfiesM_error _
      · exact .pure rfl
    · exact satisfiesM_error _
  case within =>
    split
    · exact .bind_pre (.of_true fun _ ↦ .bind_pre (.of_true fun _ ↦
        .bind_pre (.of_true fun _ ↦ .pure rfl)))
    · exact satisfiesM_error _

/-! ## The step lemma -/

/-- `OP_IF` and `OP_NOTIF` where executed: the condition popped opens the branch. -/
theorem opConditional_exec (ctx : ScriptContext) (notIf : Bool) (s : EvalState) :
    SatisfiesM (fun s' : EvalState ↦ ∃ top rest, s.stack = top :: rest ∧ s'.stack = rest ∧
        s'.vfExec = (if notIf then !CastToBool top else CastToBool top) :: s.vfExec)
      (opConditional ctx notIf true s) := by
  unfold opConditional
  rw [if_neg (by decide)]
  cases hstack : s.stack with
  | nil => exact satisfiesM_error _
  | cons top rest =>
    -- the `MINIMALIF` checks throw or fall through to the same push
    exact satisfiesM_ite
      (fun _ ↦ satisfiesM_guard fun _ ↦ satisfiesM_guard fun _ ↦ .pure ⟨top, rest, rfl, rfl, rfl⟩)
      fun _ ↦ .pure ⟨top, rest, rfl, rfl, rfl⟩

/-- What one pass does to the conditionals, for every opcode and every state. -/
theorem evalStep_branchStep (ctx : ScriptContext) (opcode : UInt8) (vch : valtype)
    (pc : List UInt8) (s : EvalState) :
    SatisfiesM (BranchStep ctx opcode vch pc s) (evalStep ctx opcode vch pc s) := by
  unfold evalStep
  refine satisfiesM_guard fun _ ↦ satisfiesM_guard fun _ ↦ satisfiesM_guard fun _ ↦ ?_
  dsimp only
  -- the stack size check after the pass keeps what the pass did
  have hsize : ∀ {x : Except ScriptError EvalState},
      SatisfiesM (BranchStep ctx opcode vch pc s) x →
      SatisfiesM (BranchStep ctx opcode vch pc s) (x >>= fun s' ↦
        if s'.stack.length + s'.altstack.length > MAX_STACK_SIZE then
          (throw SCRIPT_ERR_STACK_SIZE : Except ScriptError Unit) >>= fun _ ↦ pure s'
        else pure s') :=
    fun hx ↦ .bind_pre (.imp hx fun h ↦ satisfiesM_guard fun _ ↦ .pure h)
  have hmem : s.vfExec.contains false = decide (false ∈ s.vfExec) := by simp
  rw [hmem]
  by_cases hother : bracketOf opcode = .other
  · by_cases hf : false ∈ s.vfExec
    · -- inside a branch not taken: no push, and only `OP_VERIF` and `OP_VERNOTIF` reach the
      -- `switch`, where they fail
      simp only [hf, decide_true, Bool.not_true, Bool.false_eq_true, false_and, false_or,
        if_false]
      split
      · rename_i hrange
        refine hsize ?_
        unfold execOpcode
        simp only [opcodeCase_of_other_of_range hother hrange.1 hrange.2]
        exact satisfiesM_error _
      · exact hsize (.pure ((branchStep_of_other hother).2 ⟨rfl, by simp [hf]⟩))
    · -- every branch taken: the opcode runs
      simp only [hf, decide_false, Bool.not_false, true_and, true_or, if_true]
      split
      · rename_i hpush
        exact satisfiesM_guard fun _ ↦
          hsize (.pure ((branchStep_of_other hother).2 ⟨rfl, by simp [hf, Executes, hpush]⟩))
      · rename_i hpush
        refine hsize (SatisfiesM_Except_eq.2 fun s' h ↦ ?_)
        have hvf := of_satisfiesM (execOpcode_vfExec hother ctx _ pc _) h
        refine (branchStep_of_other hother).2 ⟨hvf, ?_⟩
        rw [if_neg hf]
        exact ⟨_, by rw [Executes, if_neg hpush]; exact h⟩
  · -- a conditional: no push, and dispatched to its case of the `switch`, executed or not
    obtain ⟨hpush, hlo, hhi⟩ := range_of_bracketOf hother
    rw [if_neg (fun h ↦ hpush h.2), if_pos (Or.inr ⟨hlo, hhi⟩)]
    refine hsize ?_
    unfold execOpcode
    cases hb : bracketOf opcode with
    | opening =>
      simp only [opcodeCase_of_opening hb]
      by_cases hf : false ∈ s.vfExec
      · simp only [hf, decide_true, Bool.not_true]
        exact .pure ((branchStep_of_opening hb).2 (by simp [hf]))
      · simp only [hf, decide_false, Bool.not_false]
        refine SatisfiesM.imp (opConditional_exec ctx _ _) fun h ↦ ?_
        rw [branchStep_of_opening hb, if_neg hf]
        simpa using h
    | separator =>
      simp only [opcodeCase_of_separator hb]
      split
      · exact satisfiesM_error _
      · rename_i b bs hvf
        exact .pure ((branchStep_of_separator hb).2 ⟨b, bs, hvf, rfl⟩)
    | closing =>
      simp only [opcodeCase_of_closing hb]
      split
      · exact satisfiesM_error _
      · rename_i b bs hvf
        exact .pure ((branchStep_of_closing hb).2 ⟨b, hvf⟩)
    | other => exact absurd hb hother

/-- One pass moves the depth of the conditionals as its opcode's bracket does. -/
theorem BranchStep.depthAfter {ctx : ScriptContext} {opcode : UInt8} {vch : valtype}
    {pc : List UInt8} {s s' : EvalState} (h : BranchStep ctx opcode vch pc s s') :
    Brackets.depthAfter s.vfExec.length [bracketOf opcode] = some s'.vfExec.length := by
  cases hb : bracketOf opcode with
  | opening =>
    rw [branchStep_of_opening hb] at h
    -- either way, one entry more
    have hlen : s'.vfExec.length = s.vfExec.length + 1 := by
      by_cases hf : false ∈ s.vfExec
      · rw [if_pos hf] at h
        simp [h.1]
      · rw [if_neg hf] at h
        obtain ⟨_, _, _, _, hvf⟩ := h
        simp [hvf]
    simp [hlen]
  | separator =>
    obtain ⟨b, bs, hvf, hvf'⟩ := (branchStep_of_separator hb).1 h
    simp [hvf, hvf']
  | closing =>
    obtain ⟨b, hvf⟩ := (branchStep_of_closing hb).1 h
    simp [hvf]
  | other =>
    obtain ⟨hvf, -⟩ := (branchStep_of_other hb).1 h
    simp [hvf]

/-! ## Whole runs of the loop -/

/-- The invariant of the loop: `vfExec` has one entry per conditional open after the opcodes
read. The induction is on the passes, through `BranchStep.depthAfter` for each. -/
theorem LoopSteps.depthAfter {ctx : ScriptContext} {pc pc' ops : List UInt8} {s s' : EvalState}
    (h : LoopSteps ctx pc s ops pc' s') :
    Brackets.depthAfter s.vfExec.length (ops.map bracketOf) = some s'.vfExec.length := by
  induction h with
  | refl => simp
  | step _ hstep _ ih =>
    rw [List.map_cons, ← List.singleton_append, depthAfter_append,
      (of_satisfiesM (evalStep_branchStep ..) hstep).depthAfter, Option.bind_some, ih]

/-- A run of the loop is a chain of its passes, reading the opcodes of the script. -/
theorem evalLoop_loopSteps (ctx : ScriptContext) :
    ∀ (pc : List UInt8) (s s' : EvalState), evalLoop ctx pc s = .ok s' →
      ∃ ops, LoopSteps ctx pc s ops [] s'
  | pc, s, s', h => by
    rw [evalLoop] at h
    split at h
    · rename_i hempty
      cases h
      rw [List.isEmpty_iff.1 hempty]
      exact ⟨[], .refl [] s⟩
    · split at h
      · cases h
      · rename_i opcode vch rest hop
        have := length_lt_of_GetOp hop
        obtain ⟨s₁, hstep, hloop⟩ := bind_eq_ok.1 h
        obtain ⟨ops, hops⟩ := evalLoop_loopSteps ctx rest s₁ s' hloop
        exact ⟨opcode :: ops, .step hop hstep hops⟩
termination_by pc => pc.length

/-- A run to the end of the script read every opcode of it. -/
theorem LoopSteps.scriptOps_eq {ctx : ScriptContext} {pc pc' ops : List UInt8}
    {s s' : EvalState} (h : LoopSteps ctx pc s ops pc' s') (hend : pc' = []) :
    scriptOps pc = some ops := by
  induction h with
  | refl => subst hend; rw [scriptOps]; rfl
  | @step pc rest pc' ops s s₁ s' opcode vch hop hstep hsteps ih =>
    have hne : pc.isEmpty = false := by
      cases pc with
      | nil => cases hop
      | cons => rfl
    rw [scriptOps, if_neg (by simp [hne])]
    split
    · rename_i hnone
      rw [hop] at hnone
      cases hnone
    · rename_i opcode' vch' rest' hsome
      rw [hop] at hsome
      cases hsome
      rw [ih hend]
      rfl

/-- `EvalScript` succeeded: its loop ran to the end of the script and left no conditional
open. -/
theorem loop_of_EvalScript {ctx : ScriptContext} {stack script stack' : List _}
    (h : EvalScript ctx stack script = .ok stack') :
    ∃ s, evalLoop ctx script ⟨stack, [], [], 0, script⟩ = .ok s ∧ s.vfExec = [] := by
  have hsat : SatisfiesM (fun _ ↦ ∃ s, evalLoop ctx script ⟨stack, [], [], 0, script⟩ = .ok s ∧
      s.vfExec = []) (EvalScript ctx stack script) := by
    unfold EvalScript
    exact satisfiesM_guard fun _ ↦ .bind_pre (SatisfiesM_Except_eq.2 fun s hloop ↦
      satisfiesM_guard fun hne ↦ .pure ⟨s, hloop, by simpa using hne⟩)
  exact (of_satisfiesM hsat h :)

/-! ## The conditionals of a script that evaluates are nested -/

theorem EvalScript_conditionals_nested (ctx : ScriptContext) (stack : List valtype)
    (script : List UInt8) (stack' : List valtype) (h : EvalScript ctx stack script = .ok stack') :
    (∃ ops, scriptOps script = some ops ∧ Nested false (ops.map bracketOf)) ∧
      ∀ ops pc s, LoopSteps ctx script ⟨stack, [], [], 0, script⟩ ops pc s →
        Brackets.depthAfter 0 (ops.map bracketOf) = some s.vfExec.length ∧
        ∀ opcode vch rest s', GetOp pc = some (opcode, vch, rest) →
          evalStep ctx opcode vch rest s = .ok s' → BranchStep ctx opcode vch rest s s' := by
  refine ⟨?_, fun ops pc s hrun ↦ ⟨hrun.depthAfter, fun opcode vch rest s' _ hstep ↦
    of_satisfiesM (evalStep_branchStep ctx opcode vch rest s) hstep⟩⟩
  -- the run to the end of the script, which leaves no conditional open
  obtain ⟨sf, hloop, hempty⟩ := loop_of_EvalScript h
  obtain ⟨ops, hrun⟩ := evalLoop_loopSteps ctx _ _ _ hloop
  refine ⟨ops, hrun.scriptOps_eq rfl, (balanced_iff_nested _).1 ?_⟩
  have hdepth := hrun.depthAfter
  rw [hempty] at hdepth
  exact hdepth

/-- `OP_1 OP_IF OP_1 OP_ELSE OP_0 OP_ENDIF`. -/
def ifElseScript : List UInt8 := [0x51, 0x63, 0x51, 0x67, 0x00, 0x68]

theorem EvalScript_conditionals_nested_on_if_else :
    EvalScript ⟨identityPrimitives, acceptingChecker, 0, SIGVERSION_BASE⟩ [] ifElseScript =
        .ok [[1]] ∧
      Nested false (ifElseScript.map bracketOf) := by
  have hrun : EvalScript ⟨identityPrimitives, acceptingChecker, 0, SIGVERSION_BASE⟩ []
      ifElseScript = .ok [[1]] := by decide +kernel
  obtain ⟨⟨ops, hops, hnested⟩, -⟩ := EvalScript_conditionals_nested _ _ _ _ hrun
  have hops' : scriptOps ifElseScript = some ifElseScript := by decide +kernel
  rw [hops', Option.some_inj] at hops
  exact ⟨hrun, hops ▸ hnested⟩

end LightningCash
