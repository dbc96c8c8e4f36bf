import LightningCash.Pow.DarkGravityWaveSpec

/-!
# The hive target

`GetNextHive12WorkRequired` averages the targets of the hive-mined blocks among the last
`hiveDifficultyWindow` blocks and scales the average by the ratio of the expected to the actual
number of hive blocks. Before `nAdjustFork`, `GetNextHiveWorkRequired` instead takes the target
of the last hive-mined block and scales it by the number of proof-of-work blocks since.

Both sum or multiply `arith_uint256` values, and both hive limits are `2 ^ 256 - 1`, so nothing
keeps the sum of targets from wrapping. As for Dark Gravity Wave, each function is followed by
the same computation in numbers with a `wrap` parameter, and the two are proved equal at
`wrap256`.
-/

namespace LightningCash

open BaseUint

/-! ## `GetNextHive12WorkRequired` -/

/-- The sampling loop, with `k` passes left: stop early, reporting `none`, at a block with no
parent or below `minHiveCheckBlock`; add the target of each hive-mined block and count it. -/
def hive12Loop (params : ConsensusParams) :
    ℕ → List CBlockIndex → ArithUint256 → ℕ → Except String (Option (ArithUint256 × ℕ))
  | 0, _, beeHashTarget, hiveBlockCount => .ok (some (beeHashTarget, hiveBlockCount))
  | k + 1, pindexLast, beeHashTarget, hiveBlockCount => do
    let b ← deref pindexLast
    match pindexLast with
    | _ :: pprev@(_ :: _) =>
      if b.nHeight < params.minHiveCheckBlock then .ok none
      else if b.IsHiveMined params then
        hive12Loop params k pprev (beeHashTarget + (SetCompact b.nBits).value) (hiveBlockCount + 1)
      else hive12Loop params k pprev beeHashTarget hiveBlockCount
    | _ => .ok none

/-- `GetNextHive12WorkRequired(pindexLast, params)`. -/
def GetNextHive12WorkRequired (pindexLast : List CBlockIndex) (params : ConsensusParams) :
    Except String UInt32 := do
  let bnPowLimit := UintToArith256 params.powLimitHive2
  let targetBlockCount := params.hiveDifficultyWindow.tdiv params.hiveBlockSpacingTarget
  match ← hive12Loop params params.hiveDifficultyWindow.toNat pindexLast zero 0 with
  | none => pure (GetCompact bnPowLimit false)
  | some (beeHashTarget, hiveBlockCount) =>
    if hiveBlockCount = 0 then pure (GetCompact bnPowLimit false)
    else do
      -- `/=` builds an `arith_uint256` from the count, `*=` takes a `uint32_t`
      let beeHashTarget ← beeHashTarget.divide (ofUInt64 hiveBlockCount.toUInt64)
      let beeHashTarget := beeHashTarget * UInt32.ofInt targetBlockCount
      let beeHashTarget ← beeHashTarget.divide (ofUInt64 hiveBlockCount.toUInt64)
      pure (GetCompact (if beeHashTarget > bnPowLimit then bnPowLimit else beeHashTarget) false)

/-! ## `GetNextHiveWorkRequired` -/

/-- The `while (true)` loop before `nAdjustFork`: walk back to the last hive-mined block,
counting the proof-of-work blocks passed; `inl` is the block where the walk gave up. -/
def lastHiveBlock (params : ConsensusParams) :
    List CBlockIndex → ℕ → Except String (CBlockIndex ⊕ (CBlockIndex × ℕ))
  | [], _ => .error "null pointer dereference"
  | b :: pprev, numPowBlocks =>
    if pprev = [] ∨ b.nHeight < params.minHiveCheckBlock then .ok (.inl b)
    else if b.IsHiveMined params then .ok (.inr (b, numPowBlocks))
    else lastHiveBlock params pprev (numPowBlocks + 1)

/-- `GetNextHiveWorkRequired(pindexLast, params)`. -/
def GetNextHiveWorkRequired (pindexLast : List CBlockIndex) (params : ConsensusParams) :
    Except String UInt32 := do
  let last ← deref pindexLast
  if IsHive12Enabled last.nHeight then GetNextHive12WorkRequired pindexLast params
  else
    let bnPowLimit := UintToArith256 params.powLimitHive
    let bnPowLimit2 := UintToArith256 params.powLimitHive2
    match ← lastHiveBlock params pindexLast 0 with
    | .inl b =>
      pure (GetCompact (if b.nHeight + 1 ≥ nSpeedFork then bnPowLimit2 else bnPowLimit) false)
    | .inr (b, numPowBlocks) =>
      if numPowBlocks = 0 then pure (GetCompact zero false)
      else do
        let interval := params.hiveTargetAdjustAggression.tdiv params.hiveBlockSpacingTarget
        let beeHashTarget := (SetCompact b.nBits).value *
          UInt32.ofInt ((interval - 1) * params.hiveBlockSpacingTarget + numPowBlocks + numPowBlocks)
        let beeHashTarget ← beeHashTarget.divide
          (ofUInt64 (UInt64.ofInt ((interval + 1) * params.hiveBlockSpacingTarget)))
        let nHeight := b.nHeight + 1
        let beeHashTarget :=
          if nHeight ≥ nSpeedFork ∧ beeHashTarget > bnPowLimit2 then bnPowLimit2 else beeHashTarget
        let beeHashTarget :=
          if nHeight < nSpeedFork ∧ beeHashTarget > bnPowLimit then bnPowLimit else beeHashTarget
        let beeHashTarget :=
          if nHeight ≥ nSpeedFork ∧ nHeight ≤ nSpeedFork + 25 then bnPowLimit2 else beeHashTarget
        pure (GetCompact beeHashTarget false)

/-! ## `GetNextHive12WorkRequired` in numbers -/

/-- `hive12Loop` in numbers. -/
def hive12LoopNat (wrap : ℕ → ℕ) (params : ConsensusParams) :
    ℕ → List CBlockIndex → ℕ → ℕ → Except String (Option (ℕ × ℕ))
  | 0, _, beeHashTarget, hiveBlockCount => .ok (some (beeHashTarget, hiveBlockCount))
  | k + 1, pindexLast, beeHashTarget, hiveBlockCount => do
    let b ← deref pindexLast
    match pindexLast with
    | _ :: pprev@(_ :: _) =>
      if b.nHeight < params.minHiveCheckBlock then .ok none
      else if b.IsHiveMined params then
        hive12LoopNat wrap params k pprev (wrap (beeHashTarget + targetOf b)) (hiveBlockCount + 1)
      else hive12LoopNat wrap params k pprev beeHashTarget hiveBlockCount
    | _ => .ok none

theorem hive12Loop_refines (params : ConsensusParams) :
    ∀ (k : ℕ) (pindexLast : List CBlockIndex) (beeHashTarget : ArithUint256) (hiveBlockCount : ℕ),
      Option.map (fun r ↦ (r.1.toNat, r.2)) <$>
          hive12Loop params k pindexLast beeHashTarget hiveBlockCount =
        hive12LoopNat wrap256 params k pindexLast beeHashTarget.toNat hiveBlockCount := by
  intro k
  induction k with
  | zero => intro _ _ _; rfl
  | succ k ih =>
    intro pindexLast beeHashTarget hiveBlockCount
    match pindexLast with
    | [] => rfl
    | [_] => rfl
    | b :: pprev@(_ :: _) =>
      simp only [hive12Loop, hive12LoopNat, deref, Except.ok_bind]
      split_ifs
      · rfl
      · rw [ih, toNat_add]
        rfl
      · exact ih _ _ _

/-- `GetNextHive12WorkRequired` in numbers. -/
def GetNextHive12WorkRequiredSpec (wrap : ℕ → ℕ) (pindexLast : List CBlockIndex)
    (params : ConsensusParams) : Except String UInt32 := do
  let limit := (UintToArith256 params.powLimitHive2).toNat
  let targetBlockCount := params.hiveDifficultyWindow.tdiv params.hiveBlockSpacingTarget
  match ← hive12LoopNat wrap params params.hiveDifficultyWindow.toNat pindexLast 0 0 with
  | none => pure (GetCompact (ofNat limit) false)
  | some (beeHashTarget, hiveBlockCount) =>
    if hiveBlockCount = 0 then pure (GetCompact (ofNat limit) false)
    else
      let divisor := hiveBlockCount.toUInt64.toNat
      if divisor = 0 then .error "Division by zero"
      else
        let beeHashTarget :=
          wrap (beeHashTarget / divisor * (UInt32.ofInt targetBlockCount).toNat) / divisor
        pure (GetCompact (ofNat (if beeHashTarget > limit then limit else beeHashTarget)) false)

/-- `GetNextHive12WorkRequired` computes its formula with the sum and the product reduced
modulo `2 ^ 256`. -/
theorem GetNextHive12WorkRequired_eq_spec (pindexLast : List CBlockIndex)
    (params : ConsensusParams) :
    GetNextHive12WorkRequired pindexLast params =
      GetNextHive12WorkRequiredSpec wrap256 pindexLast params := by
  have hloop := hive12Loop_refines params params.hiveDifficultyWindow.toNat pindexLast zero 0
  rw [toNat_zero] at hloop
  unfold GetNextHive12WorkRequired GetNextHive12WorkRequiredSpec
  dsimp only
  refine Except.bind_eq_bind_of_map hloop ?_
  rintro (_ | ⟨beeHashTarget, hiveBlockCount⟩)
  · simp only [Option.map_none, GetCompact_ofNat_toNat]
  simp only [Option.map_some]
  by_cases h0 : hiveBlockCount = 0
  · rw [if_pos h0, if_pos h0, GetCompact_ofNat_toNat]
  rw [if_neg h0, if_neg h0]
  by_cases hd0 : hiveBlockCount.toUInt64.toNat = 0
  · -- a count of `2 ^ 64` would make the divisor zero
    rw [if_pos hd0, divide_of_toNat_eq_zero _ (by rw [toNat_ofUInt64, hd0])]
    rfl
  have hd : (ofUInt64 hiveBlockCount.toUInt64 : ArithUint256).toNat ≠ 0 := by
    rw [toNat_ofUInt64]
    exact hd0
  obtain ⟨q, hq, hqv⟩ := divide_eq_ok beeHashTarget hd
  obtain ⟨q', hq', hqv'⟩ := divide_eq_ok (q * UInt32.ofInt
    (params.hiveDifficultyWindow.tdiv params.hiveBlockSpacingTarget)) hd
  rw [if_neg hd0, hq, Except.ok_bind, hq', Except.ok_bind, ← GetCompact_ofNat_toNat, toNat_ite_gt,
    hqv', toNat_mulWord, hqv, toNat_ofUInt64]
  rfl

/-! ## A window whose sum wraps

The three newest of twenty-five blocks are hive-mined with `nBits = 0x207fffff`, a target of
`(2 ^ 23 - 1) * 2 ^ 232`, below `powLimitHive2 = 2 ^ 256 - 1`. Three such targets already pass
`2 ^ 256`, so the sum wraps and the code returns a far smaller target than the formula over
unbounded naturals, which is capped at the limit. -/

/-- The chain, tip first. -/
def hiveOverflowChain : List CBlockIndex :=
  (List.range 25).map fun i : ℕ ↦
    if i < 3 then ⟨100 - (i : ℤ), 0, 0x207fffff, 192⟩ else ⟨100 - (i : ℤ), 0, 0x1e0fffff, 0⟩

theorem GetNextHive12WorkRequired_overflow :
    (∀ b ∈ hiveOverflowChain, b.IsHiveMined mainParams = true →
      (SetCompact b.nBits).value ≤ UintToArith256 mainParams.powLimitHive2) ∧
    GetNextHive12WorkRequired hiveOverflowChain mainParams = .ok 0x20555551 ∧
    GetNextHive12WorkRequiredSpec id hiveOverflowChain mainParams = .ok 0x2100ffff := by
  refine ⟨by decide +kernel, ?_, by decide +kernel⟩
  rw [GetNextHive12WorkRequired_eq_spec]
  decide +kernel

end LightningCash
