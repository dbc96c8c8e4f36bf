import LightningCash.Pow.DarkGravityWave
import LightningCash.Lib.Except

/-!
# What Dark Gravity Wave computes, in numbers

The same retargeting over natural numbers, with a parameter `wrap` applied wherever the
source multiplies or adds two `arith_uint256` values. With `wrap = wrap256`, reduction modulo
`2 ^ 256`, it is what the code computes (`DarkGravityWave_eq_spec`,
`DarkGravityWave2_eq_spec`); with `wrap = id` it is the intended formula over unbounded
naturals. The two split the work: which blocks are sampled is `pastBlocks`, a walk that does no
arithmetic, and the average of their targets is `runningAvg`.
-/

namespace LightningCash

open BaseUint

/-- Reduction modulo `2 ^ 256`, what every `arith_uint256` product and sum undergoes. -/
def wrap256 (x : ℕ) : ℕ := x % 2 ^ 256

/-- The target a block's `nBits` decodes to. -/
def targetOf (b : CBlockIndex) : ℕ := (SetCompact b.nBits).value.toNat

/-! ## The averaging loop -/

/-- The blocks the averaging loop samples, in order, and where its pointer stops. -/
def pastBlocks (params : ConsensusParams) (nPastBlocks : ℕ) :
    ℕ → ℕ → List CBlockIndex → Except String (List CBlockIndex × List CBlockIndex)
  | _, 0, pindex => .ok ([], pindex)
  | nCountBlocks, k + 1, pindex => do
    let pindex ← skipHiveMined params pindex
    let b ← deref pindex
    let rest ←
      if nCountBlocks ≠ nPastBlocks then
        match pindex with
        | _ :: pprev@(_ :: _) => pastBlocks params nPastBlocks (nCountBlocks + 1) k pprev
        | _ => .error "assertion failed: pindex->pprev"
      else pastBlocks params nPastBlocks (nCountBlocks + 1) k pindex
    pure (b :: rest.1, rest.2)

/-- One update of the running average in numbers. -/
def avgStepNat (wrap : ℕ → ℕ) (nCountBlocks avg target : ℕ) : ℕ :=
  if nCountBlocks = 1 then target
  else wrap (wrap (avg * nCountBlocks) + target) / (nCountBlocks + 1)

/-- The running average of a list of targets, the first counted as number `nCountBlocks`. -/
def runningAvg (wrap : ℕ → ℕ) : ℕ → List ℕ → ℕ → ℕ
  | _, [], avg => avg
  | nCountBlocks, t :: ts, avg => runningAvg wrap (nCountBlocks + 1) ts (avgStepNat wrap nCountBlocks avg t)

theorem toNat_toUInt64_succ {n : ℕ} (hn : n + 1 < 2 ^ 32) :
    (n.toUInt32 + 1).toUInt64.toNat = n + 1 := by
  rw [UInt32.toNat_toUInt64, UInt32.toNat_add, UInt32.toNat_ofNat', UInt32.toNat_one]
  omega

/-- One update in the code is one update in numbers, modulo `2 ^ 256`. -/
theorem avgStep_spec {n : ℕ} (hn : n + 1 < 2 ^ 32) (avg target : ArithUint256) :
    ∃ r, avgStep n avg target = .ok r ∧
      r.toNat = avgStepNat wrap256 n avg.toNat target.toNat := by
  unfold avgStep avgStepNat
  split_ifs with h1
  · exact ⟨target, rfl, rfl⟩
  · have hd : (ofUInt64 (n.toUInt32 + 1).toUInt64 : ArithUint256).toNat = n + 1 := by
      rw [toNat_ofUInt64, toNat_toUInt64_succ hn]
    obtain ⟨q, hq, hqv⟩ := divide_eq_ok (avg * n.toUInt32 + target) (b := ofUInt64 _)
      (by rw [hd]; omega)
    have hn' : n.toUInt32.toNat = n := by
      rw [UInt32.toNat_ofNat']
      omega
    refine ⟨q, hq, ?_⟩
    rw [hqv, hd, toNat_add, toNat_mulWord, hn']
    rfl

/-- The averaging loop is the running average, modulo `2 ^ 256`, of the targets of the blocks
`pastBlocks` samples, and stops where the walk does. -/
theorem pastTargetAvgLoop_refines (params : ConsensusParams) (nPastBlocks : ℕ) :
    ∀ (k n : ℕ) (pindex : List CBlockIndex) (avg : ArithUint256), n + k < 2 ^ 32 →
      (fun r ↦ (r.1.toNat, r.2)) <$> pastTargetAvgLoop params nPastBlocks n k pindex avg =
        (fun r ↦ (runningAvg wrap256 n (r.1.map targetOf) avg.toNat, r.2)) <$>
          pastBlocks params nPastBlocks n k pindex := by
  intro k
  induction k with
  | zero => intro n pindex avg _; rfl
  | succ k ih =>
    intro n pindex avg hk
    simp only [pastTargetAvgLoop, pastBlocks]
    -- the walk to the next proof-of-work block, and reading it, are shared
    rcases skipHiveMined params pindex with e | p
    · rfl
    simp only [Except.ok_bind]
    rcases deref p with e | b
    · rfl
    obtain ⟨avg', havg, havg'⟩ := avgStep_spec (n := n) (by omega) avg (SetCompact b.nBits).value
    simp only [Except.ok_bind, havg]
    -- the recursive result feeds the running average one step further on
    have hcons : ∀ x : Except String (List CBlockIndex × List CBlockIndex),
        (fun r ↦ (runningAvg wrap256 n (r.1.map targetOf) avg.toNat, r.2)) <$>
            (x >>= fun rest ↦ pure (b :: rest.1, rest.2)) =
          (fun r ↦ (runningAvg wrap256 (n + 1) (r.1.map targetOf) avg'.toNat, r.2)) <$> x := by
      rintro (e | ⟨s, q⟩)
      · rfl
      · rw [havg']
        rfl
    split_ifs with hN
    · match p with
      | _ :: pprev@(_ :: _) =>
        rw [hcons]
        exact ih _ _ _ (by omega)
      | [] => rfl
      | [_] => rfl
    · rw [hcons]
      exact ih _ _ _ (by omega)

/-! ## The retargeting -/

/-- `dgwRetarget` in numbers. -/
def dgwRetargetNat (wrap : ℕ → ℕ) (avg limit : ℕ)
    (nActualTimespan nTargetTimespan nBlockTime nLastBlockTime : ℤ) (late : LateSchedule) :
    Except String ℕ :=
  let bnNew := wrap (avg * (UInt32.ofInt (clampTimespan nActualTimespan nTargetTimespan)).toNat)
  let divisor := (UInt64.ofInt nTargetTimespan).toNat
  if divisor = 0 then .error "Division by zero"
  else
    let bnNew := match lateAction late nBlockTime nLastBlockTime with
      | .limit => limit
      | .mul factor => wrap (bnNew / divisor * factor.toNat)
      | .keep => bnNew / divisor
    .ok (if bnNew > limit then limit else bnNew)

/-- The cap `if (bnNew > limit) bnNew = limit` in numbers. -/
theorem toNat_ite_gt (x limit : ArithUint256) :
    (if x > limit then limit else x).toNat =
      if x.toNat > limit.toNat then limit.toNat else x.toNat := by
  by_cases h : limit < x
  · rw [if_pos h, if_pos (lt_iff_toNat_lt.mp h)]
  · rw [if_neg h, if_neg (fun h' ↦ h (lt_iff_toNat_lt.mpr h'))]

/-- The code's retargeting is `dgwRetargetNat` with every product reduced modulo `2 ^ 256`. -/
theorem dgwRetarget_refines (avg limit : ArithUint256)
    (nActualTimespan nTargetTimespan nBlockTime nLastBlockTime : ℤ) (late : LateSchedule) :
    toNat <$> dgwRetarget avg limit nActualTimespan nTargetTimespan nBlockTime nLastBlockTime late =
      dgwRetargetNat wrap256 avg.toNat limit.toNat nActualTimespan nTargetTimespan nBlockTime
        nLastBlockTime late := by
  have hd : (ofUInt64 (UInt64.ofInt nTargetTimespan) : ArithUint256).toNat =
      (UInt64.ofInt nTargetTimespan).toNat := toNat_ofUInt64 _
  unfold dgwRetarget dgwRetargetNat
  dsimp only
  by_cases h0 : (UInt64.ofInt nTargetTimespan).toNat = 0
  · rw [divide_of_toNat_eq_zero _ (by rw [hd, h0]), if_pos h0]
    rfl
  obtain ⟨q, hq, hqv⟩ := divide_eq_ok
    (avg * UInt32.ofInt (clampTimespan nActualTimespan nTargetTimespan)) (by rw [hd]; exact h0)
  -- the quotient in numbers
  have hq' : q.toNat = wrap256 (avg.toNat *
      (UInt32.ofInt (clampTimespan nActualTimespan nTargetTimespan)).toNat) /
        (UInt64.ofInt nTargetTimespan).toNat := by
    rw [hqv, hd, toNat_mulWord]
    rfl
  rw [if_neg h0, hq, Except.ok_bind, Except.pure_eq_ok, Except.map_ok, toNat_ite_gt]
  cases lateAction late nBlockTime nLastBlockTime with
  | limit => rfl
  | mul factor =>
    rw [toNat_mulWord, hq']
    rfl
  | keep => rw [hq']

/-! ## Both versions -/

/-- The average of the sampled targets and where the walk stopped. -/
def sampledAvg (wrap : ℕ → ℕ) (params : ConsensusParams) (pindexLast : List CBlockIndex) :
    Except String (ℕ × List CBlockIndex) :=
  (fun r ↦ (runningAvg wrap 1 (r.1.map targetOf) 0, r.2)) <$> pastBlocks params 24 1 24 pindexLast

/-- `dgwFromLast` in numbers, for a limit given as a number. -/
def dgwFromLastSpec (wrap : ℕ → ℕ) (params : ConsensusParams) (limit : ℕ) (nSpacing : ℤ)
    (late : LateSchedule) (pindexLast : List CBlockIndex) (pblock : CBlockHeader) :
    Except String UInt32 :=
  match pindexLast with
  | [] => .ok (GetCompact (ofNat limit) false)
  | last :: _ =>
    if last.nHeight - params.lastScryptBlock < (24 : ℕ) then .ok (GetCompact (ofNat limit) false)
    else do
      let (avg, pindex) ← sampledAvg wrap params pindexLast
      let first ← deref pindex
      let bnNew ← dgwRetargetNat wrap avg limit (last.GetBlockTime - first.GetBlockTime)
        ((24 : ℕ) * nSpacing) pblock.GetBlockTime last.GetBlockTime late
      pure (GetCompact (ofNat bnNew) false)

theorem dgwFromLast_eq_spec (params : ConsensusParams) (limit : ArithUint256) (nSpacing : ℤ)
    (late : LateSchedule) (pindexLast : List CBlockIndex) (pblock : CBlockHeader) :
    dgwFromLast params limit nSpacing late pindexLast pblock =
      dgwFromLastSpec wrap256 params limit.toNat nSpacing late pindexLast pblock := by
  unfold dgwFromLast dgwFromLastSpec
  dsimp only
  match pindexLast with
  | [] => rw [← eq_ofNat_toNat]
  | last :: rest =>
    dsimp only
    split_ifs
    · rw [← eq_ofNat_toNat]
    -- the loop and the sampled average agree, and then so does everything after them
    refine Except.bind_eq_bind_of_map
      (pastTargetAvgLoop_refines params 24 24 1 (last :: rest) zero (by norm_num)) ?_
    rintro ⟨avg, pindex⟩
    dsimp only
    rcases deref pindex with e | first
    · rfl
    simp only [Except.ok_bind]
    rw [← dgwRetarget_refines]
    rcases dgwRetarget avg limit _ _ _ _ late with e | bnNew
    · rfl
    · simp only [Except.ok_bind, Except.map_ok, Except.pure_eq_ok, ← eq_ofNat_toNat]

/-- `DarkGravityWave` in numbers. -/
def DarkGravityWaveSpec (wrap : ℕ → ℕ) (pindexLast : List CBlockIndex) (pblock : CBlockHeader)
    (params : ConsensusParams) : Except String UInt32 := do
  let limit := (UintToArith256 params.powLimit).toNat
  let s := params.nPowTargetSpacing
  if params.fPowAllowMinDifficultyBlocks then
    let last ← deref pindexLast
    if pblock.GetBlockTime > last.GetBlockTime + s * 10 then
      return GetCompact (ofNat limit) false
  dgwFromLastSpec wrap params limit s ⟨s * 30, s * 25, s * 20, s * 15, s * 10⟩ pindexLast pblock

/-- `DarkGravityWave2` in numbers. -/
def DarkGravityWave2Spec (wrap : ℕ → ℕ) (pindexLast : List CBlockIndex) (pblock : CBlockHeader)
    (params : ConsensusParams) : Except String UInt32 := do
  let limit := (UintToArith256 params.powLimit2).toNat
  let s := params.nPowTargetSpacing2
  if params.fPowAllowMinDifficultyBlocks then
    let last ← deref pindexLast
    if pblock.GetBlockTime > last.GetBlockTime + s * 10 then
      return GetCompact (ofNat limit) false
  let last ← deref pindexLast
  let pindexLast ←
    if IsHive12Enabled last.nHeight then skipHiveMined params pindexLast else pure pindexLast
  dgwFromLastSpec wrap params limit s ⟨s * 300, s * 250, s * 200, s * 150, s * 100⟩ pindexLast
    pblock

/-- `DarkGravityWave` computes its formula with every product reduced modulo `2 ^ 256`. -/
theorem DarkGravityWave_eq_spec (pindexLast : List CBlockIndex) (pblock : CBlockHeader)
    (params : ConsensusParams) :
    DarkGravityWave pindexLast pblock params = DarkGravityWaveSpec wrap256 pindexLast pblock params := by
  simp only [DarkGravityWave, DarkGravityWaveSpec, dgwFromLast_eq_spec, ← eq_ofNat_toNat]

/-- `DarkGravityWave2` computes its formula with every product reduced modulo `2 ^ 256`. -/
theorem DarkGravityWave2_eq_spec (pindexLast : List CBlockIndex) (pblock : CBlockHeader)
    (params : ConsensusParams) :
    DarkGravityWave2 pindexLast pblock params =
      DarkGravityWave2Spec wrap256 pindexLast pblock params := by
  simp only [DarkGravityWave2, DarkGravityWave2Spec, dgwFromLast_eq_spec, ← eq_ofNat_toNat]

/-! ## A chain on which the product wraps

Twenty-four proof-of-work blocks a hundred seconds apart, each with `nBits = 0x1f2d82d9`, a
target of `2982617 * 2 ^ 224`, below `powLimit2 = 2 ^ 247 - 1`. The timespan clamps to
`1440 = 3 * 480`, and `2982617 * 1440` passes `2 ^ 32`, so `bnNew *= nActualTimespan` wraps: the
code returns the compact of a target near `2 ^ 225`, where the formula over unbounded naturals
is capped at the limit. -/

/-- The chain, tip first. -/
def dgwOverflowChain : List CBlockIndex :=
  (List.range 24).map fun i : ℕ ↦ ⟨100 - (i : ℤ), (10000 - 100 * i).toUInt32, 0x1f2d82d9, 0⟩

/-- The new block, twenty seconds after the tip. -/
def dgwOverflowBlock : CBlockHeader := ⟨0, uint256S "", uint256S "", 10020, 0, 0⟩

theorem DarkGravityWave2_overflow :
    (∀ b ∈ dgwOverflowChain, b.IsHiveMined mainParams = false ∧
      (SetCompact b.nBits).value ≤ UintToArith256 mainParams.powLimit2) ∧
    DarkGravityWave2 dgwOverflowChain dgwOverflowBlock mainParams = .ok 0x1d027777 ∧
    DarkGravityWave2Spec id dgwOverflowChain dgwOverflowBlock mainParams = .ok 0x1f7fffff := by
  refine ⟨by decide +kernel, ?_, by decide +kernel⟩
  rw [DarkGravityWave2_eq_spec]
  decide +kernel

end LightningCash
