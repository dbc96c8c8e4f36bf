import LightningCash.Chain.Params

/-!
# Dark Gravity Wave retargeting

`DarkGravityWave` and `DarkGravityWave2` in `pow.cpp` average the targets of the last
twenty-four proof-of-work blocks, stepping over hive-mined blocks, scale the average by the
clamped time those blocks took, make it easier still when the new block is late, and cap it at
the pow limit. Both versions share the averaging loop (`pastTargetAvgLoop`) and the scaling
(`dgwRetarget`); they differ in the limit, the spacing, the lateness thresholds, and in the
second version stepping back over a hive-mined tip first.

All arithmetic is `arith_uint256`, so every product is taken modulo `2 ^ 256`; what that means
is worked out in `LightningCash.Pow.DarkGravityWaveSpec`.
-/

namespace LightningCash

open BaseUint

/-- One update of `bnPastTargetAvg` with the target of the `nCountBlocks`-th sampled block:
`(bnPastTargetAvg * nCountBlocks + bnTarget) / (nCountBlocks + 1)`, or the target itself for the
first block. -/
def avgStep (nCountBlocks : ℕ) (bnPastTargetAvg bnTarget : ArithUint256) :
    Except String ArithUint256 :=
  if nCountBlocks = 1 then .ok bnTarget
  else (bnPastTargetAvg * nCountBlocks.toUInt32 + bnTarget).divide
    (ofUInt64 (nCountBlocks.toUInt32 + 1).toUInt64)

/-- The `for (nCountBlocks = 1; nCountBlocks <= nPastBlocks; nCountBlocks++)` loop, with `k`
passes left: skip hive-mined blocks, fold in the target, and step back unless this was the
last pass. Returns the average and where `pindex` stopped. -/
def pastTargetAvgLoop (params : ConsensusParams) (nPastBlocks : ℕ) :
    ℕ → ℕ → List CBlockIndex → ArithUint256 → Except String (ArithUint256 × List CBlockIndex)
  | _, 0, pindex, bnPastTargetAvg => .ok (bnPastTargetAvg, pindex)
  | nCountBlocks, k + 1, pindex, bnPastTargetAvg => do
    let pindex ← skipHiveMined params pindex
    let b ← deref pindex
    let bnPastTargetAvg ← avgStep nCountBlocks bnPastTargetAvg (SetCompact b.nBits).value
    if nCountBlocks ≠ nPastBlocks then
      match pindex with
      | _ :: pprev@(_ :: _) => pastTargetAvgLoop params nPastBlocks (nCountBlocks + 1) k pprev bnPastTargetAvg
      | _ => .error "assertion failed: pindex->pprev"
    else pastTargetAvgLoop params nPastBlocks (nCountBlocks + 1) k pindex bnPastTargetAvg

/-- How late the new block may be, past the previous block's time, before the target is
replaced by the limit or multiplied by `100000`, `10000`, `1000` or `100`. -/
structure LateSchedule where
  limitAfter : ℤ
  after100000 : ℤ
  after10000 : ℤ
  after1000 : ℤ
  after100 : ℤ

/-- `if (nActualTimespan < nTargetTimespan / 3) ...; if (nActualTimespan > nTargetTimespan * 3)
...`: the timespan clamped to between a third and three times the target. -/
def clampTimespan (nActualTimespan nTargetTimespan : ℤ) : ℤ :=
  let nActualTimespan :=
    if nActualTimespan < nTargetTimespan.tdiv 3 then nTargetTimespan.tdiv 3 else nActualTimespan
  if nActualTimespan > nTargetTimespan * 3 then nTargetTimespan * 3 else nActualTimespan

/-- What the lateness branches do to `bnNew`. -/
inductive LateAction where
  | limit
  | mul (factor : UInt32)
  | keep
  deriving DecidableEq

/-- The `if`/`else if` chain on `pblock->GetBlockTime()`: the first threshold passed decides. -/
def lateAction (late : LateSchedule) (nBlockTime nLastBlockTime : ℤ) : LateAction :=
  if nBlockTime > nLastBlockTime + late.limitAfter then .limit
  else if nBlockTime > nLastBlockTime + late.after100000 then .mul 100000
  else if nBlockTime > nLastBlockTime + late.after10000 then .mul 10000
  else if nBlockTime > nLastBlockTime + late.after1000 then .mul 1000
  else if nBlockTime > nLastBlockTime + late.after100 then .mul 100
  else .keep

/-- The code after the averaging loop: clamp the timespan, scale, apply the lateness branch,
and cap at the limit. -/
def dgwRetarget (bnPastTargetAvg bnPowLimit : ArithUint256)
    (nActualTimespan nTargetTimespan nBlockTime nLastBlockTime : ℤ) (late : LateSchedule) :
    Except String ArithUint256 := do
  -- `*=` takes a `uint32_t`, `/=` an `arith_uint256` built from the `int64_t`
  let bnNew := bnPastTargetAvg * UInt32.ofInt (clampTimespan nActualTimespan nTargetTimespan)
  let bnNew ← bnNew.divide (ofUInt64 (UInt64.ofInt nTargetTimespan))
  let bnNew := match lateAction late nBlockTime nLastBlockTime with
    | .limit => bnPowLimit
    | .mul factor => bnNew * factor
    | .keep => bnNew
  pure (if bnNew > bnPowLimit then bnPowLimit else bnNew)

/-- The part both versions share once `pindexLast` is fixed: the height check, the loop, and the
retargeting, for a limit, a spacing and a lateness schedule. -/
def dgwFromLast (params : ConsensusParams) (bnPowLimit : ArithUint256) (nSpacing : ℤ)
    (late : LateSchedule) (pindexLast : List CBlockIndex) (pblock : CBlockHeader) :
    Except String UInt32 :=
  let nPastBlocks : ℕ := 24
  match pindexLast with
  | [] => .ok (GetCompact bnPowLimit false)
  | last :: _ =>
    if last.nHeight - params.lastScryptBlock < nPastBlocks then .ok (GetCompact bnPowLimit false)
    else do
      let (bnPastTargetAvg, pindex) ←
        pastTargetAvgLoop params nPastBlocks 1 nPastBlocks pindexLast zero
      let first ← deref pindex
      let bnNew ← dgwRetarget bnPastTargetAvg bnPowLimit
        (last.GetBlockTime - first.GetBlockTime) (nPastBlocks * nSpacing) pblock.GetBlockTime
        last.GetBlockTime late
      pure (GetCompact bnNew false)

/-- `DarkGravityWave(pindexLast, pblock, params)`. -/
def DarkGravityWave (pindexLast : List CBlockIndex) (pblock : CBlockHeader)
    (params : ConsensusParams) : Except String UInt32 := do
  let bnPowLimit := UintToArith256 params.powLimit
  let s := params.nPowTargetSpacing
  if params.fPowAllowMinDifficultyBlocks then
    let last ← deref pindexLast
    if pblock.GetBlockTime > last.GetBlockTime + s * 10 then
      return GetCompact bnPowLimit false
  dgwFromLast params bnPowLimit s ⟨s * 30, s * 25, s * 20, s * 15, s * 10⟩ pindexLast pblock

/-- `DarkGravityWave2(pindexLast, pblock, params)`: from `nAdjustFork` on, a hive-mined
`pindexLast` is first stepped back over. -/
def DarkGravityWave2 (pindexLast : List CBlockIndex) (pblock : CBlockHeader)
    (params : ConsensusParams) : Except String UInt32 := do
  let bnPowLimit2 := UintToArith256 params.powLimit2
  let s := params.nPowTargetSpacing2
  if params.fPowAllowMinDifficultyBlocks then
    let last ← deref pindexLast
    if pblock.GetBlockTime > last.GetBlockTime + s * 10 then
      return GetCompact bnPowLimit2 false
  let last ← deref pindexLast
  let pindexLast ←
    if IsHive12Enabled last.nHeight then skipHiveMined params pindexLast else pure pindexLast
  dgwFromLast params bnPowLimit2 s ⟨s * 300, s * 250, s * 200, s * 150, s * 100⟩ pindexLast pblock

end LightningCash
