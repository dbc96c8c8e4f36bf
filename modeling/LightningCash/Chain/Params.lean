import LightningCash.Arith.Uint256

/-!
# Consensus parameters and the chain the retargeting walks

`Consensus::Params` with the fields the modelled code reads, the main-network values of
`CMainParams`, and the fork heights of `validation.cpp`. The block index is walked through
`pprev` pointers only, so a pointer into it is the list of entries from that one back to the
genesis end: `pprev` is the tail, and the null pointer is the empty list.

The pow limits are written in `chainparams.cpp` with sixty-five hex digits; `SetHex` keeps the
last sixty-four, and the values the code actually uses are computed here.
-/

namespace LightningCash

/-- The fields of `Consensus::Params` that the modelled code reads. -/
structure ConsensusParams where
  powLimit : Uint256
  powLimit2 : Uint256
  nPowTargetSpacing : ℤ
  nPowTargetSpacing2 : ℤ
  fPowAllowMinDifficultyBlocks : Bool
  lastScryptBlock : ℤ
  powLimitHive : Uint256
  powLimitHive2 : Uint256
  minHiveCheckBlock : ℤ
  hiveTargetAdjustAggression : ℤ
  hiveBlockSpacingTarget : ℤ
  hiveNonceMarker : UInt32
  hiveDifficultyWindow : ℤ
  maxConsecutiveHiveBlocks : ℤ
  variableBeecost : Bool
  variableForkBlock : ℤ
  remvariableForkBlock : ℤ
  ratioForkBlock : ℤ
  communityContribFactor : ℤ
  communityContribFactor2 : ℤ
  nSubsidyHalvingInterval : ℤ
  slowStartBlocks : ℤ
  totalMoneySupplyHeight : ℤ
  minBeeCost : ℤ
  beeCostFactor : ℤ
  beeLifespanBlocks : ℤ
  beeLifespanBlocks2 : ℤ
  beeLifespanBlocks3 : ℤ
  beeGestationBlocks : ℤ

/-- `CMainParams`. -/
def mainParams : ConsensusParams where
  powLimit := uint256S "00000ffffffffffffffffffffffffffffffffffffffffffffffffffffffffffff"
  powLimit2 := uint256S "0007fffffffffffffffffffffffffffffffffffffffffffffffffffffffffffff"
  nPowTargetSpacing := 60
  nPowTargetSpacing2 := 20
  fPowAllowMinDifficultyBlocks := false
  lastScryptBlock := 0
  powLimitHive := uint256S "0ffffffffffffffffffffffffffffffffffffffffffffffffffffffffffffffff"
  powLimitHive2 := uint256S "7ffffffffffffffffffffffffffffffffffffffffffffffffffffffffffffffff"
  minHiveCheckBlock := 1
  hiveTargetAdjustAggression := 30
  hiveBlockSpacingTarget := 2
  hiveNonceMarker := 192
  hiveDifficultyWindow := 24
  maxConsecutiveHiveBlocks := 2
  variableBeecost := true
  variableForkBlock := 5000000
  remvariableForkBlock := 5000000
  ratioForkBlock := 5000000
  communityContribFactor := 10
  communityContribFactor2 := 2
  nSubsidyHalvingInterval := 8400000
  slowStartBlocks := 0
  totalMoneySupplyHeight := 6215968
  minBeeCost := 10000
  beeCostFactor := 2500
  beeLifespanBlocks := 48 * 24 * 14
  beeLifespanBlocks2 := 48 * 24 * 21
  beeLifespanBlocks3 := 48 * 24 * 21
  beeGestationBlocks := 48 * 24

/-- `nYesPowerFork`. -/
def nYesPowerFork : ℤ := 10

/-- `nSpeedFork`. -/
def nSpeedFork : ℤ := 10

/-- `nAdjustFork`. -/
def nAdjustFork : ℤ := 20

/-- `nLightFork`. -/
def nLightFork : ℤ := 20

/-- `nHiveRepairFork`. -/
def nHiveRepairFork : ℤ := 20

/-- `nContribFork`. -/
def nContribFork : ℤ := 3864378

/-- `SKIP_BLOCKHEADER_POW`: below this height headers are not checked for work. -/
def SKIP_BLOCKHEADER_POW : ℤ := 5472830

/-- `IsYesPower(nHeight)`. -/
def IsYesPower (nHeight : ℤ) : Bool := decide (nHeight ≥ nYesPowerFork)

/-- `IsHive12Enabled(nHeight)`. -/
def IsHive12Enabled (nHeight : ℤ) : Bool := decide (nHeight ≥ nAdjustFork)

/-! ## The main-network limits as numbers -/

theorem powLimit_main : UintToArith256 mainParams.powLimit = BaseUint.ofNat (2 ^ 240 - 1) := by
  decide

theorem powLimit2_main : UintToArith256 mainParams.powLimit2 = BaseUint.ofNat (2 ^ 247 - 1) := by
  decide

theorem powLimitHive_main :
    UintToArith256 mainParams.powLimitHive = BaseUint.ofNat (2 ^ 256 - 1) := by
  decide

theorem powLimitHive2_main :
    UintToArith256 mainParams.powLimitHive2 = BaseUint.ofNat (2 ^ 256 - 1) := by
  decide

/-! ## Headers and the block index -/

/-- `CBlockHeader`. -/
structure CBlockHeader where
  nVersion : Int32
  hashPrevBlock : Uint256
  hashMerkleRoot : Uint256
  nTime : UInt32
  nBits : UInt32
  nNonce : UInt32
  deriving DecidableEq

namespace CBlockHeader

/-- `GetBlockTime()`: `(int64_t)nTime`. -/
def GetBlockTime (b : CBlockHeader) : ℤ := b.nTime.toNat

/-- `IsHiveMined(params)`: a hive block carries the marker nonce. -/
def IsHiveMined (b : CBlockHeader) (params : ConsensusParams) : Bool :=
  b.nNonce == params.hiveNonceMarker

end CBlockHeader

/-- The fields of a `CBlockIndex` entry that the retargeting reads. -/
structure CBlockIndex where
  nHeight : ℤ
  nTime : UInt32
  nBits : UInt32
  nNonce : UInt32
  deriving DecidableEq

namespace CBlockIndex

/-- `GetBlockTime()`: `(int64_t)nTime`. -/
def GetBlockTime (b : CBlockIndex) : ℤ := b.nTime.toNat

/-- `GetBlockHeader().IsHiveMined(params)`: the header copies `nNonce` from the entry. -/
def IsHiveMined (b : CBlockIndex) (params : ConsensusParams) : Bool :=
  b.nNonce == params.hiveNonceMarker

end CBlockIndex

/-- `*pindex`: reading through a pointer, which faults when it is null. -/
def deref : List CBlockIndex → Except String CBlockIndex
  | [] => .error "null pointer dereference"
  | b :: _ => .ok b

/-- `while (pindex->GetBlockHeader().IsHiveMined(params)) { assert(pindex->pprev);
pindex = pindex->pprev; }`: step back over hive-mined blocks. -/
def skipHiveMined (params : ConsensusParams) : List CBlockIndex → Except String (List CBlockIndex)
  | [] => .error "null pointer dereference"
  | b :: pprev =>
    if b.IsHiveMined params then
      match pprev with
      | [] => .error "assertion failed: pindex->pprev"
      | _ :: _ => skipHiveMined params pprev
    else .ok (b :: pprev)

end LightningCash
