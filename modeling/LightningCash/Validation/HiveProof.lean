import LightningCash.Lib.Except
import LightningCash.Coins.Coin

/-!
# The hive proof checks and the bee cost

`CheckHiveProof`, `CheckHiveProof2` and `CheckHiveProof3` in `pow.cpp` look up the parent of a
hive-mined block with `mapBlockIndex[pblock->hashPrevBlock]` and then check, in this order:
that the hive is enabled at the parent, that the block does not follow too many hive blocks,
that no other transaction creates bees, and that the coinbase carries a well-formed hive proof
in `vout[0]`. This module models those checks and the state they read. What `CheckHiveProof3`
does after them, including its reads of the UTXO set `pcoinsTip`, is modelled in
`Validation.HiveProof3`; the remainder of the two older checks is a given function of what it
reads (`HiveEnv`).

`std::unordered_map::operator[]` inserts a null pointer under a key it does not find, and the
source reads `pindexPrev->nHeight` before testing `pindexPrev` for null. The index map is
therefore part of the state the checks return, and a null read is a fault.
-/

namespace LightningCash

/-! ## `mapBlockIndex` -/

/-- `mapBlockIndex`: block hashes to pointers into the block index, a pointer being the entry
and its ancestors (`[]` is the null pointer). The keys are distinct. -/
structure BlockMap where
  entries : List (Uint256 × List CBlockIndex)
  nodup_keys : (entries.map Prod.fst).Nodup

namespace BlockMap

/-- `mapBlockIndex.find(hash)`. -/
def find (m : BlockMap) (hash : Uint256) : Option (List CBlockIndex) :=
  (m.entries.find? (·.1 == hash)).map Prod.snd

theorem find_eq_none {m : BlockMap} {hash : Uint256} :
    m.find hash = none ↔ hash ∉ m.entries.map Prod.fst := by
  simp only [find, Option.map_eq_none_iff, List.find?_eq_none, beq_iff_eq, List.mem_map,
    not_exists, not_and, Prod.forall]

/-- Storing under a fresh key keeps the keys distinct. -/
theorem nodup_keys_append {m : BlockMap} {hash : Uint256} (h : m.find hash = none)
    (pindex : List CBlockIndex) : ((m.entries ++ [(hash, pindex)]).map Prod.fst).Nodup := by
  rw [List.map_append, List.nodup_append]
  refine ⟨m.nodup_keys, by simp, ?_⟩
  simp only [List.map_cons, List.map_nil, List.mem_singleton]
  rintro a ha b rfl rfl
  exact find_eq_none.mp h ha

/-- `mapBlockIndex[hash]`: the pointer stored under `hash`, or a null pointer newly stored
there. -/
def index (m : BlockMap) (hash : Uint256) : List CBlockIndex × BlockMap :=
  match h : m.find hash with
  | some pindex => (pindex, m)
  | none => ([], ⟨m.entries ++ [(hash, [])], nodup_keys_append h []⟩)

theorem index_of_find_some {m : BlockMap} {hash : Uint256} {pindex : List CBlockIndex}
    (h : m.find hash = some pindex) : m.index hash = (pindex, m) := by
  unfold index
  split <;> simp_all

theorem index_of_find_none {m : BlockMap} {hash : Uint256} (h : m.find hash = none) :
    m.index hash = ([], ⟨m.entries ++ [(hash, [])], nodup_keys_append h []⟩) := by
  unfold index
  split <;> simp_all

end BlockMap

/-- The part of the node's state that block checking reads: the block index map, the height
of `chainActive.Tip()`, the global `totalMatureBees` that `GetBeeCost` consults, and the coins of
`pcoinsTip`, the UTXO set at the active tip. -/
structure NodeState where
  mapBlockIndex : BlockMap
  tipHeight : ℤ
  totalMatureBees : ℤ
  /-- `pcoinsTip->GetCoin(outpoint, coin)`: the unspent coin at an outpoint, `none` where
  `GetCoin` returns false. A null `pcoinsTip` is the view without coins. -/
  pcoinsTip : COutPoint → Option Coin

/-! ## The checks every hive proof starts with -/

/-- `CTxDestination`, what `ExtractDestination` reads out of a script. -/
inductive CTxDestination
  | CNoDestination
  | CKeyID (id : List UInt8)
  | CScriptID (id : List UInt8)
  | WitnessV0ScriptHash (hash : List UInt8)
  | WitnessV0KeyHash (hash : List UInt8)
  | WitnessUnknown (version : ℕ) (program : List UInt8)
  deriving DecidableEq

/-- What the hive checks read beyond the block, the parent chain and the node's state. The
remainder of `CheckHiveProof` and `CheckHiveProof2` is given as a function of the block, the
parent, the tip height, `totalMatureBees` and the coins of `pcoinsTip`. For `CheckHiveProof3`
the functions the source calls are given: the hash and signature primitives, the block store,
the merkle match of `GetTxByHashAndHeight`, and the decoded addresses. -/
structure HiveEnv where
  IsHiveEnabled : List CBlockIndex → Bool
  scriptPubKeyBCF : CScript
  proofTail : CBlock → List CBlockIndex → ℤ → ℤ → (COutPoint → Option Coin) → Bool
  proof2Tail : CBlock → List CBlockIndex → ℤ → ℤ → (COutPoint → Option Coin) → Bool
  /-- `beeHash < beeHashTarget`: the hash of `GetDeterministicRandString(pindexPrev)`, the txid
  characters and the nonce, against the target `GetNextHiveWorkRequired(pindexPrev)` sets. -/
  beeHashMeetsTarget : List CBlockIndex → List UInt8 → UInt32 → Bool
  /-- `ExtractDestination(script, dest)`: `none` where it returns false. -/
  ExtractDestination : CScript → Option CTxDestination
  /-- `pubkey.RecoverCompact(mhash, messageSig)` over the hash of
  `GetDeterministicRandString(pindexPrev)`, then `pubkey.GetID()`: `none` where the recovery
  fails. -/
  RecoverCompactID : List CBlockIndex → List UInt8 → Option (List UInt8)
  /-- `tx->GetHash()`. -/
  GetHash : CTransaction → Uint256
  /-- The pruned-data check and `ReadBlockFromDisk` at an index entry: the block, or the message
  of the `std::runtime_error` thrown. -/
  ReadBlockFromDisk : List CBlockIndex → Except String CBlock
  /-- The `CMerkleBlock` test of `GetTxByHashAndHeight`: the partial merkle tree built for the
  one txid extracts the block's merkle root with that txid as its only match. -/
  merkleBlockMatches : CBlock → Uint256 → Bool
  /-- `GetScriptForDestination(DecodeDestination(hiveCommunityAddress))`. -/
  scriptPubKeyCF : CScript
  /-- The same for `hiveCommunityAddress2`. -/
  scriptPubKeyCF2 : CScript

/-- `for (i = 1; i < vtx.size(); i++) if (vtx[i]->IsBCT(...)) return false;`: whether some
transaction creates bees. -/
def anyBCT (scriptPubKeyBCF : CScript) : List CTransaction → Except String Bool
  | [] => .ok false
  | tx :: txs => do
    if ← tx.IsBCT scriptPubKeyBCF then pure true else anyBCT scriptPubKeyBCF txs

/-- The checks on the block's transactions that every version makes before the remainder:
no bee creation besides the coinbase, a coinbase with two or three outputs, and a `vout[0]`
of at least 144 bytes starting `OP_RETURN OP_BEE`. -/
def hiveFormatChecks (scriptPubKeyBCF : CScript) (block : CBlock) : Except String Bool := do
  if ← anyBCT scriptPubKeyBCF (block.vtx.drop 1) then return false
  let txCoinbase ← vecAt block.vtx 0
  if !txCoinbase.IsCoinBase then return false
  if txCoinbase.vout.length < 2 ∨ txCoinbase.vout.length > 3 then return false
  let out0 ← vecAt txCoinbase.vout 0
  if out0.scriptPubKey.length < 144 then return false
  if out0.scriptPubKey.getD 0 0 != OP_RETURN || out0.scriptPubKey.getD 1 0 != OP_BEE then
    return false
  return true

/-- `CheckHiveProof` and `CheckHiveProof2` from the parent pointer on: they differ only in
their remainder. -/
def checkHiveProofFrom
    (tail : CBlock → List CBlockIndex → ℤ → ℤ → (COutPoint → Option Coin) → Bool) (env : HiveEnv)
    (params : ConsensusParams) (st : NodeState) (pindexPrev : List CBlockIndex) (block : CBlock) :
    Except String Bool := do
  -- `blockHeight = pindexPrev->nHeight + 1` comes before `if (!pindexPrev) return false`
  let prev ← deref pindexPrev
  if !env.IsHiveEnabled pindexPrev then return false
  if prev.IsHiveMined params then return false
  if !(← hiveFormatChecks env.scriptPubKeyBCF block) then return false
  return tail block pindexPrev st.tipHeight st.totalMatureBees st.pcoinsTip

/-- The loop of `CheckHiveProof3` counting the hive blocks at the tip of the parent chain. -/
def hiveBlocksAtTip (params : ConsensusParams) : List CBlockIndex → ℤ → Except String ℤ
  | [], _ => .error "null pointer dereference"
  | b :: pprev, n =>
    if b.IsHiveMined params then
      match pprev with
      | [] => .error "assertion failed: pindexTemp->pprev"
      | _ :: _ => hiveBlocksAtTip params pprev (n + 1)
    else .ok n

/-- A hive check with its lookup `mapBlockIndex[pblock->hashPrevBlock]`: the result and the
map after it. -/
def withParent (check : List CBlockIndex → Except String Bool) (st : NodeState) (block : CBlock) :
    Except String Bool × BlockMap :=
  let (pindexPrev, m) := st.mapBlockIndex.index block.hashPrevBlock
  (check pindexPrev, m)

/-- `CheckHiveProof(pblock, params)`. -/
def CheckHiveProof (env : HiveEnv) (params : ConsensusParams) (st : NodeState) (block : CBlock) :
    Except String Bool × BlockMap :=
  withParent (fun p ↦ checkHiveProofFrom env.proofTail env params st p block) st block

/-- `CheckHiveProof2(pblock, params)`. -/
def CheckHiveProof2 (env : HiveEnv) (params : ConsensusParams) (st : NodeState) (block : CBlock) :
    Except String Bool × BlockMap :=
  withParent (fun p ↦ checkHiveProofFrom env.proof2Tail env params st p block) st block

/-- Looking up an unknown parent stores a null pointer under its hash and hands the check that
null pointer. -/
theorem withParent_of_find_none {check : List CBlockIndex → Except String Bool} {st : NodeState}
    {block : CBlock} (hfind : st.mapBlockIndex.find block.hashPrevBlock = none) :
    (withParent check st block).1 = check [] ∧
      (withParent check st block).2.entries =
        st.mapBlockIndex.entries ++ [(block.hashPrevBlock, [])] := by
  simp [withParent, BlockMap.index_of_find_none hfind]

/-- `CheckHiveProof` and `CheckHiveProof2` read the parent before testing it for null. -/
@[simp] theorem checkHiveProofFrom_nil
    (tail : CBlock → List CBlockIndex → ℤ → ℤ → (COutPoint → Option Coin) → Bool)
    (env : HiveEnv) (params : ConsensusParams) (st : NodeState) (block : CBlock) :
    checkHiveProofFrom tail env params st [] block = .error "null pointer dereference" := rfl

/-! ## `GetBlockSubsidy` and `GetBeeCost` -/

/-- `x >>= n` on a `CAmount`: shifting by a negative amount or by 64 or more is undefined. -/
def shiftRightAmount (x n : ℤ) : Except String ℤ :=
  if n < 0 ∨ 64 ≤ n then throw "shift amount out of range" else return x >>> n.toNat

/-- `GetBlockSubsidy(nHeight, params)`. The source's `1.25 * COIN * COIN_SCALE` is a `double`
whose value is the integer `125000000`, and `COIN_SCALE` is `1`. -/
def GetBlockSubsidy (nHeight : ℤ) (params : ConsensusParams) : Except String ℤ := do
  if params.nSubsidyHalvingInterval = 0 then throw "integer division by zero"
  let halvings := nHeight.tdiv params.nSubsidyHalvingInterval
  if halvings ≥ 64 then return 0
  if 1 ≤ nHeight ∧ nHeight ≤ 7 then return 10000000 * COIN
  let nSubsidy : ℤ := 125000000
  let nSubsidy ← shiftRightAmount nSubsidy halvings
  let blocksSinceFork := nHeight - params.lastScryptBlock
  if blocksSinceFork > 0 ∧ blocksSinceFork < params.slowStartBlocks then
    return blocksSinceFork * nSubsidy.tdiv params.slowStartBlocks
  return nSubsidy

/-- `a / b` on `CAmount`: a zero divisor is a fault. -/
def amountDiv (a b : ℤ) : Except String ℤ :=
  if b = 0 then .error "integer division by zero" else .ok (a.tdiv b)

/-- The lifespan `GetBeeCost` multiplies the block reward by, chosen by the tip height `h`:
four assignments in a row, the last that applies winning, and `none` while none has. -/
def beeLifespanAt (params : ConsensusParams) (h : ℤ) : Option ℤ :=
  let lifespan : Option ℤ := if h ≥ nAdjustFork then some params.beeLifespanBlocks else none
  let lifespan := if h ≥ nSpeedFork ∧ h < nAdjustFork then some params.beeLifespanBlocks3
    else lifespan
  let lifespan := if h ≥ params.ratioForkBlock ∧ h < nSpeedFork then some params.beeLifespanBlocks2
    else lifespan
  if h < params.ratioForkBlock then some params.beeLifespanBlocks else lifespan

/-- Some assignment always applies: the four ranges cover every height. -/
theorem isSome_beeLifespanAt (params : ConsensusParams) (h : ℤ) :
    (beeLifespanAt params h).isSome := by
  unfold beeLifespanAt
  dsimp only
  split_ifs <;> try rfl
  simp only [nSpeedFork, nAdjustFork] at *
  omega

/-- `GetBeeCost(nHeight, params)`, reading `chainActive.Height()` and `totalMatureBees`. The
comparison with `haha * 0.9` is made in `double`, as in the source. The product of the lifespan
and the block reward is an `int64_t` in the source and is taken exactly here. The two differ
only where that product overflows, at heights 1 to 7 (`16128 * 10 ^ 15 > 2 ^ 63 - 1` on the main
network). The result is the same there, because `voyon` is `0` and so `haha` is `0` either
way. -/
def GetBeeCost (st : NodeState) (nHeight : ℤ) (params : ConsensusParams) : Except String ℤ := do
  if nHeight ≥ params.totalMoneySupplyHeight ∧ nHeight < nHiveRepairFork then
    return params.minBeeCost
  let blockReward ← GetBlockSubsidy nHeight params
  let beeCost ← amountDiv blockReward params.beeCostFactor
  let h := st.tipHeight
  let potentialLifespanRewards ← match beeLifespanAt params h with
    | some l => amountDiv (l * blockReward) params.hiveBlockSpacingTarget
    | none => throw "uninitialized read"
  let voyon ← amountDiv 10000000 (← amountDiv blockReward params.beeCostFactor)
  let haha := potentialLifespanRewards.tdiv 10000000 * voyon
  let atLeastMin (c : ℤ) := if c ≤ params.minBeeCost then params.minBeeCost else c
  if h ≥ nSpeedFork then return atLeastMin beeCost
  if st.totalMatureBees > 0 ∧ Float.ofInt st.totalMatureBees > Float.ofInt haha * 0.9 then
    return atLeastMin (beeCost * 2)
  return atLeastMin beeCost

/-- Once the tip is past `nSpeedFork` the bee cost is the block reward over `beeCostFactor`,
at least `minBeeCost`; the lifespan and the mature bees no longer count, and the two divisions
whose results go unused can still fault. -/
theorem GetBeeCost_of_speedFork_le {st : NodeState} (nHeight : ℤ) {params : ConsensusParams}
    (h : nSpeedFork ≤ st.tipHeight) :
    GetBeeCost st nHeight params =
      if nHeight ≥ params.totalMoneySupplyHeight ∧ nHeight < nHiveRepairFork then
        .ok params.minBeeCost
      else do
        let blockReward ← GetBlockSubsidy nHeight params
        let beeCost ← amountDiv blockReward params.beeCostFactor
        if params.hiveBlockSpacingTarget = 0 then throw "integer division by zero"
        let _ ← amountDiv 10000000 beeCost
        return if beeCost ≤ params.minBeeCost then params.minBeeCost else beeCost := by
  unfold GetBeeCost
  by_cases h0 : nHeight ≥ params.totalMoneySupplyHeight ∧ nHeight < nHiveRepairFork
  · rw [if_pos h0, if_pos h0]
    rfl
  rw [if_neg h0, if_neg h0]
  cases GetBlockSubsidy nHeight params with
  | error e => rfl
  | ok blockReward =>
  simp only [Except.ok_bind]
  cases hb : amountDiv blockReward params.beeCostFactor with
  | error e => simp only [Except.error_bind]
  | ok beeCost =>
  obtain ⟨l, hl⟩ := Option.isSome_iff_exists.mp (isSome_beeLifespanAt params st.tipHeight)
  simp only [Except.ok_bind, hl]
  by_cases hs : params.hiveBlockSpacingTarget = 0
  · simp only [amountDiv, hs, if_true, Except.error_bind]
    rfl
  · simp only [amountDiv, hs, if_false, Except.ok_bind, ge_iff_le, h, if_true]

end LightningCash
