import LightningCash.Validation.BeeCost
import LightningCash.Wallet.BeeCreation
import LightningCash.Mining.BusyBees

/-!
# `CheckHiveProof3`

After the checks every hive proof starts with (`Validation.HiveProof`), `CheckHiveProof3` in
`pow.cpp` reads the proof from the coinbase's `vout[0]` at fixed offsets (`readHiveProof`) and
checks, in this order:

* the bee hash against the hive target, and the signature by the key of the honey address in
  `vout[1]` (`honeyAddressSigned`);
* that the bee creation transaction (BCT) the proof names exists: its `vout[0]` is looked up in
  the UTXO set of the active tip, `pcoinsTip`, and only when it is not there does the deep drill
  `GetTxByHashAndHeight` read the block at the claimed height on the block's own chain
  (`findBCT`);
* with `communityContrib`, the donation to the community fund, again from `pcoinsTip` first,
  against the factor the active tip's height selects (`communityContribution`);
* the claimed height, the BCT's age, its script and honey address, and the bee count its fee buys
  against the nonce (`bctChecks`).

`pcoinsTip` and the tip height are the node's, not the block's: two nodes on different active
chains can answer differently for one block. What `CheckHiveProof3` reads of the node's state is
exactly the tip height's side of `nContribFork` and the coins at outputs `0` and `1` of the txid
the proof names (`CheckHiveProof3_congr`).

The contribution check is the one `Wallet.BeeCreation` compares the wallet's outputs with, at the
node's tip height, whether the BCT came from the deep drill or from `pcoinsTip`
(`communityContribution_of_findBCT`, `communityContribution_of_coins`).

The source mixes `uint32_t` and `int`: the claimed height is passed to `GetTxByHashAndHeight` as
an `int`, and the BCT's depth is computed in `unsigned int` and stored in an `int`. Both are
modelled with the wrap (`int32Of`). A claimed height of `2 ^ 31` or more becomes a negative
height, and the deep drill then walks the whole chain and fails `assert(pindex->pprev)` at the
genesis block (`CheckBlock_asserts_on_wrapped_bct_height` in `Validation.CheckBlock`).
-/

namespace LightningCash

/-- An `unsigned int` value converted to `int`: from `2 ^ 31` on it wraps to a negative
number. -/
def int32Of (x : ℤ) : ℤ := x.bmod (2 ^ 32)

/-! ## `GetTxByHashAndHeight`, the deep drill -/

/-- `while (pindex->nHeight > nHeight) { assert(pindex->pprev); pindex = pindex->pprev; }`. -/
def walkBackTo (nHeight : ℤ) : List CBlockIndex → Except String (List CBlockIndex)
  | [] => .error "null pointer dereference"
  | b :: pprev =>
    if b.nHeight > nHeight then
      match pprev with
      | [] => .error "assertion failed: pindex->pprev"
      | _ :: _ => walkBackTo nHeight pprev
    else .ok (b :: pprev)

/-- `GetTxByHashAndHeight(txHash, nHeight, txNew, foundAtOut, pindex, params)`: the transaction
and the height of the block it was found in, or `none` for `return false`. -/
def GetTxByHashAndHeight (env : HiveEnv) (txHash : Uint256) (nHeight : ℤ)
    (pindex : List CBlockIndex) : Except String (Option (CTransaction × ℤ)) := do
  if (← deref pindex).nHeight < nHeight then return none
  let pindex ← walkBackTo nHeight pindex
  let foundAt ← deref pindex
  let block ← env.ReadBlockFromDisk pindex
  if block.vtx.length > 0 && env.merkleBlockMatches block txHash then
    return (block.vtx.find? fun tx ↦ txHash == env.GetHash tx).map fun tx ↦ (tx, foundAt.nHeight)
  return none

/-! ## The bee creation transaction -/

/-- `uint256S(txidStr)`, where `txidStr` holds the bytes of the proof's txid as characters. -/
def txidOfChars (txid : List UInt8) : Uint256 :=
  uint256S (String.ofList (txid.map fun b ↦ Char.ofNat b.toNat))

/-- The txid whose outputs `CheckHiveProof3` looks up for a block: the one the proof in its
coinbase's `vout[0]` names. -/
def hiveProofTxid (block : CBlock) : Uint256 :=
  match block.vtx with
  | txCoinbase :: _ =>
    match txCoinbase.vout with
    | out0 :: _ => txidOfChars (readHiveProof out0.scriptPubKey).txid
    | [] => txidOfChars []
  | [] => txidOfChars []

/-- The BCT as `CheckHiveProof3` finds it: `bctFoundHeight`, `bctValue` and `bctScriptPubKey`,
and `bct`, the transaction the deep drill read (null when the UTXO set had the coin). -/
structure FoundBCT where
  bctFoundHeight : UInt32
  bctValue : ℤ
  bctScriptPubKey : CScript
  bct : Option CTransaction

/-- The lookup of `outBeeCreation`: the coin in `pcoinsTip`, else the deep drill at the claimed
height; `none` is "Couldn't locate indicated BCT". -/
def findBCT (env : HiveEnv) (pcoinsTip : COutPoint → Option Coin) (pindexPrev : List CBlockIndex)
    (txid : Uint256) (bctClaimedHeight : UInt32) : Except String (Option FoundBCT) :=
  match pcoinsTip ⟨txid, 0⟩ with
  | some coin =>
    .ok (some ⟨coin.nHeight.toUInt32, coin.out.nValue, coin.out.scriptPubKey, none⟩)
  | none => do
    match ← GetTxByHashAndHeight env txid (int32Of bctClaimedHeight.toNat) pindexPrev with
    | none => return none
    | some (bct, foundHeight) =>
      let out0 ← vecAt bct.vout 0
      return some ⟨UInt32.ofInt foundHeight, out0.nValue, out0.scriptPubKey, some bct⟩

/-! ## The community contribution -/

/-- `if (bct->vout.size() < 2 || bct->vout[1].scriptPubKey != scriptPubKeyCF) return false;
donationAmount = bct->vout[1].nValue;` -/
def donationOfTx (scriptPubKeyCF : CScript) (bct : CTransaction) : Except String (Option ℤ) := do
  if bct.vout.length < 2 then return none
  let out1 ← vecAt bct.vout 1
  if out1.scriptPubKey ≠ scriptPubKeyCF then return none
  return some out1.nValue

/-- The donation of a BCT whose `vout[0]` came from the UTXO set: the coin of `outCommFund` in
`pcoinsTip`, else the transaction the deep drill reads. -/
def donationOfCoins (env : HiveEnv) (pcoinsTip : COutPoint → Option Coin)
    (pindexPrev : List CBlockIndex) (txid : Uint256) (bctClaimedHeight : UInt32)
    (scriptPubKeyCF : CScript) : Except String (Option ℤ) :=
  match pcoinsTip ⟨txid, 1⟩ with
  | some coin =>
    .ok (if coin.out.scriptPubKey ≠ scriptPubKeyCF then none else some coin.out.nValue)
  | none => do
    match ← GetTxByHashAndHeight env txid (int32Of bctClaimedHeight.toNat) pindexPrev with
    | none => return none
    | some (bct, _) => donationOfTx scriptPubKeyCF bct

/-- `donationAmount`, from the transaction if the deep drill read it and from `pcoinsTip`
otherwise; `none` is one of the `return false`. -/
def donationOf (env : HiveEnv) (pcoinsTip : COutPoint → Option Coin)
    (pindexPrev : List CBlockIndex) (txid : Uint256) (bctClaimedHeight : UInt32)
    (scriptPubKeyCF : CScript) : Option CTransaction → Except String (Option ℤ)
  | none => donationOfCoins env pcoinsTip pindexPrev txid bctClaimedHeight scriptPubKeyCF
  | some bct => donationOfTx scriptPubKeyCF bct

/-- The community contribution check: the fund's script is chosen by the height the BCT was
found at, the factor by the height of the active tip. The fee with the donation added, or
`none` where the proof is rejected. -/
def communityContribution (env : HiveEnv) (params : ConsensusParams) (st : NodeState)
    (pindexPrev : List CBlockIndex) (txid : Uint256) (bctClaimedHeight : UInt32)
    (found : FoundBCT) : Except String (Option ℤ) := do
  let scriptPubKeyCF := if found.bctFoundHeight ≥ UInt32.ofInt nLightFork then
    env.scriptPubKeyCF2 else env.scriptPubKeyCF
  match ← donationOf env st.pcoinsTip pindexPrev txid bctClaimedHeight scriptPubKeyCF found.bct with
  | none => return none
  | some donationAmount =>
    let expectedDonationAmount ← amountDiv (found.bctValue + donationAmount)
      (communityContribFactorAt params st.tipHeight)
    if donationAmount ≠ expectedDonationAmount then return none
    return some (found.bctValue + donationAmount)

/-- `bctValue` after the contribution check: with `communityContrib` the donation is added. -/
def beeFee (env : HiveEnv) (params : ConsensusParams) (st : NodeState)
    (pindexPrev : List CBlockIndex) (fields : HiveProofFields) (found : FoundBCT) :
    Except String (Option ℤ) :=
  if fields.communityContrib then
    communityContribution env params st pindexPrev (txidOfChars fields.txid)
      fields.bctClaimedHeight found
  else .ok (some found.bctValue)

/-! ## The proof -/

/-- The honey address of the coinbase's `vout[1]`, when it is a valid key ID whose key signed the
proof: the checks from `ExtractDestination` to the comparison of key IDs, `none` being one of
their `return false`. -/
def honeyAddressSigned (env : HiveEnv) (pindexPrev : List CBlockIndex) (txCoinbase : CTransaction)
    (messageSig : List UInt8) : Except String (Option CTxDestination) := do
  let out1 ← vecAt txCoinbase.vout 1
  match env.ExtractDestination out1.scriptPubKey with
  | none => return none
  | some honeyDestination =>
    -- `IsValidDestination`, then `boost::get<CKeyID>`
    if honeyDestination = .CNoDestination then return none
    match honeyDestination with
    | .CKeyID keyID =>
      match env.RecoverCompactID pindexPrev messageSig with
      | none => return none
      | some id => return if id = keyID then some honeyDestination else none
    | _ => return none

/-- The checks on the BCT once its fee is known: the claimed height, the age against the
gestation and the lifespan chosen by the BCT's own height, the script, the honey address, and
the bee count its fee buys against the nonce. -/
def bctChecks (env : HiveEnv) (params : ConsensusParams) (prevHeight : ℤ)
    (fields : HiveProofFields) (honeyDestination : CTxDestination) (found : FoundBCT)
    (bctValue : ℤ) : Except String Bool := do
  let bctFoundHeight := found.bctFoundHeight
  if bctFoundHeight ≠ fields.bctClaimedHeight then return false
  -- `int bctDepth = blockHeight - bctFoundHeight`, subtracted as `unsigned int`
  let bctDepth := int32Of (prevHeight + 1 - bctFoundHeight.toNat)
  if bctDepth < params.beeGestationBlocks then return false
  if bctFoundHeight ≥ UInt32.ofInt nAdjustFork ∧
      bctDepth > params.beeGestationBlocks + params.beeLifespanBlocks then return false
  if bctFoundHeight ≥ UInt32.ofInt params.ratioForkBlock ∧
      bctFoundHeight < UInt32.ofInt nAdjustFork then
    if bctDepth > params.beeGestationBlocks + params.beeLifespanBlocks2 then return false
  else if bctDepth > params.beeGestationBlocks + params.beeLifespanBlocks then return false
  if !IsBCTScript found.bctScriptPubKey env.scriptPubKeyBCF then return false
  match env.ExtractDestination (BCTHoneyScript found.bctScriptPubKey) with
  | none => return false
  | some honeyDestinationBCT =>
    if honeyDestination ≠ honeyDestinationBCT then return false
    match ← hiveProof3BeeCount params prevHeight bctValue with
    | none => return false
    | some beeCount => return decide ((fields.beeNonce.toNat : ℤ) < beeCount)

/-- `CheckHiveProof3` from the hive proof on, the format of the block checked: `prev` is the
parent, read through `pindexPrev`. -/
def hiveProof3Tail (env : HiveEnv) (params : ConsensusParams) (st : NodeState)
    (pindexPrev : List CBlockIndex) (prev : CBlockIndex) (block : CBlock) : Except String Bool := do
  let txCoinbase ← vecAt block.vtx 0
  let fields := readHiveProof (← vecAt txCoinbase.vout 0).scriptPubKey
  if !env.beeHashMeetsTarget pindexPrev fields.txid fields.beeNonce then return false
  match ← honeyAddressSigned env pindexPrev txCoinbase fields.messageSig with
  | none => return false
  | some honeyDestination =>
    match ← findBCT env st.pcoinsTip pindexPrev (txidOfChars fields.txid)
        fields.bctClaimedHeight with
    | none => return false
    | some found =>
      match ← beeFee env params st pindexPrev fields found with
      | none => return false
      | some bctValue => bctChecks env params prev.nHeight fields honeyDestination found bctValue

/-- `CheckHiveProof3` from the parent pointer on. -/
def checkHiveProof3From (env : HiveEnv) (params : ConsensusParams) (st : NodeState)
    (pindexPrev : List CBlockIndex) (block : CBlock) : Except String Bool := do
  let prev ← deref pindexPrev
  if !env.IsHiveEnabled pindexPrev then return false
  if IsHive12Enabled prev.nHeight then
    if (← hiveBlocksAtTip params pindexPrev 0) ≥ params.maxConsecutiveHiveBlocks then
      return false
  else if prev.IsHiveMined params then return false
  if !(← hiveFormatChecks env.scriptPubKeyBCF block) then return false
  hiveProof3Tail env params st pindexPrev prev block

/-- `CheckHiveProof3(pblock, params)`. -/
def CheckHiveProof3 (env : HiveEnv) (params : ConsensusParams) (st : NodeState) (block : CBlock) :
    Except String Bool × BlockMap :=
  withParent (fun p ↦ checkHiveProof3From env params st p block) st block

/-- `CheckHiveProof3` reads the parent before testing it for null. -/
@[simp] theorem checkHiveProof3From_nil (env : HiveEnv) (params : ConsensusParams)
    (st : NodeState) (block : CBlock) :
    checkHiveProof3From env params st [] block = .error "null pointer dereference" := rfl

/-! ## What `CheckHiveProof3` reads of the node -/

/-- Two views of the UTXO set agree on outputs `0` and `1` of `txid`, the only coins
`CheckHiveProof3` looks up for a proof naming `txid`. -/
def CoinsAgreeOnBCT (p p' : COutPoint → Option Coin) (txid : Uint256) : Prop :=
  p' ⟨txid, 0⟩ = p ⟨txid, 0⟩ ∧ p' ⟨txid, 1⟩ = p ⟨txid, 1⟩

section Congr

variable {env : HiveEnv} {params : ConsensusParams} {st st' : NodeState}
  {pindexPrev : List CBlockIndex} {txid : Uint256} {bctClaimedHeight : UInt32}
  {p p' : COutPoint → Option Coin}

theorem findBCT_congr (h0 : p' ⟨txid, 0⟩ = p ⟨txid, 0⟩) :
    findBCT env p' pindexPrev txid bctClaimedHeight =
      findBCT env p pindexPrev txid bctClaimedHeight := by
  unfold findBCT
  rw [h0]

theorem donationOf_congr (h1 : p' ⟨txid, 1⟩ = p ⟨txid, 1⟩) (scriptPubKeyCF : CScript) :
    ∀ bct, donationOf env p' pindexPrev txid bctClaimedHeight scriptPubKeyCF bct =
      donationOf env p pindexPrev txid bctClaimedHeight scriptPubKeyCF bct
  | none => by simp only [donationOf, donationOfCoins, h1]
  | some _ => rfl

/-- The contribution check reads the node's coins at output `1` and the factor its tip selects. -/
theorem communityContribution_congr (h1 : st'.pcoinsTip ⟨txid, 1⟩ = st.pcoinsTip ⟨txid, 1⟩)
    (hfactor : communityContribFactorAt params st'.tipHeight =
      communityContribFactorAt params st.tipHeight) (found : FoundBCT) :
    communityContribution env params st' pindexPrev txid bctClaimedHeight found =
      communityContribution env params st pindexPrev txid bctClaimedHeight found := by
  simp only [communityContribution, donationOf_congr h1, hfactor]

theorem beeFee_congr {fields : HiveProofFields}
    (h1 : st'.pcoinsTip ⟨txidOfChars fields.txid, 1⟩ = st.pcoinsTip ⟨txidOfChars fields.txid, 1⟩)
    (hfactor : communityContribFactorAt params st'.tipHeight =
      communityContribFactorAt params st.tipHeight) (found : FoundBCT) :
    beeFee env params st' pindexPrev fields found = beeFee env params st pindexPrev fields found := by
  unfold beeFee
  rw [communityContribution_congr h1 hfactor]

/-- The proof's remainder reads the node's coins only at the outputs of the txid it names. -/
theorem hiveProof3Tail_congr {block : CBlock}
    (hcoins : CoinsAgreeOnBCT st.pcoinsTip st'.pcoinsTip (hiveProofTxid block))
    (hfactor : communityContribFactorAt params st'.tipHeight =
      communityContribFactorAt params st.tipHeight) (prev : CBlockIndex) :
    hiveProof3Tail env params st' pindexPrev prev block =
      hiveProof3Tail env params st pindexPrev prev block := by
  -- without a coinbase and its `vout[0]` both fault alike; with them the txid is the block's
  rcases hvtx : block.vtx with _ | ⟨txCoinbase, rest⟩
  · simp only [hiveProof3Tail, hvtx, vecAt_nil, Except.error_bind]
  rcases hvout : txCoinbase.vout with _ | ⟨out0, outs⟩
  · simp only [hiveProof3Tail, hvtx, hvout, vecAt_cons_zero, vecAt_nil, Except.ok_bind,
      Except.error_bind]
  have htxid : hiveProofTxid block = txidOfChars (readHiveProof out0.scriptPubKey).txid := by
    simp only [hiveProofTxid, hvtx, hvout]
  rw [htxid] at hcoins
  simp only [hiveProof3Tail, hvtx, hvout, vecAt_cons_zero, Except.ok_bind,
    findBCT_congr hcoins.1, beeFee_congr hcoins.2 hfactor]

theorem checkHiveProof3From_congr {block : CBlock}
    (hcoins : CoinsAgreeOnBCT st.pcoinsTip st'.pcoinsTip (hiveProofTxid block))
    (hfactor : communityContribFactorAt params st'.tipHeight =
      communityContribFactorAt params st.tipHeight) (pindexPrev : List CBlockIndex) :
    checkHiveProof3From env params st' pindexPrev block =
      checkHiveProof3From env params st pindexPrev block := by
  simp only [checkHiveProof3From, hiveProof3Tail_congr hcoins hfactor]

/-- **What `CheckHiveProof3` reads of the node**: the index map, the side of `nContribFork` the
tip is on, and the coins at outputs `0` and `1` of the txid the proof names. -/
theorem CheckHiveProof3_congr (block : CBlock) (hmap : st'.mapBlockIndex = st.mapBlockIndex)
    (htip : st'.tipHeight ≥ nContribFork ↔ st.tipHeight ≥ nContribFork)
    (hcoins : CoinsAgreeOnBCT st.pcoinsTip st'.pcoinsTip (hiveProofTxid block)) :
    CheckHiveProof3 env params st' block = CheckHiveProof3 env params st block := by
  have hfactor : communityContribFactorAt params st'.tipHeight =
      communityContribFactorAt params st.tipHeight := by
    unfold communityContribFactorAt
    by_cases hc : st.tipHeight ≥ nContribFork
    · rw [if_pos hc, if_pos (htip.mpr hc)]
    · rw [if_neg hc, if_neg (mt htip.mp hc)]
  simp only [CheckHiveProof3, withParent, hmap, checkHiveProof3From_congr hcoins hfactor]

end Congr

/-! ## The contribution check on the wallet's transaction

`Wallet.BeeCreation` compares the outputs the wallet builds with `checkCommunityContrib`, the
contribution check read off the transaction. Whether `CheckHiveProof3` takes the BCT from the deep
drill or its two outputs from `pcoinsTip`, it computes that check at the node's tip height. -/

section Wallet

variable {env : HiveEnv} {params : ConsensusParams} {st : NodeState}
  {pindexPrev : List CBlockIndex} {txid : Uint256} {bctClaimedHeight : UInt32}

/-- What the deep drill hands on: the transaction it read, whose `vout[0]` gave the value. -/
theorem findBCT_drilled {pcoinsTip : COutPoint → Option Coin} {found : FoundBCT}
    {bct : CTransaction} (h : findBCT env pcoinsTip pindexPrev txid bctClaimedHeight = .ok (some found))
    (hbct : found.bct = some bct) :
    ∃ out0 outs, bct.vout = out0 :: outs ∧ found.bctValue = out0.nValue := by
  unfold findBCT at h
  split at h
  · -- a coin leaves no transaction behind
    simp at h
    subst h
    simp at hbct
  · rcases hdrill : GetTxByHashAndHeight env txid (int32Of bctClaimedHeight.toNat) pindexPrev with
      _ | _ | ⟨bct', foundHeight⟩
    · simp [hdrill] at h
    · simp [hdrill] at h
    · rcases hv : bct'.vout with _ | ⟨out0, outs⟩
      · simp [hdrill, hv] at h
      · simp [hdrill, hv] at h
        subst h
        simp at hbct
        subst hbct
        exact ⟨out0, outs, hv, rfl⟩

/-- Once the donation is the one `vout[1]` of `bct` gives, the contribution check is
`checkCommunityContrib` of `bct`. -/
theorem communityContribution_of_donationOf {bct : CTransaction} {out0 : CTxOut}
    {outs : List CTxOut} (hvout : bct.vout = out0 :: outs) {found : FoundBCT}
    (hvalue : found.bctValue = out0.nValue)
    (hdonation : ∀ scriptPubKeyCF, donationOf env st.pcoinsTip pindexPrev txid bctClaimedHeight
      scriptPubKeyCF found.bct = donationOfTx scriptPubKeyCF bct) :
    communityContribution env params st pindexPrev txid bctClaimedHeight found =
      checkCommunityContrib params st.tipHeight
        (if found.bctFoundHeight ≥ UInt32.ofInt nLightFork then env.scriptPubKeyCF2
          else env.scriptPubKeyCF) bct := by
  rw [communityContribution, hdonation]
  -- both read `vout[1]` alike; they differ only in when `vout[0]` is read
  rcases outs with _ | ⟨out1, outs⟩
  · simp [checkCommunityContrib, donationOfTx, hvout]
  · have h1 : vecAt (out0 :: out1 :: outs) 1 = .ok out1 := rfl
    by_cases hcf : out1.scriptPubKey = if found.bctFoundHeight ≥ UInt32.ofInt nLightFork then
        env.scriptPubKeyCF2 else env.scriptPubKeyCF
    · simp [checkCommunityContrib, donationOfTx, hvout, hvalue, h1, hcf]
    · simp [checkCommunityContrib, donationOfTx, hvout, hvalue, h1, hcf]

/-- On a BCT the deep drill found, the contribution check is `checkCommunityContrib` at the node's
tip height, with the fund's script the BCT's height chooses. -/
theorem communityContribution_of_findBCT {pcoinsTip : COutPoint → Option Coin} {found : FoundBCT}
    {bct : CTransaction} (h : findBCT env pcoinsTip pindexPrev txid bctClaimedHeight = .ok (some found))
    (hbct : found.bct = some bct) :
    communityContribution env params st pindexPrev txid bctClaimedHeight found =
      checkCommunityContrib params st.tipHeight
        (if found.bctFoundHeight ≥ UInt32.ofInt nLightFork then env.scriptPubKeyCF2
          else env.scriptPubKeyCF) bct := by
  obtain ⟨out0, outs, hvout, hvalue⟩ := findBCT_drilled h hbct
  exact communityContribution_of_donationOf hvout hvalue fun _ ↦ by rw [hbct]; rfl

/-- On a BCT whose outputs `0` and `1` were read from `pcoinsTip`, the contribution check is again
`checkCommunityContrib` of the transaction. -/
theorem communityContribution_of_coins {bct : CTransaction} {out0 out1 : CTxOut}
    {outs : List CTxOut} (hvout : bct.vout = out0 :: out1 :: outs) {coin1 : Coin}
    (hcoin1 : st.pcoinsTip ⟨txid, 1⟩ = some coin1) (hout1 : coin1.out = out1) {found : FoundBCT}
    (hbct : found.bct = none) (hvalue : found.bctValue = out0.nValue) :
    communityContribution env params st pindexPrev txid bctClaimedHeight found =
      checkCommunityContrib params st.tipHeight
        (if found.bctFoundHeight ≥ UInt32.ofInt nLightFork then env.scriptPubKeyCF2
          else env.scriptPubKeyCF) bct := by
  refine communityContribution_of_donationOf hvout hvalue fun scriptPubKeyCF ↦ ?_
  have h1 : vecAt (out0 :: out1 :: outs) 1 = .ok out1 := rfl
  -- the coin of `outCommFund` is `vout[1]`
  simp [donationOf, donationOfCoins, donationOfTx, hbct, hcoin1, hout1, hvout, h1]
  split_ifs <;> rfl

end Wallet

/-! ## From the checks on the parent to the remainder -/

section Prefix

variable {env : HiveEnv} {params : ConsensusParams} {st : NodeState} {prev : CBlockIndex}
  {pprev : List CBlockIndex} {block : CBlock}

/-- At a parent mined with proof of work, no hive block is counted at the tip. -/
theorem hiveBlocksAtTip_of_pow (hpow : prev.IsHiveMined params = false) (n : ℤ) :
    hiveBlocksAtTip params (prev :: pprev) n = .ok n := by
  simp [hiveBlocksAtTip, hpow]

/-- On a parent mined with proof of work at which the hive is enabled, and on a block of the
right format, `CheckHiveProof3` is its remainder. -/
theorem checkHiveProof3From_of_pow (henabled : env.IsHiveEnabled (prev :: pprev) = true)
    (hpow : prev.IsHiveMined params = false) (hmax : 0 < params.maxConsecutiveHiveBlocks)
    (hformat : hiveFormatChecks env.scriptPubKeyBCF block = .ok true) :
    checkHiveProof3From env params st (prev :: pprev) block =
      hiveProof3Tail env params st (prev :: pprev) prev block := by
  -- both branches on `IsHive12Enabled` let a parent mined with proof of work through
  cases h12 : IsHive12Enabled prev.nHeight <;>
    simp [checkHiveProof3From, deref, henabled, h12, hpow, hiveBlocksAtTip_of_pow hpow,
      not_le.mpr hmax, hformat]

end Prefix

/-! ## A claimed height of `2 ^ 31` or more -/

/-- A `uint32_t` of `2 ^ 31` or more, passed as an `int`, is negative. -/
theorem int32Of_neg {x : ℕ} (hlo : 2 ^ 31 ≤ x) (hhi : x < 2 ^ 32) : int32Of x < 0 := by
  have hmod : (x : ℤ) % ((2 ^ 32 : ℕ) : ℤ) = x := Int.emod_eq_of_lt (by omega) (by push_cast; omega)
  rw [int32Of, Int.bmod_def, hmod, if_neg (by push_cast; omega)]
  push_cast
  omega

/-- The walk back to a height below every height of the chain falls off its end: at the genesis
block `pindex->pprev` is null. -/
theorem walkBackTo_of_lt {nHeight : ℤ} :
    ∀ {pindex : List CBlockIndex}, pindex ≠ [] → (∀ b ∈ pindex, nHeight < b.nHeight) →
      walkBackTo nHeight pindex = .error "assertion failed: pindex->pprev"
  | [b], _, h => by simp [walkBackTo, h b List.mem_cons_self]
  | b :: b' :: pprev, _, h => by
    rw [walkBackTo, if_pos (h b List.mem_cons_self)]
    exact walkBackTo_of_lt (List.cons_ne_nil _ _) fun b'' hb'' ↦ h b'' (List.mem_cons_of_mem _ hb'')

/-- The deep drill at a negative height, on a chain of non-negative heights, fails the
assertion. -/
theorem GetTxByHashAndHeight_of_neg (env : HiveEnv) (txHash : Uint256) {nHeight : ℤ}
    (hneg : nHeight < 0) {pindex : List CBlockIndex} (hne : pindex ≠ [])
    (hheights : ∀ b ∈ pindex, 0 ≤ b.nHeight) :
    GetTxByHashAndHeight env txHash nHeight pindex = .error "assertion failed: pindex->pprev" := by
  obtain ⟨b, pprev, rfl⟩ := List.exists_cons_of_ne_nil hne
  have hwalk := walkBackTo_of_lt hne fun b' hb' ↦ lt_of_lt_of_le hneg (hheights b' hb')
  have hb := hheights b List.mem_cons_self
  simp [GetTxByHashAndHeight, deref, not_lt.mpr (le_trans hneg.le hb), hwalk]

/-- A BCT missing from the UTXO set, claimed at a height of `2 ^ 31` or more, sends the lookup
down the deep drill at a negative height. -/
theorem findBCT_of_wrapped_height (env : HiveEnv) {pcoinsTip : COutPoint → Option Coin}
    {txid : Uint256} (hcoin : pcoinsTip ⟨txid, 0⟩ = none) {bctClaimedHeight : UInt32}
    (hclaimed : 2 ^ 31 ≤ bctClaimedHeight.toNat) {pindexPrev : List CBlockIndex}
    (hne : pindexPrev ≠ []) (hheights : ∀ b ∈ pindexPrev, 0 ≤ b.nHeight) :
    findBCT env pcoinsTip pindexPrev txid bctClaimedHeight =
      .error "assertion failed: pindex->pprev" := by
  have hdrill := GetTxByHashAndHeight_of_neg env txid
    (int32Of_neg hclaimed bctClaimedHeight.toNat_lt) hne hheights
  simp only [findBCT, hcoin, hdrill, Except.error_bind]

/-- A proof that passes the hash and signature checks, naming a BCT missing from the UTXO set
at a claimed height of `2 ^ 31` or more, fails the assertion of the deep drill. -/
theorem hiveProof3Tail_of_wrapped_height {env : HiveEnv} {params : ConsensusParams}
    {st : NodeState} {pindexPrev : List CBlockIndex} {prev : CBlockIndex} {block : CBlock}
    {txCoinbase : CTransaction} {rest : List CTransaction} {out0 : CTxOut} {outs : List CTxOut}
    (hvtx : block.vtx = txCoinbase :: rest) (hvout : txCoinbase.vout = out0 :: outs)
    (hhash : env.beeHashMeetsTarget pindexPrev (readHiveProof out0.scriptPubKey).txid
      (readHiveProof out0.scriptPubKey).beeNonce = true)
    (hsigned : ∃ d, honeyAddressSigned env pindexPrev txCoinbase
      (readHiveProof out0.scriptPubKey).messageSig = .ok (some d))
    (hclaimed : 2 ^ 31 ≤ (readHiveProof out0.scriptPubKey).bctClaimedHeight.toNat)
    (hcoin : st.pcoinsTip ⟨hiveProofTxid block, 0⟩ = none) (hne : pindexPrev ≠ [])
    (hheights : ∀ b ∈ pindexPrev, 0 ≤ b.nHeight) :
    hiveProof3Tail env params st pindexPrev prev block =
      .error "assertion failed: pindex->pprev" := by
  obtain ⟨d, hd⟩ := hsigned
  have htxid : hiveProofTxid block = txidOfChars (readHiveProof out0.scriptPubKey).txid := by
    simp only [hiveProofTxid, hvtx, hvout]
  rw [htxid] at hcoin
  simp [hiveProof3Tail, hvtx, hvout, hhash, hd, findBCT_of_wrapped_height env hcoin hclaimed hne
    hheights]

end LightningCash
