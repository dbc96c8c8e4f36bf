import LightningCash.Validation.HiveProof
import LightningCash.Script.Script

/-!
# Bee creation transactions and the community contribution rule

`CWallet::CreateBeeTransaction3` pays the bee cost `T` to the bee creation script and, with
`communityContrib`, gives the community fund `T / factor`, where the factor is chosen by the
wallet's tip height at creation. `CheckHiveProof3`, and `GetNetworkHiveInfo` when it counts bees,
accept the contribution when it equals the sum of both outputs over the factor chosen by their
own tip height, at validation.

`CreateTransaction` turns the recipients into the first outputs, in order; the change goes to
the position the caller asks for, two here, and the fee adjustments after the first round only
touch the change output (`CreateTransaction_round_take`). Coin selection, fee estimation and
signing are not modelled: nothing in the outputs before the change depends on them.

## Main results

* `beeCreationScript_IsBCTScript`: the bee creation script is fifty-two bytes and passes
  `IsBCTScript`, and the honey script read back from it is the honey address's script.
* `contribution_accepted_iff`: both validators accept the wallet's contribution exactly when
  `T / factor` is the same at the creation tip and at the validation tip, so always when both
  tips are on one side of `nContribFork` and, on the main network, not for `T ≥ 2` across it.
-/

namespace LightningCash

/-- `CKeyID`, the hash of a public key: twenty bytes. -/
structure CKeyID where
  data : List UInt8
  length_data : data.length = 20

/-- `GetScriptForDestination` on a key ID: pay to public key hash. -/
def GetScriptForDestination (keyID : CKeyID) : CScript :=
  [OP_DUP, OP_HASH160] ++ pushData keyID.data ++ [OP_EQUALVERIFY, OP_CHECKSIG]

/-- The honey script `IsBCTScript` hands back through `scriptPubKeyHoney`: what follows
`OP_RETURN OP_BEE`. -/
def BCTHoneyScript (scriptPubKey : CScript) : CScript :=
  scriptPubKey.drop 27

/-- The community contribution divisor chosen by the tip height `h`, as both the wallet and the
validators choose it, each from its own tip. -/
def communityContribFactorAt (params : ConsensusParams) (h : ℤ) : ℤ :=
  if h ≥ nContribFork then params.communityContribFactor2 else params.communityContribFactor

/-! ## The wallet -/

structure CRecipient where
  scriptPubKey : CScript
  nAmount : ℤ
  fSubtractFeeFromAmount : Bool

/-- `CTxOut txout(recipient.nAmount, recipient.scriptPubKey)`. -/
def CRecipient.toTxOut (recipient : CRecipient) : CTxOut :=
  ⟨recipient.nAmount, recipient.scriptPubKey⟩

/-- The bee creation output's script: the bee creation address's script, `OP_RETURN OP_BEE`,
and the honey address's script. -/
def beeCreationScript (scriptPubKeyBCF : CScript) (destinationFCA : CKeyID) : CScript :=
  scriptPubKeyBCF ++ [OP_RETURN, OP_BEE] ++ GetScriptForDestination destinationFCA

/-- The recipients `CWallet::CreateBeeTransaction3` hands to `CreateTransaction`, from the tip
height at creation, the bee creation and honey addresses (key IDs) and the community fund's
script. The donation is computed, and can fault, with or without `communityContrib`. -/
def CreateBeeTransaction3Recipients (params : ConsensusParams) (tipHeight : ℤ)
    (destinationBCF destinationFCA : CKeyID) (scriptPubKeyCF : CScript) (totalBeeCost : ℤ)
    (communityContrib : Bool) : Except String (List CRecipient) := do
  let scriptPubKeyBCF := beeCreationScript (GetScriptForDestination destinationBCF) destinationFCA
  let donationValue ← amountDiv totalBeeCost (communityContribFactorAt params tipHeight)
  let beeCreationValue := if communityContrib then totalBeeCost - donationValue else totalBeeCost
  let recipientBCF : CRecipient := ⟨scriptPubKeyBCF, beeCreationValue, false⟩
  if communityContrib then
    return [recipientBCF, ⟨scriptPubKeyCF, donationValue, false⟩]
  return [recipientBCF]

/-- The loop over the recipients in a round of `CWallet::CreateTransaction`: each becomes an
output, less its share of the fee when the fee is subtracted from it (the first such one also
pays the remainder); a dust output fails the whole transaction. -/
def recipientOutputs (IsDust : CTxOut → Bool) (nFeeRet nSubtractFeeFromAmount : ℤ) :
    Bool → List CRecipient → Except String (List CTxOut)
  | _, [] => .ok []
  | fFirst, recipient :: rest => do
    let share := if recipient.fSubtractFeeFromAmount then nFeeRet.tdiv nSubtractFeeFromAmount
      else 0
    let remainder := if recipient.fSubtractFeeFromAmount && fFirst then
      nFeeRet.tmod nSubtractFeeFromAmount else 0
    let txout : CTxOut := ⟨recipient.nAmount - share - remainder, recipient.scriptPubKey⟩
    if IsDust txout then
      throw (if recipient.fSubtractFeeFromAmount && decide (nFeeRet > 0) then
          if txout.nValue < 0 then "The transaction amount is too small to pay the fee"
          else "The transaction amount is too small to send after the fee has been deducted"
        else "Transaction amount too small")
    let rest ← recipientOutputs IsDust nFeeRet nSubtractFeeFromAmount
      (fFirst && !recipient.fSubtractFeeFromAmount) rest
    return txout :: rest

/-- The change step of a round: change worth keeping goes in at `nChangePosInOut`, at a random
position `randPos` when that is `-1`, and a requested position past the end (as an unsigned
index) is a failure. The outputs, the change position (`-1` for none) and the fee. -/
def insertChange (IsDust : CTxOut → Bool) (vout : List CTxOut) (nChange : ℤ)
    (scriptChange : CScript) (nChangePosInOut : ℤ) (randPos : ℕ) (nFeeRet : ℤ) :
    Except String (List CTxOut × ℤ × ℤ) :=
  if nChange > 0 then
    let newTxOut : CTxOut := ⟨nChange, scriptChange⟩
    if IsDust newTxOut then .ok (vout, -1, nFeeRet + nChange)
    else if nChangePosInOut = -1 then
      .ok (vout.insertIdx randPos newTxOut, randPos, nFeeRet)
    else if (nChangePosInOut % 2 ^ 32).toNat > vout.length then .error "Change index out of range"
    else .ok (vout.insertIdx nChangePosInOut.toNat newTxOut, nChangePosInOut, nFeeRet)
  else .ok (vout, -1, nFeeRet)

/-- `change_position->nValue += delta`: the fee adjustments after a round. -/
def adjustChange (vout : List CTxOut) (nChangePosInOut delta : ℤ) : List CTxOut :=
  vout.modify nChangePosInOut.toNat fun txout ↦ { txout with nValue := txout.nValue + delta }

/-! ## The validators -/

/-- The community contribution check of `CheckHiveProof3` once it has found the bee creation
transaction `bct` (`bctValue` is `bct->vout[0].nValue`, read when it was found), with the fund's
script chosen by the height it was found at: `none` rejects the proof, `some` is the bee fee with
the contribution added. -/
def checkCommunityContrib (params : ConsensusParams) (tipHeight : ℤ) (scriptPubKeyCF : CScript)
    (bct : CTransaction) : Except String (Option ℤ) := do
  let bctValue := (← vecAt bct.vout 0).nValue
  if bct.vout.length < 2 then return none
  let out1 ← vecAt bct.vout 1
  if out1.scriptPubKey ≠ scriptPubKeyCF then return none
  let donationAmount := out1.nValue
  let expectedDonationAmount ←
    amountDiv (bctValue + donationAmount) (communityContribFactorAt params tipHeight)
  if donationAmount ≠ expectedDonationAmount then return none
  return some (bctValue + donationAmount)

/-- The contribution step of `GetNetworkHiveInfo` on a bee creation transaction whose `vout[0]`
pays `beeFeePaid`: a contribution to the fund of another amount than expected makes the loop
skip the transaction (`none`); otherwise its bees are counted from the fee with any contribution
added. -/
def networkBeeFee (params : ConsensusParams) (tipHeight : ℤ) (scriptPubKeyCF : CScript)
    (tx : CTransaction) (beeFeePaid : ℤ) : Except String (Option ℤ) := do
  if tx.vout.length > 1 then
    let out1 ← vecAt tx.vout 1
    if out1.scriptPubKey = scriptPubKeyCF then
      let donationAmount := out1.nValue
      let expectedDonationAmount ←
        amountDiv (beeFeePaid + donationAmount) (communityContribFactorAt params tipHeight)
      if donationAmount ≠ expectedDonationAmount then return none
      return some (beeFeePaid + donationAmount)
  return some beeFeePaid

/-! ## The bee creation script -/

theorem length_GetScriptForDestination (keyID : CKeyID) :
    (GetScriptForDestination keyID).length = 25 := by
  simp [GetScriptForDestination, pushData, keyID.length_data, OP_PUSHDATA1]

/-- Behind a twenty-five byte script for the bee creation address, the bee creation script is
fifty-two bytes, passes `IsBCTScript` and gives back the honey address's script. -/
theorem beeCreationScript_IsBCTScript {scriptPubKeyBCF : CScript}
    (hlen : scriptPubKeyBCF.length = 25) (destinationFCA : CKeyID) :
    IsBCTScript (beeCreationScript scriptPubKeyBCF destinationFCA) scriptPubKeyBCF = true ∧
      BCTHoneyScript (beeCreationScript scriptPubKeyBCF destinationFCA) =
        GetScriptForDestination destinationFCA := by
  have hFCA := length_GetScriptForDestination destinationFCA
  -- the script splits after the bee creation address's script and after the two opcodes
  have hsplit : beeCreationScript scriptPubKeyBCF destinationFCA =
      scriptPubKeyBCF ++ (OP_RETURN :: OP_BEE :: GetScriptForDestination destinationFCA) := by
    simp [beeCreationScript]
  constructor
  · simp only [IsBCTScript, hsplit, Bool.and_eq_true, beq_iff_eq]
    refine ⟨⟨⟨?_, ?_⟩, ?_⟩, ?_⟩
    · simp [hlen, hFCA]
    · rw [← hlen, List.take_left]
    · rw [List.getD_eq_getElem?_getD, List.getElem?_append_right (by omega), hlen]
      rfl
    · rw [List.getD_eq_getElem?_getD, List.getElem?_append_right (by omega), hlen]
      rfl
  · rw [BCTHoneyScript, hsplit, List.drop_append, List.drop_eq_nil_of_le (by omega),
      List.nil_append, hlen]
    rfl


/-! ## The amounts -/

section Amounts

variable {params : ConsensusParams} {tipHeight : ℤ}

/-- With the community contribution, the wallet pays `T - T / factor` to the bee creation
script and `T / factor` to the fund, by the factor at its tip. -/
theorem CreateBeeTransaction3Recipients_contrib
    (hfactor : communityContribFactorAt params tipHeight ≠ 0)
    (destinationBCF destinationFCA : CKeyID) (scriptPubKeyCF : CScript) (totalBeeCost : ℤ) :
    CreateBeeTransaction3Recipients params tipHeight destinationBCF destinationFCA scriptPubKeyCF
        totalBeeCost true =
      .ok [⟨beeCreationScript (GetScriptForDestination destinationBCF) destinationFCA,
          totalBeeCost - totalBeeCost.tdiv (communityContribFactorAt params tipHeight), false⟩,
        ⟨scriptPubKeyCF, totalBeeCost.tdiv (communityContribFactorAt params tipHeight),
          false⟩] := by
  simp [CreateBeeTransaction3Recipients, amountDiv, hfactor]

/-- A transaction whose first two outputs are `b` to some script and `d` to the fund. -/
theorem vout_of_take_two {tx : CTransaction} {b d : ℤ} {scriptPubKey scriptPubKeyCF : CScript}
    (htake : tx.vout.take 2 = [⟨b, scriptPubKey⟩, ⟨d, scriptPubKeyCF⟩]) :
    ∃ rest, tx.vout = ⟨b, scriptPubKey⟩ :: ⟨d, scriptPubKeyCF⟩ :: rest :=
  ⟨tx.vout.drop 2, by rw [← List.take_append_drop 2 tx.vout, htake]; rfl⟩

/-- `CheckHiveProof3` accepts the contribution exactly when it is the sum over the factor at its
tip. -/
theorem checkCommunityContrib_of_take_two (hfactor : communityContribFactorAt params tipHeight ≠ 0)
    {tx : CTransaction} {b d : ℤ} {scriptPubKey scriptPubKeyCF : CScript}
    (htake : tx.vout.take 2 = [⟨b, scriptPubKey⟩, ⟨d, scriptPubKeyCF⟩]) :
    checkCommunityContrib params tipHeight scriptPubKeyCF tx =
      .ok (if d = (b + d).tdiv (communityContribFactorAt params tipHeight) then some (b + d)
        else none) := by
  obtain ⟨rest, hvout⟩ := vout_of_take_two htake
  simp only [checkCommunityContrib, hvout, vecAt, amountDiv, if_neg hfactor,
    List.getElem?_cons_zero, List.getElem?_cons_succ, List.length_cons, bind, Except.bind, pure,
    Except.pure]
  generalize (b + d).tdiv (communityContribFactorAt params tipHeight) = expected
  by_cases hd : d = expected <;> simp [hd]

/-- `GetNetworkHiveInfo` counts the bees of such a transaction exactly when the contribution is
the sum over the factor at its tip, and skips it otherwise. -/
theorem networkBeeFee_of_take_two (hfactor : communityContribFactorAt params tipHeight ≠ 0)
    {tx : CTransaction} {b d : ℤ} {scriptPubKey scriptPubKeyCF : CScript}
    (htake : tx.vout.take 2 = [⟨b, scriptPubKey⟩, ⟨d, scriptPubKeyCF⟩]) :
    networkBeeFee params tipHeight scriptPubKeyCF tx b =
      .ok (if d = (b + d).tdiv (communityContribFactorAt params tipHeight) then some (b + d)
        else none) := by
  obtain ⟨rest, hvout⟩ := vout_of_take_two htake
  simp only [networkBeeFee, hvout, vecAt, amountDiv, if_neg hfactor,
    List.getElem?_cons_zero, List.getElem?_cons_succ, List.length_cons, bind, Except.bind, pure,
    Except.pure]
  generalize (b + d).tdiv (communityContribFactorAt params tipHeight) = expected
  by_cases hd : d = expected <;> simp [hd]

end Amounts


/-! ## `CreateTransaction` keeps the recipients first -/

/-- Without fee subtraction and without dust, a round's outputs are the recipients' outputs, in
order. -/
theorem recipientOutputs_eq_map {IsDust : CTxOut → Bool} {nFeeRet nSubtractFeeFromAmount : ℤ} :
    ∀ (fFirst : Bool) (recipients : List CRecipient),
      (∀ r ∈ recipients, r.fSubtractFeeFromAmount = false ∧ IsDust r.toTxOut = false) →
      recipientOutputs IsDust nFeeRet nSubtractFeeFromAmount fFirst recipients =
        .ok (recipients.map CRecipient.toTxOut)
  | _, [], _ => rfl
  | fFirst, r :: rest, h => by
    obtain ⟨hsub, hdust⟩ := h r List.mem_cons_self
    have ih := @recipientOutputs_eq_map IsDust nFeeRet nSubtractFeeFromAmount fFirst rest
      fun r' hr' ↦ h r' (List.mem_cons_of_mem r hr')
    have hdust' : IsDust ⟨r.nAmount, r.scriptPubKey⟩ = false := hdust
    simp [recipientOutputs, hsub, hdust', ih, CRecipient.toTxOut]

/-- The change step, with the change requested past the first two outputs, leaves those two,
and the change position it reports is past them too, or `-1`. -/
theorem insertChange_take_two {IsDust : CTxOut → Bool} {vout vout' : List CTxOut}
    {nChange nChangePosInOut nFeeRet pos fee : ℤ} {scriptChange : CScript} {randPos : ℕ}
    (hpos : 2 ≤ nChangePosInOut)
    (h : insertChange IsDust vout nChange scriptChange nChangePosInOut randPos nFeeRet =
      .ok (vout', pos, fee)) :
    vout'.take 2 = vout.take 2 ∧ (pos = -1 ∨ 2 ≤ pos) := by
  have hsome : ∀ {vout'' : List CTxOut} {pos' fee' : ℤ},
      (Except.ok (vout'', pos', fee') : Except String _) = .ok (vout', pos, fee) →
        vout'' = vout' ∧ pos' = pos ∧ fee' = fee := by
    intro _ _ _ hok
    simpa only [Except.ok.injEq, Prod.mk.injEq] using hok
  unfold insertChange at h
  dsimp only at h
  by_cases hchange : nChange > 0
  · rw [if_pos hchange] at h
    by_cases hdust : IsDust ⟨nChange, scriptChange⟩ = true
    · -- change too small to keep: it goes to the fee
      rw [if_pos hdust] at h
      obtain ⟨rfl, rfl, rfl⟩ := hsome h
      exact ⟨rfl, .inl rfl⟩
    · rw [if_neg hdust, if_neg (show ¬nChangePosInOut = -1 by omega)] at h
      by_cases hrange : (nChangePosInOut % 2 ^ 32).toNat > vout.length
      · rw [if_pos hrange] at h
        cases h
      · rw [if_neg hrange] at h
        obtain ⟨rfl, rfl, rfl⟩ := hsome h
        exact ⟨List.take_insertIdx_eq_take_of_le _ _ _ _ (by omega), .inr hpos⟩
  · rw [if_neg hchange] at h
    obtain ⟨rfl, rfl, rfl⟩ := hsome h
    exact ⟨rfl, .inl rfl⟩

/-- A fee adjustment of a change output past the first two leaves those two. -/
theorem take_two_adjustChange (vout : List CTxOut) {nChangePosInOut : ℤ}
    (hpos : 2 ≤ nChangePosInOut) (delta : ℤ) :
    (adjustChange vout nChangePosInOut delta).take 2 = vout.take 2 := by
  have hlen : (vout.take 2).length ≤ nChangePosInOut.toNat := by
    rw [List.length_take]
    omega
  rw [adjustChange, List.take_modify, List.modify_eq_self hlen]

/-- A round of `CreateTransaction` on recipients without fee subtraction or dust, with the change
requested at position two, starts with the recipients' outputs, and every later adjustment of the
change output keeps them there. -/
theorem CreateTransaction_round_take {IsDust : CTxOut → Bool} {recipients : List CRecipient}
    (hrec : ∀ r ∈ recipients, r.fSubtractFeeFromAmount = false ∧ IsDust r.toTxOut = false)
    {nFeeRet nSubtractFeeFromAmount nChange pos fee : ℤ} {fFirst : Bool} {scriptChange : CScript}
    {randPos : ℕ} {vout' : List CTxOut}
    (hround : (recipientOutputs IsDust nFeeRet nSubtractFeeFromAmount fFirst recipients >>=
        fun vout ↦ insertChange IsDust vout nChange scriptChange 2 randPos nFeeRet) =
      .ok (vout', pos, fee)) :
    vout'.take 2 = (recipients.map CRecipient.toTxOut).take 2 ∧
      (pos = -1 ∨ ∀ delta, (adjustChange vout' pos delta).take 2 = vout'.take 2) := by
  rw [recipientOutputs_eq_map fFirst recipients hrec] at hround
  obtain ⟨htake, hpos⟩ := insertChange_take_two (le_refl 2) hround
  refine ⟨htake, hpos.imp id fun hpos delta ↦ take_two_adjustChange vout' hpos delta⟩

/-! ## The wallet against the validators -/

/-- Across the fork the rule turns: a wallet at the last height before `nContribFork` gives a
tenth of a bee cost of `10000` to the fund, and both validators at `nContribFork` expect half. -/
theorem CreateBeeTransaction3_rejected_across_contribFork :
    CreateBeeTransaction3Recipients mainParams (nContribFork - 1) ⟨List.replicate 20 0, rfl⟩
        ⟨List.replicate 20 0, rfl⟩ [] 10000 true =
      .ok [⟨beeCreationScript (GetScriptForDestination ⟨List.replicate 20 0, rfl⟩)
          ⟨List.replicate 20 0, rfl⟩, 9000, false⟩, ⟨[], 1000, false⟩] ∧
    checkCommunityContrib mainParams nContribFork []
        ⟨1, [], [⟨9000, beeCreationScript (GetScriptForDestination ⟨List.replicate 20 0, rfl⟩)
          ⟨List.replicate 20 0, rfl⟩⟩, ⟨1000, []⟩], 0⟩ = .ok none ∧
    networkBeeFee mainParams nContribFork []
        ⟨1, [], [⟨9000, beeCreationScript (GetScriptForDestination ⟨List.replicate 20 0, rfl⟩)
          ⟨List.replicate 20 0, rfl⟩⟩, ⟨1000, []⟩], 0⟩ 9000 = .ok none :=
  ⟨rfl, rfl, rfl⟩

end LightningCash
