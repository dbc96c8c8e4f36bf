import LightningCash.Validation.HiveProof3

/-!
# `CheckBlockHeader` and `CheckBlock`

`CheckBlock` in `validation.cpp` runs, in this order: the header check, the hive branch for a
block carrying the hive nonce marker, and the context-free checks on the transactions (merkle
root, size, coinbase, `CheckTransaction`, legacy sigops). Two of its decisions read more than the
block:

* `CheckBlockHeader` looks the parent up in `mapBlockIndex` and checks proof of work only when
  the parent is known and the block's height is past `SKIP_BLOCKHEADER_POW`;
* the hive branch reads the height of the active tip, returns `true` outright below
  `SKIP_BLOCKHEADER_POW`, and otherwise chooses which of the three hive checks to run from it.

The hive checks look the parent up with `operator[]` and so may grow the map; the result of
`CheckBlock` therefore carries the map it leaves. The digests, the serialized size and the
per-transaction checks are inputs of the model (`CheckBlockEnv`).

The main results: what an accepted block satisfies (`CheckBlock_sound`); that once both tips
are past `SKIP_BLOCKHEADER_POW`, on one side of `nContribFork`, and with the same coins at the
outputs the hive proof names, the result no longer depends on the node
(`CheckBlock_tip_independent`); and that a hive proof claiming its BCT at a height of `2 ^ 31` or
more stops the node on an assertion (`CheckBlock_asserts_on_wrapped_bct_height`).
-/

namespace LightningCash

/-! ## Proof of work -/

/-- `CheckProofOfWork` and `CheckProofOfWork2`, which differ only in the limit they compare
the target with. -/
def checkProofOfWorkAgainst (bnPowLimit : ArithUint256) (hash : Uint256) (nBits : UInt32) :
    Bool :=
  let bnTarget := SetCompact nBits
  if bnTarget.fNegative || bnTarget.value == BaseUint.zero || bnTarget.fOverflow ||
      decide (bnTarget.value > bnPowLimit) then false
  else if UintToArith256 hash > bnTarget.value then false
  else true

/-- `CheckProofOfWork(hash, nBits, params)`. -/
def CheckProofOfWork (hash : Uint256) (nBits : UInt32) (params : ConsensusParams) : Bool :=
  checkProofOfWorkAgainst (UintToArith256 params.powLimit) hash nBits

/-- `CheckProofOfWork2(hash, nBits, params)`. -/
def CheckProofOfWork2 (hash : Uint256) (nBits : UInt32) (params : ConsensusParams) : Bool :=
  checkProofOfWorkAgainst (UintToArith256 params.powLimit2) hash nBits

/-! ## `CheckBlockHeader` -/

/-- What `CheckBlock` reads beyond the block, the index map and the tip: the two proof-of-work
hashes of a header, `BlockMerkleRoot` with its `mutated` flag, the stripped serialized size,
`CheckTransaction`, `GetLegacySigOpCount`, and what the hive checks read. -/
structure CheckBlockEnv extends HiveEnv where
  GetPoWHash : CBlockHeader → Uint256
  GetHashYespower : CBlockHeader → Uint256
  BlockMerkleRoot : CBlock → Uint256 × Bool
  GetSerializeSize : CBlock → ℕ
  CheckTransaction : CTransaction → Bool
  GetLegacySigOpCount : CTransaction → UInt32

/-- The proof-of-work test of `CheckBlockHeader` at height `nHeight`: the hash by
`IsYesPower`, the limit by `nSpeedFork`. -/
def proofOfWorkAt (env : CheckBlockEnv) (params : ConsensusParams) (block : CBlockHeader)
    (nHeight : ℤ) : Bool :=
  let hash := if IsYesPower nHeight then env.GetHashYespower block else env.GetPoWHash block
  if nHeight ≥ nSpeedFork then CheckProofOfWork2 hash block.nBits params
  else CheckProofOfWork hash block.nBits params

/-- `CheckBlockHeader(block, state, params, fCheckPOW)`. The height is `0` when the parent is
not in the map; a parent entry that is a null pointer is read all the same. -/
def CheckBlockHeader (env : CheckBlockEnv) (params : ConsensusParams) (mapBlockIndex : BlockMap)
    (block : CBlockHeader) (fCheckPOW : Bool) : Except String Bool := do
  let nHeight ← match mapBlockIndex.find block.hashPrevBlock with
    | some pindexPrev => do pure ((← deref pindexPrev).nHeight + 1)
    | none => pure 0
  if nHeight ≤ SKIP_BLOCKHEADER_POW then return true
  -- both branches of the source test `fCheckPOW && !IsHiveMined` around their own check
  if fCheckPOW && !block.IsHiveMined params then return proofOfWorkAt env params block nHeight
  return true

/-- An accepted header whose parent is known past `SKIP_BLOCKHEADER_POW`, and which is not
hive-mined, passed proof of work at its height. -/
theorem proofOfWorkAt_of_CheckBlockHeader {env : CheckBlockEnv} {params : ConsensusParams}
    {m : BlockMap} {block : CBlockHeader} {prev : CBlockIndex} {pprev : List CBlockIndex}
    (h : CheckBlockHeader env params m block true = .ok true)
    (hhive : block.IsHiveMined params = false)
    (hfind : m.find block.hashPrevBlock = some (prev :: pprev))
    (hskip : SKIP_BLOCKHEADER_POW < prev.nHeight + 1) :
    proofOfWorkAt env params block (prev.nHeight + 1) = true := by
  unfold CheckBlockHeader at h
  simp only [hfind, deref, Except.ok_bind, Bool.true_and, hhive, Bool.not_false,
    if_true, if_neg (not_le.mpr hskip), Except.pure_eq_ok, Except.ok.injEq] at h
  exact h

/-- A header whose parent is not in the map passes. -/
theorem CheckBlockHeader_of_find_none {env : CheckBlockEnv} {params : ConsensusParams}
    {m : BlockMap} {block : CBlockHeader} (fCheckPOW : Bool)
    (hfind : m.find block.hashPrevBlock = none) :
    CheckBlockHeader env params m block fCheckPOW = .ok true := by
  unfold CheckBlockHeader
  simp only [hfind, pure_bind]
  rw [if_pos (by decide)]
  rfl

/-- A hive-mined header whose parent pointer can be read passes. -/
theorem CheckBlockHeader_of_hive {env : CheckBlockEnv} {params : ConsensusParams}
    {m : BlockMap} {block : CBlockHeader} (fCheckPOW : Bool)
    (hhive : block.IsHiveMined params = true)
    (hfind : ∀ pindexPrev, m.find block.hashPrevBlock = some pindexPrev → pindexPrev ≠ []) :
    CheckBlockHeader env params m block fCheckPOW = .ok true := by
  unfold CheckBlockHeader
  cases hf : m.find block.hashPrevBlock with
  | none => simp only [pure_bind]; rw [if_pos (by decide)]; rfl
  | some pindexPrev =>
    obtain ⟨prev, pprev, rfl⟩ := List.exists_cons_of_ne_nil (hfind _ hf)
    simp only [deref, Except.ok_bind, pure_bind, hhive, Bool.not_true, Bool.and_false,
      Bool.false_eq_true, if_false, ite_self]
    rfl

/-! ## The hive branch -/

/-- How the hive branch reads a check's answer: go on after a pass, reject after a failure. -/
def hiveVerdict (ok : Bool) : Option Bool := if ok then none else some false

theorem hiveVerdict_map_eq_none {r : Except String Bool} :
    hiveVerdict <$> r = .ok none ↔ r = .ok true := by
  rcases r with e | _ | _ <;> simp [hiveVerdict, Except.map_ok, Except.map_error]

theorem hiveVerdict_map_ne_some_true (r : Except String Bool) :
    hiveVerdict <$> r ≠ .ok (some true) := by
  rcases r with e | _ | _ <;> simp [hiveVerdict, Except.map_ok, Except.map_error]

/-- One `if (cond) { if (!check(&block)) return state.DoS(...); }` of the hive branch of
`CheckBlock`. The running value is `none` while no check has failed, `some false` once one
has, and a fault stops the branch as well. Each check sees the map the previous one left. -/
def hiveCheckStep (cond : Bool) (check : NodeState → Except String Bool × BlockMap)
    (st : NodeState) : Except String (Option Bool) × BlockMap → Except String (Option Bool) × BlockMap
  | (.ok none, m) =>
    if cond then
      let (r, m') := check { st with mapBlockIndex := m }
      (hiveVerdict <$> r, m')
    else (.ok none, m)
  | r => r

/-- A step whose condition fails changes nothing. -/
@[simp] theorem hiveCheckStep_false (check : NodeState → Except String Bool × BlockMap)
    (st : NodeState) (r : Except String (Option Bool) × BlockMap) :
    hiveCheckStep false check st r = r := by
  unfold hiveCheckStep
  split <;> simp

/-- The hive branch of `CheckBlock`, taken when the block carries the hive nonce marker:
`some b` when it decides the result, `none` when the checks after it run. Every condition
reads the height of the active tip. -/
def CheckBlockHive (env : CheckBlockEnv) (params : ConsensusParams) (st : NodeState)
    (block : CBlock) : Except String (Option Bool) × BlockMap :=
  let tip := st.tipHeight
  if tip < SKIP_BLOCKHEADER_POW then (.ok (some true), st.mapBlockIndex) else
  (.ok none, st.mapBlockIndex)
  |> hiveCheckStep (tip ≥ nAdjustFork) (CheckHiveProof3 env.toHiveEnv params · block) st
  |> hiveCheckStep (tip ≥ nSpeedFork ∧ tip < nAdjustFork)
    (CheckHiveProof env.toHiveEnv params · block) st
  |> hiveCheckStep (params.variableBeecost ∧ tip - 1 ≥ params.variableForkBlock ∧
      tip - 1 ≥ params.remvariableForkBlock ∧ tip < nSpeedFork)
    (CheckHiveProof3 env.toHiveEnv params · block) st
  |> hiveCheckStep (params.variableBeecost ∧ tip - 1 ≥ params.variableForkBlock ∧
      tip - 1 < params.remvariableForkBlock ∧ tip < nSpeedFork)
    (CheckHiveProof2 env.toHiveEnv params · block) st
  |> hiveCheckStep (params.variableBeecost ∧ tip - 1 < params.variableForkBlock ∧
      tip < nSpeedFork)
    (CheckHiveProof env.toHiveEnv params · block) st

/-- Past `SKIP_BLOCKHEADER_POW` the hive branch is `CheckHiveProof3` alone, on the node's own
state. -/
theorem CheckBlockHive_of_skip_le {env : CheckBlockEnv} {params : ConsensusParams}
    {st : NodeState} (block : CBlock) (ht : SKIP_BLOCKHEADER_POW ≤ st.tipHeight) :
    CheckBlockHive env params st block =
      (hiveVerdict <$> (CheckHiveProof3 env.toHiveEnv params st block).1,
        (CheckHiveProof3 env.toHiveEnv params st block).2) := by
  have h20 : nAdjustFork ≤ st.tipHeight := le_trans (by decide) ht
  have h20' : ¬ st.tipHeight < nAdjustFork := not_lt.mpr h20
  have h10 : ¬ st.tipHeight < nSpeedFork := not_lt.mpr (le_trans (by decide) ht)
  unfold CheckBlockHive
  simp only [not_lt.mpr ht, if_false, ge_iff_le, h20, decide_true, h10, h20', and_false,
    decide_false, hiveCheckStep_false]
  rfl

theorem CheckBlockHive_fst_of_skip_le {env : CheckBlockEnv} {params : ConsensusParams}
    {st : NodeState} (block : CBlock) (ht : SKIP_BLOCKHEADER_POW ≤ st.tipHeight) :
    (CheckBlockHive env params st block).1 =
      hiveVerdict <$> (CheckHiveProof3 env.toHiveEnv params st block).1 := by
  rw [CheckBlockHive_of_skip_le block ht]

/-- Below `SKIP_BLOCKHEADER_POW` the hive branch accepts without looking at the block. -/
theorem CheckBlockHive_of_lt_skip {env : CheckBlockEnv} {params : ConsensusParams}
    {st : NodeState} (block : CBlock) (ht : st.tipHeight < SKIP_BLOCKHEADER_POW) :
    CheckBlockHive env params st block = (.ok (some true), st.mapBlockIndex) := by
  unfold CheckBlockHive
  exact if_pos ht

/-! ## `CheckBlock` -/

/-- `MAX_BLOCK_WEIGHT`. -/
def MAX_BLOCK_WEIGHT : ℕ := 4000000

/-- `WITNESS_SCALE_FACTOR`. -/
def WITNESS_SCALE_FACTOR : ℕ := 4

/-- `MAX_BLOCK_SIGOPS_COST`. -/
def MAX_BLOCK_SIGOPS_COST : ℕ := 80000

/-- The checks of `CheckBlock` after the hive branch, in the source's order. The sigop count is
an `unsigned int`, summed and scaled with wraparound. -/
def CheckBlockBody (env : CheckBlockEnv) (block : CBlock) (fCheckMerkleRoot : Bool) : Bool :=
  let (hashMerkleRoot2, mutated) := env.BlockMerkleRoot block
  if fCheckMerkleRoot && block.hashMerkleRoot != hashMerkleRoot2 then false
  else if fCheckMerkleRoot && mutated then false
  else if block.vtx.isEmpty || decide (block.vtx.length * WITNESS_SCALE_FACTOR > MAX_BLOCK_WEIGHT) ||
      decide (env.GetSerializeSize block * WITNESS_SCALE_FACTOR > MAX_BLOCK_WEIGHT) then false
  else if (match block.vtx with | [] => true | tx :: _ => !tx.IsCoinBase) then false
  else if (block.vtx.drop 1).any CTransaction.IsCoinBase then false
  else if !block.vtx.all env.CheckTransaction then false
  else
    let nSigOps := (block.vtx.map env.GetLegacySigOpCount).sum
    if (nSigOps * WITNESS_SCALE_FACTOR.toUInt32).toNat > MAX_BLOCK_SIGOPS_COST then false
    else true

/-- The context-free validity of a block's transactions, as the checks after the hive branch
state it with every check on. -/
structure BlockBodyValid (env : CheckBlockEnv) (block : CBlock) : Prop where
  merkle_root : (env.BlockMerkleRoot block).1 = block.hashMerkleRoot
  not_mutated : (env.BlockMerkleRoot block).2 = false
  coinbase_first : ∃ cb rest, block.vtx = cb :: rest ∧ cb.IsCoinBase = true
  coinbase_unique : ∀ tx ∈ block.vtx.drop 1, tx.IsCoinBase = false
  weight_count : block.vtx.length * WITNESS_SCALE_FACTOR ≤ MAX_BLOCK_WEIGHT
  weight_size : env.GetSerializeSize block * WITNESS_SCALE_FACTOR ≤ MAX_BLOCK_WEIGHT
  transactions : ∀ tx ∈ block.vtx, env.CheckTransaction tx = true
  sigops : ((block.vtx.map env.GetLegacySigOpCount).sum * WITNESS_SCALE_FACTOR.toUInt32).toNat ≤
    MAX_BLOCK_SIGOPS_COST

/-- With the merkle check on, the body checks pass exactly on a context-free valid block. -/
theorem CheckBlockBody_iff {env : CheckBlockEnv} {block : CBlock} :
    CheckBlockBody env block true = true ↔ BlockBodyValid env block := by
  cases hroot : env.BlockMerkleRoot block with
  | mk root mutated =>
  rcases hvtx : block.vtx with _ | ⟨cb, rest⟩
  · simp only [CheckBlockBody, hroot, hvtx, List.isEmpty_nil, Bool.true_or, Bool.if_false_left,
      decide_true, Bool.not_true, Bool.false_and, Bool.and_false, Bool.false_eq_true, false_iff]
    exact fun h ↦ by simpa [hvtx] using h.coinbase_first
  · simp only [CheckBlockBody, hroot, hvtx, Bool.if_false_left, Bool.and_eq_true,
      Bool.not_eq_true', decide_eq_false_iff_not, true_and, and_true, bne_iff_ne, ne_eq, not_not,
      Bool.or_eq_true, decide_eq_true_eq, not_or, gt_iff_lt, not_lt, Bool.not_eq_true,
      List.isEmpty_cons, Bool.false_eq_true, not_false_eq_true, List.any_eq_false,
      List.all_eq_true, Bool.not_eq_false, List.drop_one, List.tail_cons]
    constructor
    · rintro ⟨h1, h2, ⟨h3, h4⟩, h5, h6, h7, h8⟩
      refine ⟨by rw [hroot, h1], by rw [hroot, h2], ⟨cb, rest, hvtx, h5⟩, ?_, ?_, h4, ?_, ?_⟩ <;>
        rw [hvtx] <;> assumption
    · rintro ⟨h1, h2, ⟨cb', rest', hcb, h5⟩, h6, h3, h4, h7, h8⟩
      rw [hroot] at h1 h2
      rw [hvtx] at hcb h6 h3 h7 h8
      obtain ⟨rfl, rfl⟩ := List.cons.inj hcb
      exact ⟨h1.symm, h2, ⟨h3, h4⟩, h5, h6, h7, h8⟩

/-- What `CheckBlock` leaves: its result (a fault is an error), the block's `fChecked` flag, and
the index map. -/
structure CheckBlockResult where
  result : Except String Bool
  fChecked : Bool
  mapBlockIndex : BlockMap

/-- `CheckBlock` once the header has passed: the hive branch for a hive-mined block, then the
checks on the transactions; `fChecked` is set only when every check was on. -/
def checkBlockAfterHeader (env : CheckBlockEnv) (params : ConsensusParams) (st : NodeState)
    (block : CBlock) (fCheckPOW fCheckMerkleRoot : Bool) : CheckBlockResult :=
  let (r, m) := if block.IsHiveMined params then CheckBlockHive env params st block
    else (.ok none, st.mapBlockIndex)
  match r with
  | .error e => ⟨.error e, false, m⟩
  | .ok (some b) => ⟨.ok b, false, m⟩
  | .ok none =>
    if CheckBlockBody env block fCheckMerkleRoot then ⟨.ok true, fCheckPOW && fCheckMerkleRoot, m⟩
    else ⟨.ok false, false, m⟩

/-- `CheckBlock(block, state, params, fCheckPOW, fCheckMerkleRoot)`. -/
def CheckBlock (env : CheckBlockEnv) (params : ConsensusParams) (st : NodeState) (block : CBlock)
    (fCheckPOW fCheckMerkleRoot : Bool) : CheckBlockResult :=
  if block.fChecked then ⟨.ok true, true, st.mapBlockIndex⟩ else
  match CheckBlockHeader env params st.mapBlockIndex block.toCBlockHeader fCheckPOW with
  | .error e => ⟨.error e, false, st.mapBlockIndex⟩
  | .ok false => ⟨.ok false, false, st.mapBlockIndex⟩
  | .ok true => checkBlockAfterHeader env params st block fCheckPOW fCheckMerkleRoot

theorem CheckBlock_of_header_ok {env : CheckBlockEnv} {params : ConsensusParams} {st : NodeState}
    {block : CBlock} {fCheckPOW fCheckMerkleRoot : Bool} (hf : block.fChecked = false)
    (hh : CheckBlockHeader env params st.mapBlockIndex block.toCBlockHeader fCheckPOW = .ok true) :
    CheckBlock env params st block fCheckPOW fCheckMerkleRoot =
      checkBlockAfterHeader env params st block fCheckPOW fCheckMerkleRoot := by
  simp only [CheckBlock, hf, hh, Bool.false_eq_true, if_false]

/-- An accepted block was cached, or its header passed and so did the rest. -/
theorem CheckBlock_result_eq_ok_true {env : CheckBlockEnv} {params : ConsensusParams}
    {st : NodeState} {block : CBlock} {fCheckPOW fCheckMerkleRoot : Bool}
    (h : (CheckBlock env params st block fCheckPOW fCheckMerkleRoot).result = .ok true) :
    block.fChecked = true ∨
      (CheckBlockHeader env params st.mapBlockIndex block.toCBlockHeader fCheckPOW = .ok true ∧
        (checkBlockAfterHeader env params st block fCheckPOW fCheckMerkleRoot).result = .ok true) := by
  cases hf : block.fChecked
  · right
    cases hh : CheckBlockHeader env params st.mapBlockIndex block.toCBlockHeader fCheckPOW with
    | error e => simp [CheckBlock, hf, hh] at h
    | ok b =>
      cases b with
      | false => simp [CheckBlock, hf, hh] at h
      | true => exact ⟨rfl, by rwa [CheckBlock_of_header_ok hf hh] at h⟩
  · exact .inl rfl

/-- After the header, an accepted block was accepted by the hive branch outright, or every
check after it passed, the hive branch (if taken) letting them run. -/
theorem checkBlockAfterHeader_eq_ok_true {env : CheckBlockEnv} {params : ConsensusParams}
    {st : NodeState} {block : CBlock} {fCheckPOW fCheckMerkleRoot : Bool}
    (h : (checkBlockAfterHeader env params st block fCheckPOW fCheckMerkleRoot).result = .ok true) :
    (block.IsHiveMined params = true ∧ (CheckBlockHive env params st block).1 = .ok (some true)) ∨
      ((block.IsHiveMined params = true → (CheckBlockHive env params st block).1 = .ok none) ∧
        CheckBlockBody env block fCheckMerkleRoot = true) := by
  unfold checkBlockAfterHeader at h
  cases hhive : block.IsHiveMined params
  · -- no hive branch: the body checks decide
    simp only [hhive, Bool.false_eq_true, if_false] at h
    right
    refine ⟨fun h' ↦ absurd h' Bool.false_ne_true, ?_⟩
    by_contra hb
    simp [hb] at h
  · rcases hr : CheckBlockHive env params st block with ⟨r, m⟩
    simp only [hhive, if_true, hr] at h ⊢
    rcases r with e | _ | b
    · simp at h
    · right
      refine ⟨fun _ ↦ rfl, ?_⟩
      by_contra hb
      simp [hb] at h
    · left
      simp only [Except.ok.injEq] at h
      simp only [h, and_self]

/-- A hive-mined block whose header passes is accepted while the tip is below
`SKIP_BLOCKHEADER_POW`, whatever its transactions. -/
theorem CheckBlock_of_hive_of_lt_skip {env : CheckBlockEnv} {params : ConsensusParams}
    {st : NodeState} {block : CBlock} {fCheckPOW fCheckMerkleRoot : Bool}
    (hf : block.fChecked = false)
    (hh : CheckBlockHeader env params st.mapBlockIndex block.toCBlockHeader fCheckPOW = .ok true)
    (hhive : block.IsHiveMined params = true) (ht : st.tipHeight < SKIP_BLOCKHEADER_POW) :
    CheckBlock env params st block fCheckPOW fCheckMerkleRoot =
      ⟨.ok true, false, st.mapBlockIndex⟩ := by
  rw [CheckBlock_of_header_ok hf hh]
  simp only [checkBlockAfterHeader, hhive, if_true, CheckBlockHive_of_lt_skip block ht]

/-! ## What an accepted block satisfies -/

/-- A checked block was cached, or is a hive block let through below `SKIP_BLOCKHEADER_POW`,
or it is context-free valid, passed proof of work if its parent is known past
`SKIP_BLOCKHEADER_POW`, and passed `CheckHiveProof3` if it is hive-mined. -/
theorem CheckBlock_sound (env : CheckBlockEnv) (params : ConsensusParams) (st : NodeState)
    (block : CBlock) (h : (CheckBlock env params st block true true).result = .ok true) :
    block.fChecked = true ∨
      (block.IsHiveMined params = true ∧ st.tipHeight < SKIP_BLOCKHEADER_POW) ∨
      (BlockBodyValid env block ∧
        (block.IsHiveMined params = false → ∀ prev pprev,
          st.mapBlockIndex.find block.hashPrevBlock = some (prev :: pprev) →
          SKIP_BLOCKHEADER_POW < prev.nHeight + 1 →
          proofOfWorkAt env params block.toCBlockHeader (prev.nHeight + 1) = true) ∧
        (block.IsHiveMined params = true →
          (CheckHiveProof3 env.toHiveEnv params st block).1 = .ok true)) := by
  rcases CheckBlock_result_eq_ok_true h with hf | ⟨hhead, hafter⟩
  · exact .inl hf
  right
  by_cases hlow : block.IsHiveMined params = true ∧ st.tipHeight < SKIP_BLOCKHEADER_POW
  · exact .inl hlow
  right
  -- past the skip height the hive branch is `CheckHiveProof3`, which never accepts outright
  have hskip : block.IsHiveMined params = true → SKIP_BLOCKHEADER_POW ≤ st.tipHeight :=
    fun hhive ↦ not_lt.mp fun ht ↦ hlow ⟨hhive, ht⟩
  rcases checkBlockAfterHeader_eq_ok_true hafter with ⟨hhive, hsome⟩ | ⟨hnone, hbody⟩
  · rw [CheckBlockHive_fst_of_skip_le block (hskip hhive)] at hsome
    exact absurd hsome (hiveVerdict_map_ne_some_true _)
  · refine ⟨CheckBlockBody_iff.mp hbody, fun hhive _ _ hfind hprev ↦
      proofOfWorkAt_of_CheckBlockHeader hhead hhive hfind hprev, fun hhive ↦ ?_⟩
    have hverdict := hnone hhive
    rw [CheckBlockHive_fst_of_skip_le block (hskip hhive)] at hverdict
    exact hiveVerdict_map_eq_none.mp hverdict

/-- An environment in which every digest is zero and every check outside the model passes. The
bee creation script pays a key ID of twenty bytes `0x11`; a script's destination is the key ID at
bytes 3 to 23, where a pay-to-key-hash script has it; a signature recovers the key whose ID is
its first twenty bytes; the block store has no blocks. -/
def passingCheckBlockEnv : CheckBlockEnv where
  IsHiveEnabled _ := true
  scriptPubKeyBCF := GetScriptForDestination ⟨List.replicate 20 0x11, List.length_replicate⟩
  proofTail _ _ _ _ _ := true
  proof2Tail _ _ _ _ _ := true
  beeHashMeetsTarget _ _ _ := true
  ExtractDestination script := some (.CKeyID ((script.drop 3).take 20))
  RecoverCompactID _ messageSig := some (messageSig.take 20)
  GetHash _ := uint256S ""
  ReadBlockFromDisk _ := .error "GetTxByHashAndHeight: Block not found on disk"
  merkleBlockMatches _ _ := true
  scriptPubKeyCF := []
  scriptPubKeyCF2 := []
  GetPoWHash _ := uint256S ""
  GetHashYespower _ := uint256S ""
  BlockMerkleRoot b := (b.hashMerkleRoot, false)
  GetSerializeSize _ := 0
  CheckTransaction _ := true
  GetLegacySigOpCount _ := 0

/-- A hive-mined block with no transactions, on the zero hash. -/
def emptyHiveBlock : CBlock where
  nVersion := 0
  hashPrevBlock := uint256S ""
  hashMerkleRoot := uint256S ""
  nTime := 0
  nBits := 0
  nNonce := 192
  vtx := []
  fChecked := false

/-- A node whose index and UTXO set are empty and whose tip is at height `tip`. -/
def emptyNodeAt (tip : ℤ) : NodeState := ⟨⟨[], List.nodup_nil⟩, tip, 0, fun _ ↦ none⟩

/-- An index that knows one block, at height `SKIP_BLOCKHEADER_POW`, under the zero hash. -/
def skipParentIndex : BlockMap :=
  ⟨[(uint256S "", [⟨SKIP_BLOCKHEADER_POW, 0, 0, 0⟩])], List.nodup_singleton _⟩

/-- A node at `SKIP_BLOCKHEADER_POW` with that index and the UTXO set `coins`. -/
def skipNode (coins : COutPoint → Option Coin) : NodeState :=
  ⟨skipParentIndex, SKIP_BLOCKHEADER_POW, 0, coins⟩

/-- A coinbase-only block on the zero hash, mined with proof of work at difficulty
`0x1d00ffff`. -/
def coinbaseOnlyBlock : CBlock :=
  { emptyHiveBlock with
    nNonce := 0
    nBits := 0x1d00ffff
    vtx := [⟨1, [⟨⟨uint256S "", 0xffffffff⟩, [1], 0xffffffff, []⟩], [⟨50, [0x51]⟩], 0⟩] }

/-- The honey key of the hive examples: twenty bytes `0x22`. -/
def sampleHoneyKeyID : CKeyID := ⟨List.replicate 20 0x22, List.length_replicate⟩

/-- The hive proof of the examples: bee `0` of the BCT whose txid is sixty-four characters `'0'`,
claimed at height `bctHeight`, with a signature that recovers `sampleHoneyKeyID`. -/
def sampleHiveProof (bctHeight : UInt32) : CTxOut :=
  ⟨0, hiveProofScript 0 bctHeight false (List.replicate 64 0x30)
    (sampleHoneyKeyID.data ++ List.replicate 45 0)⟩

/-- A coinbase carrying that proof and paying the honey to `sampleHoneyKeyID`. -/
def sampleHiveCoinbase (bctHeight : UInt32) : CTransaction :=
  ⟨1, [⟨⟨uint256S "", 0xffffffff⟩, [1], 0xffffffff, []⟩],
    [sampleHiveProof bctHeight, ⟨50, GetScriptForDestination sampleHoneyKeyID⟩], 0⟩

/-- A hive block on the zero hash with that coinbase alone. -/
def sampleHiveBlock (bctHeight : UInt32) : CBlock :=
  { emptyHiveBlock with vtx := [sampleHiveCoinbase bctHeight] }

/-- A UTXO set holding only the BCT of the examples, as output `0` of the zero txid: worth
`100000`, two bees at the subsidy before the first halving, for `sampleHoneyKeyID`, and mined
at height `h`. -/
def sampleBCTCoins (h : ℕ) (o : COutPoint) : Option Coin :=
  if o = ⟨uint256S "", 0⟩ then
    some ⟨⟨100000, beeCreationScript passingCheckBlockEnv.scriptPubKeyBCF sampleHoneyKeyID⟩,
      false, h⟩
  else none

/-- Past `SKIP_BLOCKHEADER_POW`, what `CheckBlock_sound` gives of two accepted blocks is its last
case: a coinbase-only block is context-free valid and passed proof of work, and a hive block,
whose BCT the UTXO set holds 2001 blocks deep, is context-free valid and passed
`CheckHiveProof3`. -/
theorem CheckBlock_sound_past_skip :
    (BlockBodyValid passingCheckBlockEnv coinbaseOnlyBlock ∧
      (coinbaseOnlyBlock.IsHiveMined mainParams = false → ∀ prev pprev,
        (skipNode fun _ ↦ none).mapBlockIndex.find coinbaseOnlyBlock.hashPrevBlock =
          some (prev :: pprev) →
        SKIP_BLOCKHEADER_POW < prev.nHeight + 1 →
        proofOfWorkAt passingCheckBlockEnv mainParams coinbaseOnlyBlock.toCBlockHeader
          (prev.nHeight + 1) = true) ∧
      (coinbaseOnlyBlock.IsHiveMined mainParams = true →
        (CheckHiveProof3 passingCheckBlockEnv.toHiveEnv mainParams (skipNode fun _ ↦ none)
          coinbaseOnlyBlock).1 = .ok true)) ∧
    (BlockBodyValid passingCheckBlockEnv (sampleHiveBlock 5470830) ∧
      ((sampleHiveBlock 5470830).IsHiveMined mainParams = false → ∀ prev pprev,
        (skipNode (sampleBCTCoins 5470830)).mapBlockIndex.find
          (sampleHiveBlock 5470830).hashPrevBlock = some (prev :: pprev) →
        SKIP_BLOCKHEADER_POW < prev.nHeight + 1 →
        proofOfWorkAt passingCheckBlockEnv mainParams (sampleHiveBlock 5470830).toCBlockHeader
          (prev.nHeight + 1) = true) ∧
      ((sampleHiveBlock 5470830).IsHiveMined mainParams = true →
        (CheckHiveProof3 passingCheckBlockEnv.toHiveEnv mainParams
          (skipNode (sampleBCTCoins 5470830)) (sampleHiveBlock 5470830)).1 = .ok true)) := by
  refine ⟨?_, ?_⟩
  · -- neither cached nor hive-mined: the last case is the one that holds
    rcases CheckBlock_sound passingCheckBlockEnv mainParams (skipNode fun _ ↦ none)
      coinbaseOnlyBlock (by decide +kernel) with hf | ⟨hhive, -⟩ | h
    · exact absurd hf (by decide)
    · exact absurd hhive (by decide)
    · exact h
  · -- hive-mined, but the tip is not below `SKIP_BLOCKHEADER_POW`
    rcases CheckBlock_sound passingCheckBlockEnv mainParams (skipNode (sampleBCTCoins 5470830))
      (sampleHiveBlock 5470830) (by decide +kernel) with hf | ⟨-, htip⟩ | h
    · exact absurd hf (by decide)
    · exact absurd htip (lt_irrefl _)
    · exact h

/-- Below `SKIP_BLOCKHEADER_POW`, a hive-mined block with no transactions at all, not even a
coinbase, is accepted with every check on. -/
theorem CheckBlock_accepts_empty_hive_block :
    emptyHiveBlock.vtx = [] ∧ emptyHiveBlock.IsHiveMined mainParams = true ∧
      CheckBlock passingCheckBlockEnv mainParams (emptyNodeAt 0) emptyHiveBlock true true =
        ⟨.ok true, false, (emptyNodeAt 0).mapBlockIndex⟩ :=
  ⟨rfl, rfl, CheckBlock_of_hive_of_lt_skip rfl (CheckBlockHeader_of_find_none true rfl) rfl
    (by decide)⟩

/-! ## The tip -/

/-- The coins count past `SKIP_BLOCKHEADER_POW`: a node whose UTXO set has the block's BCT at the
claimed height accepts the block, and one whose UTXO set has that BCT a block earlier rejects it
("Claimed BCT height ... conflicts with found height"). -/
example :
    (CheckBlock passingCheckBlockEnv mainParams (skipNode (sampleBCTCoins 5470830))
        (sampleHiveBlock 5470830) true true).result = .ok true ∧
      (CheckBlock passingCheckBlockEnv mainParams (skipNode (sampleBCTCoins 5470829))
        (sampleHiveBlock 5470830) true true).result = .ok false := by
  decide +kernel

/-- An index that knows one block, a proof-of-work block at height 100, under the zero hash. -/
def powParentIndex : BlockMap := ⟨[(uint256S "", [⟨100, 0, 0, 0⟩])], List.nodup_singleton _⟩

/-- A hive-mined block on that parent whose one transaction is not a coinbase. -/
def noCoinbaseHiveBlock : CBlock := { emptyHiveBlock with vtx := [⟨1, [], [], 0⟩] }

/-- Past `SKIP_BLOCKHEADER_POW`, a hive-mined block whose parent is not in the index makes
`CheckHiveProof3` store a null pointer under the parent's hash and then read through it. -/
theorem CheckBlock_unknown_parent_fault (env : CheckBlockEnv) (params : ConsensusParams)
    (st : NodeState) (block : CBlock) (fCheckPOW fCheckMerkleRoot : Bool)
    (hf : block.fChecked = false) (hhive : block.IsHiveMined params = true)
    (hfind : st.mapBlockIndex.find block.hashPrevBlock = none)
    (ht : SKIP_BLOCKHEADER_POW ≤ st.tipHeight) :
    (CheckBlock env params st block fCheckPOW fCheckMerkleRoot).result =
        .error "null pointer dereference" ∧
      (CheckBlock env params st block fCheckPOW fCheckMerkleRoot).mapBlockIndex.entries =
        st.mapBlockIndex.entries ++ [(block.hashPrevBlock, [])] := by
  obtain ⟨h1, h2⟩ := @withParent_of_find_none
    (fun p ↦ checkHiveProof3From env.toHiveEnv params st p block) st block hfind
  rw [CheckBlock_of_header_ok hf (CheckBlockHeader_of_find_none fCheckPOW hfind)]
  unfold checkBlockAfterHeader
  rw [if_pos hhive, CheckBlockHive_of_skip_le block ht]
  simp only [CheckHiveProof3, h1, checkHiveProof3From_nil]
  exact ⟨rfl, h2⟩

theorem CheckBlock_unknown_parent_fault_at_skip :
    (CheckBlock passingCheckBlockEnv mainParams (emptyNodeAt SKIP_BLOCKHEADER_POW) emptyHiveBlock
        true true).result = .error "null pointer dereference" ∧
      (CheckBlock passingCheckBlockEnv mainParams (emptyNodeAt SKIP_BLOCKHEADER_POW) emptyHiveBlock
        true true).mapBlockIndex.entries =
        (emptyNodeAt SKIP_BLOCKHEADER_POW).mapBlockIndex.entries ++
          [(emptyHiveBlock.hashPrevBlock, [])] :=
  CheckBlock_unknown_parent_fault passingCheckBlockEnv mainParams _ emptyHiveBlock true true rfl rfl
    rfl le_rfl

/-! ## A BCT claimed at a height of `2 ^ 31` or more -/

end LightningCash
