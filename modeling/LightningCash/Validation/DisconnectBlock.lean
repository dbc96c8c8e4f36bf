import LightningCash.Coins.CoinsViewCache
import LightningCash.Lib.UpdateAll

/-!
# Connecting and disconnecting the coins of a block (validation.cpp, coins.cpp)

`ConnectBlock` runs `UpdateCoins` on each transaction of a block: the coins its inputs spend are
moved out of the coins cache into an undo record (`CTxUndo`), and its outputs are added by
`AddCoins`. `DisconnectBlock` goes back from the last transaction to the first: it spends the
outputs the block created, checking that each is still the coin the block made, and writes the
spent coins back from the undo records with `ApplyTxInUndo`, last input first.

Everything the two read of the cache goes through the operations of `Coins.CoinsViewCache`, whose
effect on the cache's view is known, so both are described on the view, a map from outpoints to
coins: `UpdateCoins` updates it at the inputs (to nothing) and at the spendable outputs (to their
coins), and each half of the disconnect updates the same keys back. Two facts about a store
updated at distinct keys (`Function.updateAll`) then show the disconnect restores the map.

The transaction hash is `GetHash`, a parameter: the model does not compute SHA-256. The undo
data is passed in, as `UndoReadFromDisk` reads it; `ConnectBlock`'s checks before `UpdateCoins`
are left to the hypotheses of the theorems, which say what they establish.

## Main results

* `DisconnectBlock_connectBlockCoins`: for a block whose first transaction is the only
  coinbase, whose inputs spend distinct coins present at that point, each with a height and a
  spendable script, and whose outputs never land on a coin, disconnecting the block with the
  undo data its connection wrote restores the view, and the disconnect is clean.
-/

namespace LightningCash

/-- `Coin(outIn, nHeightIn, fCoinBaseIn)`: the height cut to its 31-bit field. -/
def Coin.ofTxOut (out : CTxOut) (nHeight : ℤ) (fCoinBase : Bool) : Coin :=
  ⟨out, fCoinBase, (nHeight % 2 ^ 31).toNat⟩

@[simp] theorem Coin.ofTxOut_out (out : CTxOut) (nHeight : ℤ) (fCoinBase : Bool) :
    (Coin.ofTxOut out nHeight fCoinBase).out = out := rfl

namespace Coins

/-- `DisconnectResult`. -/
inductive DisconnectResult where
  | DISCONNECT_OK
  | DISCONNECT_UNCLEAN
  | DISCONNECT_FAILED
  deriving DecidableEq

/-- `CTxUndo`: the coins a transaction's inputs spent, in input order. -/
structure CTxUndo where
  vprevout : List Coin

/-- `CBlockUndo`: the undo records of a block's transactions after the first. -/
structure CBlockUndo where
  vtxundo : List CTxUndo

/-- `MIN_TRANSACTION_OUTPUT_WEIGHT`: the weight of `CTxOut()` serialized. -/
def MIN_TRANSACTION_OUTPUT_WEIGHT : ℕ :=
  WITNESS_SCALE_FACTOR * CSizeComputer.size (CTxOut.serialize CTxOut.null)

/-- `MAX_OUTPUTS_PER_BLOCK`. -/
def MAX_OUTPUTS_PER_BLOCK : ℕ := MAX_BLOCK_WEIGHT / MIN_TRANSACTION_OUTPUT_WEIGHT

example : MAX_OUTPUTS_PER_BLOCK = 111111 := by decide

open LightningCash.Coins.CCoinsViewCache

section Model

variable (usage : Coin → ℕ) (base : COutPoint → Option Coin) (GetHash : CTransaction → Uint256)

/-! ## Adding a transaction's outputs -/

/-- The `overwrite` flag of `AddCoins`: whether the cache has the coin when asked to check, and
otherwise whether the transaction is a coinbase. -/
def overwriteFlag (s : CCoinsViewCache) (o : COutPoint) (check fCoinbase : Bool) :
    CCoinsViewCache × Bool :=
  if check then HaveCoin usage base s o else (s, fCoinbase)

/-- The loop of `AddCoins`, from the output at index `i`. -/
def addCoinsLoop (txid : Uint256) (nHeight : ℤ) (check fCoinbase : Bool) :
    CCoinsViewCache → ℕ → List CTxOut → Except String CCoinsViewCache
  | s, _, [] => .ok s
  | s, i, out :: rest =>
    match overwriteFlag usage base s ⟨txid, i.toUInt32⟩ check fCoinbase with
    | (s, overwrite) => do
      let s ← AddCoin usage s ⟨txid, i.toUInt32⟩ (Coin.ofTxOut out nHeight fCoinbase) overwrite
      addCoinsLoop txid nHeight check fCoinbase s (i + 1) rest

/-- `AddCoins(cache, tx, nHeight, check)`. -/
def AddCoins (s : CCoinsViewCache) (tx : CTransaction) (nHeight : ℤ) (check : Bool) :
    Except String CCoinsViewCache :=
  addCoinsLoop usage base (GetHash tx) nHeight check tx.IsCoinBase s 0 tx.vout

/-! ## `UpdateCoins` -/

/-- The inputs' half of `UpdateCoins`: each input's coin moved out into the undo record, in input
order. A coin that is not there fails `assert(is_spent)`. -/
def spendInputs : CCoinsViewCache → List CTxIn → Except String (CCoinsViewCache × List Coin)
  | s, [] => .ok (s, [])
  | s, txin :: rest =>
    match SpendCoin usage base s txin.prevout with
    | (_, none) => .error "assertion failed: is_spent"
    | (s, some coin) => do
      let (s, coins) ← spendInputs s rest
      pure (s, coin :: coins)

/-- The inputs of a transaction that is not a coinbase are spent. -/
def spendTxInputs (s : CCoinsViewCache) (tx : CTransaction) :
    Except String (CCoinsViewCache × List Coin) :=
  if !tx.IsCoinBase then spendInputs usage base s tx.vin else .ok (s, [])

/-- `UpdateCoins(tx, inputs, txundo, nHeight)`, returning the undo record it fills. -/
def UpdateCoins (s : CCoinsViewCache) (tx : CTransaction) (nHeight : ℤ) :
    Except String (CCoinsViewCache × CTxUndo) := do
  let (s, vprevout) ← spendTxInputs usage base s tx
  let s ← AddCoins usage base GetHash s tx nHeight false
  pure (s, ⟨vprevout⟩)

/-- The coins of `ConnectBlock`'s loop over the block's transactions: `UpdateCoins` on each, its
undo record kept in `blockundo` for every transaction but the first. -/
def connectCoinsLoop (nHeight : ℤ) :
    CCoinsViewCache → ℕ → List CTransaction → Except String (CCoinsViewCache × List CTxUndo)
  | s, _, [] => .ok (s, [])
  | s, i, tx :: rest => do
    let (s, txundo) ← UpdateCoins usage base GetHash s tx nHeight
    let (s, vtxundo) ← connectCoinsLoop nHeight s (i + 1) rest
    pure (s, if i = 0 then vtxundo else txundo :: vtxundo)

/-- The coins `ConnectBlock` writes for a block at height `nHeight`, and its undo data. -/
def connectBlockCoins (s : CCoinsViewCache) (block : CBlock) (nHeight : ℤ) :
    Except String (CCoinsViewCache × CBlockUndo) := do
  let (s, vtxundo) ← connectCoinsLoop usage base GetHash nHeight s 0 block.vtx
  pure (s, ⟨vtxundo⟩)

/-- The coins of `RollforwardBlock`, which replays a block after a crash: each transaction's
inputs spent whether there or not, and its outputs added with `check`, over whatever is in
place. -/
def rollforwardLoop (nHeight : ℤ) : CCoinsViewCache → List CTransaction → Except String CCoinsViewCache
  | s, [] => .ok s
  | s, tx :: rest => do
    let s := if !tx.IsCoinBase then
      tx.vin.foldl (fun s txin => (SpendCoin usage base s txin.prevout).1) s else s
    let s ← AddCoins usage base GetHash s tx nHeight true
    rollforwardLoop nHeight s rest

/-- `RollforwardBlock(pindex, inputs, params)`, given the block `ReadBlockFromDisk` read. -/
def RollforwardBlock (s : CCoinsViewCache) (block : CBlock) (nHeight : ℤ) :
    Except String CCoinsViewCache :=
  rollforwardLoop usage base GetHash nHeight s block.vtx

/-- The loop of `ReplayBlocks` that rolls forward from the fork to the new tip, given the block
`ReadBlockFromDisk` reads at each height. -/
def replayForward : CCoinsViewCache → List (CBlock × ℤ) → Except String CCoinsViewCache
  | s, [] => .ok s
  | s, (block, nHeight) :: rest => do
    let s ← RollforwardBlock usage base GetHash s block nHeight
    replayForward s rest

/-! ## `ApplyTxInUndo` -/

/-- The loop of `AccessByTxid`, from output `n` with `fuel` outputs left to look at. -/
def accessByTxidLoop (txid : Uint256) : CCoinsViewCache → ℕ → ℕ → CCoinsViewCache × Coin
  | s, _, 0 => (s, coinEmpty)
  | s, n, fuel + 1 =>
    match AccessCoin usage base s ⟨txid, n.toUInt32⟩ with
    | (s, alternate) =>
      if !alternate.IsSpent then (s, alternate) else accessByTxidLoop txid s (n + 1) fuel

/-- `AccessByTxid(view, txid)`: the first unspent output of `txid` below
`MAX_OUTPUTS_PER_BLOCK`, or `Coin()`. -/
def AccessByTxid (s : CCoinsViewCache) (txid : Uint256) : CCoinsViewCache × Coin :=
  accessByTxidLoop usage base txid s 0 MAX_OUTPUTS_PER_BLOCK

/-- The coin `ApplyTxInUndo` writes back: a record without a height, from before heights were
kept per output, takes the height and the coinbase flag of another unspent output of its
transaction, and there must be one. -/
def undoWithHeight (s : CCoinsViewCache) (undo : Coin) (txid : Uint256) :
    CCoinsViewCache × Option Coin :=
  if undo.nHeight = 0 then
    match AccessByTxid usage base s txid with
    | (s, alternate) =>
      if !alternate.IsSpent then
        (s, some { undo with nHeight := alternate.nHeight, fCoinBase := alternate.fCoinBase })
      else (s, none)
  else (s, some undo)

/-- `ApplyTxInUndo(undo, view, out)`: the coin written back, over a coin in place if there is
one, which makes the disconnect unclean. -/
def ApplyTxInUndo (undo : Coin) (s : CCoinsViewCache) (out : COutPoint) :
    Except String (CCoinsViewCache × DisconnectResult) :=
  match HaveCoin usage base s out with
  | (s, haveCoin) =>
    match undoWithHeight usage base s undo out.hash with
    | (s, none) => .ok (s, .DISCONNECT_FAILED)
    | (s, some undo) => do
      let s ← AddCoin usage s out undo haveCoin
      pure (s, if !haveCoin then .DISCONNECT_OK else .DISCONNECT_UNCLEAN)

/-! ## `DisconnectBlock` -/

/-- The outputs' half of a transaction in `DisconnectBlock`: each spendable output spent, and the
disconnect unclean unless the coin spent is the one the block made. -/
def disconnectOutputs (hash : Uint256) (is_coinbase : Bool) (nHeight : ℤ) :
    CCoinsViewCache → Bool → ℕ → List CTxOut → CCoinsViewCache × Bool
  | s, fClean, _, [] => (s, fClean)
  | s, fClean, o, txout :: rest =>
    if !IsUnspendable txout.scriptPubKey then
      match SpendCoin usage base s ⟨hash, o.toUInt32⟩ with
      | (s, coin) =>
        let same := match coin with
          | some coin =>
            txout == coin.out && nHeight == (coin.nHeight : ℤ) && is_coinbase == coin.fCoinBase
          | none => false
        disconnectOutputs hash is_coinbase nHeight s (fClean && same) (o + 1) rest
    else disconnectOutputs hash is_coinbase nHeight s fClean (o + 1) rest

/-- The inputs' half: each input's coin written back from the undo record, in the order given
(the last input first); `none` stands for `DISCONNECT_FAILED`. -/
def undoInputs :
    CCoinsViewCache → Bool → List (CTxIn × Coin) → Except String (CCoinsViewCache × Option Bool)
  | s, fClean, [] => .ok (s, some fClean)
  | s, fClean, (txin, undo) :: rest => do
    let (s, res) ← ApplyTxInUndo usage base undo s txin.prevout
    if res = .DISCONNECT_FAILED then pure (s, none)
    else undoInputs s (fClean && res != .DISCONNECT_UNCLEAN) rest

/-- One transaction of the loop of `DisconnectBlock`, with its undo record unless it is the
first; `none` stands for `DISCONNECT_FAILED`. -/
def disconnectTx (nHeight : ℤ) (s : CCoinsViewCache) (fClean : Bool) (tx : CTransaction)
    (txundo : Option CTxUndo) : Except String (CCoinsViewCache × Option Bool) :=
  match disconnectOutputs usage base (GetHash tx) tx.IsCoinBase nHeight s fClean 0 tx.vout with
  | (s, fClean) =>
    match txundo with
    | none => .ok (s, some fClean)
    | some txundo =>
      -- "transaction and undo data inconsistent"
      if txundo.vprevout.length ≠ tx.vin.length then .ok (s, none)
      else undoInputs usage base s fClean (tx.vin.zip txundo.vprevout).reverse

/-- The loop of `DisconnectBlock` over the transactions, last first. -/
def disconnectLoop (nHeight : ℤ) :
    CCoinsViewCache → Bool → List (CTransaction × Option CTxUndo) →
      Except String (CCoinsViewCache × Option Bool)
  | s, fClean, [] => .ok (s, some fClean)
  | s, fClean, (tx, txundo) :: rest => do
    let (s, r) ← disconnectTx usage base GetHash nHeight s fClean tx txundo
    match r with
    | none => pure (s, none)
    | some fClean => disconnectLoop nHeight s fClean rest

/-- `DisconnectBlock(block, pindex, view)`, given the undo data `UndoReadFromDisk` read, the
height of the block and the hash of its parent. -/
def DisconnectBlock (s : CCoinsViewCache) (block : CBlock) (blockUndo : CBlockUndo)
    (nHeight : ℤ) (hashPrev : Uint256) : Except String (CCoinsViewCache × DisconnectResult) :=
  -- "block and undo data inconsistent"
  if blockUndo.vtxundo.length + 1 ≠ block.vtx.length then .ok (s, .DISCONNECT_FAILED)
  else do
    let (s, r) ← disconnectLoop usage base GetHash nHeight s true
      (block.vtx.zip (none :: blockUndo.vtxundo.map some)).reverse
    match r with
    | none => pure (s, .DISCONNECT_FAILED)
    | some fClean =>
      pure ({ s with hashBlock := hashPrev },
        if fClean then .DISCONNECT_OK else .DISCONNECT_UNCLEAN)

end Model

/-! ## What the block does to the map of coins -/

/-- The coins of a transaction's spendable outputs from index `i` on, at their outpoints. -/
def outputCoins (txid : Uint256) (nHeight : ℤ) (fCoinbase : Bool) :
    ℕ → List CTxOut → List (COutPoint × Option Coin)
  | _, [] => []
  | i, out :: rest =>
    if IsUnspendable out.scriptPubKey then outputCoins txid nHeight fCoinbase (i + 1) rest
    else (⟨txid, i.toUInt32⟩, some (Coin.ofTxOut out nHeight fCoinbase)) ::
      outputCoins txid nHeight fCoinbase (i + 1) rest

/-- The outpoints the inputs of a transaction that is not a coinbase spend, each to no coin. -/
def spentCoins (tx : CTransaction) : List (COutPoint × Option Coin) :=
  if !tx.IsCoinBase then tx.vin.map fun txin => (txin.prevout, none) else []

/-- What `UpdateCoins` does to the map: the spent coins removed, then the outputs added. -/
def connectTxMap (GetHash : CTransaction → Uint256) (nHeight : ℤ) (m : COutPoint → Option Coin)
    (tx : CTransaction) : COutPoint → Option Coin :=
  Function.updateAll (Function.updateAll m (spentCoins tx))
    (outputCoins (GetHash tx) nHeight tx.IsCoinBase 0 tx.vout)

/-- The writes `UpdateCoins` makes to the map, in order. -/
def txWrites (GetHash : CTransaction → Uint256) (nHeight : ℤ) (tx : CTransaction) :
    List (COutPoint × Option Coin) :=
  spentCoins tx ++ outputCoins (GetHash tx) nHeight tx.IsCoinBase 0 tx.vout

/-- What a run of blocks, each at its height, does to the map: the transactions of each in turn,
as `ConnectBlock` connects them. -/
def connectBlocksMap (GetHash : CTransaction → Uint256) (m : COutPoint → Option Coin)
    (blocks : List (CBlock × ℤ)) : COutPoint → Option Coin :=
  blocks.foldl (fun m b => b.1.vtx.foldl (connectTxMap GetHash b.2) m) m

/-- What a transaction needs, against the map before it, for `UpdateCoins` to go through and for
its undo record to restore the map; `ConnectBlock` and `CheckBlock` check most of it before. A
transaction that is not a coinbase spends distinct coins of the map (`bad-txns-inputs-duplicate`,
`bad-txns-inputs-missingorspent`), each with a height and a spendable script; no output is null
(`bad-txns-vout-negative`); the outputs fit 32-bit indices; and no spendable output lands on a
coin of the map after the spends (BIP30). -/
structure TxConnectable (GetHash : CTransaction → Uint256) (nHeight : ℤ)
    (m : COutPoint → Option Coin) (tx : CTransaction) : Prop where
  nodup : tx.IsCoinBase = false → (tx.vin.map fun txin => txin.prevout).Nodup
  spent : tx.IsCoinBase = false → ∀ txin ∈ tx.vin,
    ∃ c, m txin.prevout = some c ∧ c.nHeight ≠ 0 ∧ IsUnspendable c.out.scriptPubKey = false
  values : ∀ out ∈ tx.vout, out.nValue ≠ -1
  length : tx.vout.length ≤ 2 ^ 32
  fresh : ∀ kv ∈ outputCoins (GetHash tx) nHeight tx.IsCoinBase 0 tx.vout,
    Function.updateAll m (spentCoins tx) kv.1 = none

/-- The transactions of a block each connectable against the map the ones before built. -/
def BlockConnectable (GetHash : CTransaction → Uint256) (nHeight : ℤ) :
    (COutPoint → Option Coin) → List CTransaction → Prop
  | _, [] => True
  | m, tx :: rest =>
    TxConnectable GetHash nHeight m tx ∧ BlockConnectable GetHash nHeight (connectTxMap GetHash nHeight m tx) rest

section OutputCoins

variable {txid : Uint256} {nHeight : ℤ} {fCoinbase : Bool}

theorem toUInt32_inj_of_lt {i j : ℕ} (hi : i < 2 ^ 32) (hj : j < 2 ^ 32)
    (h : i.toUInt32 = j.toUInt32) : i = j := by
  have h' := congrArg UInt32.toNat h
  rw [UInt32.toNat_ofNat', UInt32.toNat_ofNat'] at h'
  omega

/-- The outputs from index `i` sit at the indices from `i` on. -/
theorem mem_outputCoins {i : ℕ} {outs : List CTxOut} {kv : COutPoint × Option Coin}
    (h : kv ∈ outputCoins txid nHeight fCoinbase i outs) :
    ∃ j, i ≤ j ∧ j < i + outs.length ∧ kv.1 = ⟨txid, j.toUInt32⟩ := by
  induction outs generalizing i with
  | nil => cases h
  | cons out rest ih =>
    rw [outputCoins] at h
    have hrest : kv ∈ outputCoins txid nHeight fCoinbase (i + 1) rest →
        ∃ j, i ≤ j ∧ j < i + (out :: rest).length ∧ kv.1 = ⟨txid, j.toUInt32⟩ := fun h => by
      obtain ⟨j, hij, hj, hkv⟩ := ih h
      exact ⟨j, by omega, by rw [List.length_cons]; omega, hkv⟩
    split_ifs at h
    · exact hrest h
    · rcases List.mem_cons.mp h with rfl | h
      · exact ⟨i, le_rfl, by rw [List.length_cons]; omega, rfl⟩
      · exact hrest h

/-- Below `2 ^ 32` outputs, their outpoints are distinct. -/
theorem nodup_outputCoins {i : ℕ} {outs : List CTxOut} (hlen : i + outs.length ≤ 2 ^ 32) :
    ((outputCoins txid nHeight fCoinbase i outs).map Prod.fst).Nodup := by
  induction outs generalizing i with
  | nil => exact List.nodup_nil
  | cons out rest ih =>
    rw [List.length_cons] at hlen
    have hrest := ih (i := i + 1) (by omega)
    rw [outputCoins]
    split_ifs
    · exact hrest
    · refine List.nodup_cons.mpr ⟨fun hmem => ?_, hrest⟩
      -- the later outputs have larger indices, still below `2 ^ 32`
      obtain ⟨kv, hkv, hkey⟩ := List.mem_map.mp hmem
      obtain ⟨j, hij, hj, hkv1⟩ := mem_outputCoins hkv
      rw [hkv1] at hkey
      have := toUInt32_inj_of_lt (i := j) (j := i) (by omega) (by omega)
        (COutPoint.mk.inj hkey).2
      omega

theorem nodup_outputCoins_map_none {i : ℕ} {outs : List CTxOut} (hlen : i + outs.length ≤ 2 ^ 32) :
    (((outputCoins txid nHeight fCoinbase i outs).map fun kv => (kv.1, (none : Option Coin))).map
      Prod.fst).Nodup := by
  rw [List.map_map]
  exact nodup_outputCoins hlen

end OutputCoins

/-! ## Each loop acts on the view as on the map -/

section Specs

variable (usage : Coin → ℕ) {base : COutPoint → Option Coin} (GetHash : CTransaction → Uint256)
variable {s : CCoinsViewCache}

/-- The flag `AddCoins` passes leaves the view alone, and is false only where the view has no
coin, or for a transaction that is not a coinbase when not asked to check. -/
theorem overwriteFlag_spec (hs : CacheInv base s) (o : COutPoint) (check fCoinbase : Bool) :
    CacheInv base (overwriteFlag usage base s o check fCoinbase).1 ∧
      view base (overwriteFlag usage base s o check fCoinbase).1 = view base s ∧
      ((overwriteFlag usage base s o check fCoinbase).2 = false →
        view base s o = none ∨ (check = false ∧ fCoinbase = false)) := by
  cases check with
  | false => exact ⟨hs, rfl, fun h => .inr ⟨rfl, h⟩⟩
  | true =>
    refine ⟨hs.FetchCoin usage, view_FetchCoin usage, fun h => .inl ?_⟩
    have hsnd := @HaveCoin_snd base s o usage
    rw [overwriteFlag, if_pos rfl] at h
    rw [h, eq_comm, Option.isSome_eq_false_iff, Option.isNone_iff_eq_none] at hsnd
    exact hsnd

/-- A coin made of an output with a value is unspent. -/
theorem IsSpent_ofTxOut {out : CTxOut} (hval : out.nValue ≠ -1) (nHeight : ℤ) (fCoinbase : Bool) :
    (Coin.ofTxOut out nHeight fCoinbase).IsSpent = false := by
  simpa [Coin.ofTxOut, Coin.IsSpent, CTxOut.IsNull] using hval

/-- **The loop of `AddCoins`.** Outputs with values, fewer than `2 ^ 32`, are added without a
throw where, without `check`, a transaction that is not a coinbase adds only where the view has
no coin: the view gets each spendable output's coin at its outpoint. The loop's invariant is the
cache's, and the view is the map updated at the outputs already added. -/
theorem addCoinsLoop_spec {txid : Uint256} {nHeight : ℤ} {check fCoinbase : Bool} :
    ∀ (outs : List CTxOut) (s : CCoinsViewCache) (i : ℕ), CacheInv base s →
      (∀ out ∈ outs, out.nValue ≠ -1) → i + outs.length ≤ 2 ^ 32 →
      (check = false → fCoinbase = false →
        ∀ kv ∈ outputCoins txid nHeight fCoinbase i outs, view base s kv.1 = none) →
      ∃ s', addCoinsLoop usage base txid nHeight check fCoinbase s i outs = .ok s' ∧
        CacheInv base s' ∧
        view base s' = Function.updateAll (view base s) (outputCoins txid nHeight fCoinbase i outs)
  | [], s, _, hs, _, _, _ => ⟨s, rfl, hs, rfl⟩
  | out :: rest, s, i, hs, hval, hlen, hfresh => by
    rw [List.length_cons] at hlen
    have hval' : ∀ out ∈ rest, out.nValue ≠ -1 := fun out h => hval out (List.mem_cons_of_mem _ h)
    have hspent := IsSpent_ofTxOut (hval out List.mem_cons_self) nHeight fCoinbase
    obtain ⟨hs₁, hview₁, hflag⟩ := overwriteFlag_spec usage hs ⟨txid, i.toUInt32⟩ check fCoinbase
    rcases hf : overwriteFlag usage base s ⟨txid, i.toUInt32⟩ check fCoinbase with ⟨s₁, overwrite⟩
    rw [hf] at hs₁ hview₁ hflag
    dsimp only at hs₁ hview₁ hflag
    by_cases hun : IsUnspendable out.scriptPubKey = true
    · -- an unspendable output is left out, and the rest of the outputs are the map's
      have hadd : AddCoin usage s₁ ⟨txid, i.toUInt32⟩ (Coin.ofTxOut out nHeight fCoinbase)
          overwrite = .ok s₁ := by
        simp [AddCoin, hspent, hun, Coin.ofTxOut_out]
      have hkeys : outputCoins txid nHeight fCoinbase i (out :: rest) =
          outputCoins txid nHeight fCoinbase (i + 1) rest := by
        rw [outputCoins, if_pos hun]
      obtain ⟨s', hloop, hs', hview'⟩ := addCoinsLoop_spec rest s₁ (i + 1) hs₁ hval' (by omega)
        (fun hc hcb kv hkv => by rw [hview₁]; exact hfresh hc hcb kv (hkeys ▸ hkv))
      refine ⟨s', ?_, hs', by rw [hview', hview₁, hkeys]⟩
      simp only [addCoinsLoop, hf, hadd, Except.ok_bind]
      exact hloop
    · have hkeys : outputCoins txid nHeight fCoinbase i (out :: rest) =
          (⟨txid, i.toUInt32⟩, some (Coin.ofTxOut out nHeight fCoinbase)) ::
            outputCoins txid nHeight fCoinbase (i + 1) rest := by
        rw [outputCoins, if_neg hun]
      -- without `possible_overwrite`, the view has no coin at the output
      have hpre : overwrite = false → view base s₁ ⟨txid, i.toUInt32⟩ = none := fun hfl => by
        rw [hview₁]
        rcases hflag hfl with hnone | ⟨hc, hcb⟩
        · exact hnone
        · exact hfresh hc hcb _ (hkeys ▸ List.mem_cons_self)
      obtain ⟨s₂, hadd, hs₂, hview₂⟩ := AddCoin_spec usage hs₁ hspent hpre
      rw [Coin.ofTxOut_out, if_neg hun, hview₁] at hview₂
      -- the later outputs sit at other outpoints, where the view is unchanged
      have hrest : check = false → fCoinbase = false →
          ∀ kv ∈ outputCoins txid nHeight fCoinbase (i + 1) rest, view base s₂ kv.1 = none := by
        intro hc hcb kv hkv
        obtain ⟨j, hij, hj, hkv1⟩ := mem_outputCoins hkv
        have hne : kv.1 ≠ ⟨txid, i.toUInt32⟩ := fun h => by
          rw [hkv1] at h
          have := toUInt32_inj_of_lt (i := j) (j := i) (by omega) (by omega)
            (COutPoint.mk.inj h).2
          omega
        rw [hview₂, Function.update_of_ne hne]
        exact hfresh hc hcb kv (hkeys ▸ List.mem_cons_of_mem _ hkv)
      obtain ⟨s', hloop, hs', hview'⟩ := addCoinsLoop_spec rest s₂ (i + 1) hs₂ hval' (by omega) hrest
      refine ⟨s', ?_, hs', by rw [hview', hview₂, hkeys, Function.updateAll_cons]⟩
      simp only [addCoinsLoop, hf, hadd, Except.ok_bind]
      exact hloop

/-- The coin `SpendCoin` moves out of an outpoint where the view has one is that coin. -/
theorem SpendCoin_snd_of_view (hs : CacheInv base s) {o : COutPoint} {c : Coin}
    (h : view base s o = some c) : (SpendCoin usage base s o).2 = some c := by
  obtain ⟨-, -, hbind⟩ := SpendCoin_spec usage (o := o) hs
  rw [h] at hbind
  rcases hm : (SpendCoin usage base s o).2 with _ | c'
  · rw [hm] at hbind
    cases hbind
  · rw [hm, Option.bind_some] at hbind
    split_ifs at hbind
    exact hbind

/-- **The inputs' half of `UpdateCoins`.** Inputs that spend distinct coins of the view are
spent without a throw: the view loses each, and the undo record holds them in input order. -/
theorem spendInputs_spec :
    ∀ (ins : List CTxIn) (s : CCoinsViewCache), CacheInv base s →
      (ins.map fun txin => txin.prevout).Nodup →
      (∀ txin ∈ ins, (view base s txin.prevout).isSome) →
      ∃ s' coins, spendInputs usage base s ins = .ok (s', coins) ∧ CacheInv base s' ∧
        view base s' = Function.updateAll (view base s) (ins.map fun txin => (txin.prevout, none)) ∧
        ins.map (fun txin => view base s txin.prevout) = coins.map some
  | [], s, hs, _, _ => ⟨s, [], rfl, hs, rfl, rfl⟩
  | txin :: rest, s, hs, hnd, hsome => by
    rw [List.map_cons, List.nodup_cons] at hnd
    obtain ⟨c, hc⟩ := Option.isSome_iff_exists.mp (hsome txin List.mem_cons_self)
    obtain ⟨hs₁, hview₁, -⟩ := SpendCoin_spec usage (o := txin.prevout) hs
    have hsnd := SpendCoin_snd_of_view usage hs hc
    rcases hsc : SpendCoin usage base s txin.prevout with ⟨s₁, coin⟩
    rw [hsc] at hs₁ hview₁ hsnd
    dsimp only at hs₁ hview₁ hsnd
    subst hsnd
    -- the rest spend other coins, which the view keeps
    have hkeep : ∀ txin' ∈ rest, view base s₁ txin'.prevout = view base s txin'.prevout :=
      fun txin' h => by
        have hne : txin'.prevout ≠ txin.prevout := fun he => hnd.1 (he ▸ List.mem_map_of_mem h)
        rw [hview₁, Function.update_of_ne hne]
    obtain ⟨s', coins, hloop, hs', hview', hcoins⟩ := spendInputs_spec rest s₁ hs₁ hnd.2
      (fun txin' h => by rw [hkeep txin' h]; exact hsome txin' (List.mem_cons_of_mem _ h))
    refine ⟨s', c :: coins, ?_, hs', ?_, ?_⟩
    · simp only [spendInputs, hsc, hloop, Except.ok_bind]
      rfl
    · rw [hview', hview₁, List.map_cons, Function.updateAll_cons]
    · rw [List.map_cons, List.map_cons, hc, ← hcoins, List.map_congr_left hkeep]

/-- **The outputs' half of the disconnect.** Where the view holds the coins the outputs made,
spending them keeps the disconnect clean and takes each out of the view. -/
theorem disconnectOutputs_spec {hash : Uint256} {is_coinbase : Bool} {nHeight : ℤ}
    (hheight : 0 ≤ nHeight ∧ nHeight < 2 ^ 31) :
    ∀ (outs : List CTxOut) (s : CCoinsViewCache) (fClean : Bool) (i : ℕ), CacheInv base s →
      i + outs.length ≤ 2 ^ 32 →
      (∀ kv ∈ outputCoins hash nHeight is_coinbase i outs, view base s kv.1 = kv.2) →
      CacheInv base (disconnectOutputs usage base hash is_coinbase nHeight s fClean i outs).1 ∧
        (disconnectOutputs usage base hash is_coinbase nHeight s fClean i outs).2 = fClean ∧
        view base (disconnectOutputs usage base hash is_coinbase nHeight s fClean i outs).1 =
          Function.updateAll (view base s)
            ((outputCoins hash nHeight is_coinbase i outs).map fun kv => (kv.1, none))
  | [], s, _, _, hs, _, _ => ⟨hs, rfl, rfl⟩
  | out :: rest, s, fClean, i, hs, hlen, hheld => by
    rw [List.length_cons] at hlen
    by_cases hun : IsUnspendable out.scriptPubKey = true
    · have hkeys : outputCoins hash nHeight is_coinbase i (out :: rest) =
          outputCoins hash nHeight is_coinbase (i + 1) rest := by
        rw [outputCoins, if_pos hun]
      have h := disconnectOutputs_spec hheight rest s fClean (i + 1) hs (by omega) (hkeys ▸ hheld)
      simp only [disconnectOutputs, hun, Bool.not_true, Bool.false_eq_true, if_false]
      rw [hkeys]
      exact h
    · have hkeys : outputCoins hash nHeight is_coinbase i (out :: rest) =
          (⟨hash, i.toUInt32⟩, some (Coin.ofTxOut out nHeight is_coinbase)) ::
            outputCoins hash nHeight is_coinbase (i + 1) rest := by
        rw [outputCoins, if_neg hun]
      have hcoin := hheld _ (hkeys ▸ List.mem_cons_self)
      obtain ⟨hs₁, hview₁, -⟩ := SpendCoin_spec usage (o := ⟨hash, i.toUInt32⟩) hs
      have hsnd := SpendCoin_snd_of_view usage hs hcoin
      rcases hsc : SpendCoin usage base s ⟨hash, i.toUInt32⟩ with ⟨s₁, coin⟩
      rw [hsc] at hs₁ hview₁ hsnd
      dsimp only at hs₁ hview₁ hsnd
      subst hsnd
      -- the coin spent is the one the block made: its height fits the 31-bit field
      have hsame : (out == (Coin.ofTxOut out nHeight is_coinbase).out &&
          nHeight == ((Coin.ofTxOut out nHeight is_coinbase).nHeight : ℤ) &&
          is_coinbase == (Coin.ofTxOut out nHeight is_coinbase).fCoinBase) = true := by
        have hmod : ((nHeight % 2 ^ 31).toNat : ℤ) = nHeight := by
          rw [Int.toNat_of_nonneg (Int.emod_nonneg _ (by norm_num)),
            Int.emod_eq_of_lt hheight.1 hheight.2]
        show (out == out && nHeight == ((nHeight % 2 ^ 31).toNat : ℤ) &&
          is_coinbase == is_coinbase) = true
        rw [hmod]
        simp
      have hrest : ∀ kv ∈ outputCoins hash nHeight is_coinbase (i + 1) rest,
          view base s₁ kv.1 = kv.2 := by
        intro kv hkv
        obtain ⟨j, hij, hj, hkv1⟩ := mem_outputCoins hkv
        have hne : kv.1 ≠ ⟨hash, i.toUInt32⟩ := fun h => by
          rw [hkv1] at h
          have := toUInt32_inj_of_lt (i := j) (j := i) (by omega) (by omega) (COutPoint.mk.inj h).2
          omega
        rw [hview₁, Function.update_of_ne hne]
        exact hheld kv (hkeys ▸ List.mem_cons_of_mem _ hkv)
      obtain ⟨hs', hclean', hview'⟩ :=
        disconnectOutputs_spec hheight rest s₁ fClean (i + 1) hs₁ (by omega) hrest
      simp only [disconnectOutputs, hun, Bool.not_false, if_true, hsc, hsame, Bool.and_true]
      refine ⟨hs', hclean', ?_⟩
      rw [hview', hview₁, hkeys, List.map_cons, Function.updateAll_cons]

/-- **`ApplyTxInUndo`** writes back a coin with a height where the view has none: cleanly, and
the view gets the coin. -/
theorem ApplyTxInUndo_spec (hs : CacheInv base s) {undo : Coin} {out : COutPoint}
    (hnone : view base s out = none) (hheight : undo.nHeight ≠ 0) (hspent : undo.IsSpent = false)
    (hun : IsUnspendable undo.out.scriptPubKey = false) :
    ∃ s', ApplyTxInUndo usage base undo s out = .ok (s', .DISCONNECT_OK) ∧ CacheInv base s' ∧
      view base s' = Function.update (view base s) out (some undo) := by
  have hhave := @HaveCoin_snd base s out usage
  rw [hnone] at hhave
  have hs₁ : CacheInv base (HaveCoin usage base s out).1 := hs.FetchCoin usage
  have hview₁ : view base (HaveCoin usage base s out).1 = view base s := view_FetchCoin usage
  rcases hh : HaveCoin usage base s out with ⟨s₁, haveCoin⟩
  rw [hh] at hhave hs₁ hview₁
  dsimp only at hhave hs₁ hview₁
  subst hhave
  obtain ⟨s₂, hadd, hs₂, hview₂⟩ :=
    AddCoin_spec usage hs₁ hspent (fun _ => by rw [hview₁]; exact hnone)
  rw [if_neg (by simp [hun]), hview₁] at hview₂
  refine ⟨s₂, ?_, hs₂, hview₂⟩
  simp only [ApplyTxInUndo, hh, undoWithHeight, hheight, if_false, Option.isSome_none]
  rw [hadd]
  rfl

/-- **The inputs' half of the disconnect.** Coins with heights written back, from the undo
record, where the view has none: no failure, the disconnect stays clean, and the view gets each
coin back. -/
theorem undoInputs_spec :
    ∀ (pairs : List (CTxIn × Coin)) (s : CCoinsViewCache) (fClean : Bool), CacheInv base s →
      (pairs.map fun p => p.1.prevout).Nodup →
      (∀ p ∈ pairs, view base s p.1.prevout = none ∧ p.2.nHeight ≠ 0 ∧ p.2.IsSpent = false ∧
        IsUnspendable p.2.out.scriptPubKey = false) →
      ∃ s', undoInputs usage base s fClean pairs = .ok (s', some fClean) ∧ CacheInv base s' ∧
        view base s' = Function.updateAll (view base s) (pairs.map fun p => (p.1.prevout, some p.2))
  | [], s, fClean, hs, _, _ => ⟨s, rfl, hs, rfl⟩
  | (txin, undo) :: rest, s, fClean, hs, hnd, hok => by
    rw [List.map_cons, List.nodup_cons] at hnd
    obtain ⟨hnone, hheight, hspent, hun⟩ := hok _ List.mem_cons_self
    obtain ⟨s₁, happly, hs₁, hview₁⟩ := ApplyTxInUndo_spec usage hs hnone hheight hspent hun
    have hrest : ∀ p ∈ rest, view base s₁ p.1.prevout = none ∧ p.2.nHeight ≠ 0 ∧
        p.2.IsSpent = false ∧ IsUnspendable p.2.out.scriptPubKey = false := by
      intro p hp
      have hne : p.1.prevout ≠ txin.prevout := fun he => hnd.1 (he ▸ List.mem_map_of_mem hp)
      rw [hview₁, Function.update_of_ne hne]
      exact hok p (List.mem_cons_of_mem _ hp)
    obtain ⟨s', hloop, hs', hview'⟩ := undoInputs_spec rest s₁ fClean hs₁ hnd.2 hrest
    refine ⟨s', ?_, hs', by rw [hview', hview₁, List.map_cons, Function.updateAll_cons]⟩
    simp only [undoInputs, happly, Except.ok_bind, reduceCtorEq, if_false]
    rw [show (fClean && DisconnectResult.DISCONNECT_OK != .DISCONNECT_UNCLEAN) = fClean by
      cases fClean <;> rfl]
    exact hloop

end Specs

/-! ## One transaction, on the map -/

section TxMap

variable {GetHash : CTransaction → Uint256} {nHeight : ℤ} {m : COutPoint → Option Coin}
  {tx : CTransaction}

theorem nodup_spentCoins (hconn : TxConnectable GetHash nHeight m tx) :
    ((spentCoins tx).map Prod.fst).Nodup := by
  rw [spentCoins]
  cases hcb : tx.IsCoinBase
  · rw [Bool.not_false, if_pos rfl, List.map_map]
    exact hconn.nodup hcb
  · exact List.nodup_nil

/-- The outputs spent again leave the map as the inputs' spends left it. -/
theorem updateAll_connectTxMap_outputs (hconn : TxConnectable GetHash nHeight m tx) :
    Function.updateAll (connectTxMap GetHash nHeight m tx)
        ((outputCoins (GetHash tx) nHeight tx.IsCoinBase 0 tx.vout).map fun kv => (kv.1, none)) =
      Function.updateAll m (spentCoins tx) := by
  have hlen : 0 + tx.vout.length ≤ 2 ^ 32 := by rw [Nat.zero_add]; exact hconn.length
  refine Function.updateAll_updateAll_eq_self (fun k hk => ?_) (nodup_outputCoins_map_none hlen)
    (fun kv hkv => ?_)
  · rwa [List.map_map]
  · obtain ⟨kv', hkv', rfl⟩ := List.mem_map.mp hkv
    exact (hconn.fresh kv' hkv').symm

/-- Two lists whose maps agree pair up elements that the maps agree on. -/
theorem eq_of_mem_zip_of_map_eq {α β γ : Type*} {f : α → γ} {g : β → γ} :
    ∀ {l₁ : List α} {l₂ : List β}, l₁.map f = l₂.map g → ∀ {a b}, (a, b) ∈ l₁.zip l₂ → f a = g b
  | [], _, _, _, _, h => by cases h
  | _ :: _, [], _, _, _, h => by cases h
  | a' :: l₁, b' :: l₂, hmap, a, b, h => by
    rw [List.map_cons, List.map_cons, List.cons.injEq] at hmap
    rcases List.mem_cons.mp h with h | h
    · obtain ⟨rfl, rfl⟩ := Prod.mk.inj h
      exact hmap.1
    · exact eq_of_mem_zip_of_map_eq hmap.2 h

theorem map_prevout_zip {l₁ : List CTxIn} {l₂ : List Coin} (h : l₁.length ≤ l₂.length) :
    ((l₁.zip l₂).map fun p => p.1.prevout) = l₁.map fun txin => txin.prevout := by
  rw [show (fun p : CTxIn × Coin => p.1.prevout) = (fun txin : CTxIn => txin.prevout) ∘ Prod.fst
    from rfl, ← List.map_map, List.map_fst_zip h]

/-- The coins of the undo record written back over the spends restore the map. -/
theorem updateAll_spentCoins_restore (hconn : TxConnectable GetHash nHeight m tx)
    (hcb : tx.IsCoinBase = false) {vprevout : List Coin}
    (hundo : tx.vin.map (fun txin => m txin.prevout) = vprevout.map some) :
    Function.updateAll (Function.updateAll m (spentCoins tx))
        (((tx.vin.zip vprevout).reverse).map fun p => (p.1.prevout, some p.2)) = m := by
  have hlen : tx.vin.length = vprevout.length := by
    simpa using congrArg List.length hundo
  have hkeys : (((tx.vin.zip vprevout).reverse).map fun p => (p.1.prevout, some p.2)).map
      Prod.fst = (tx.vin.map fun txin => txin.prevout).reverse := by
    rw [List.map_map, List.map_reverse, ← map_prevout_zip (le_of_eq hlen)]
    rfl
  refine Function.updateAll_updateAll_eq_self (fun k hk => ?_) ?_ (fun kv hkv => ?_)
  · rw [spentCoins, hcb, Bool.not_false, if_pos rfl, List.map_map] at hk
    rw [hkeys, List.mem_reverse]
    exact hk
  · rw [hkeys, List.nodup_reverse]
    exact hconn.nodup hcb
  · obtain ⟨p, hp, rfl⟩ := List.mem_map.mp hkv
    exact (eq_of_mem_zip_of_map_eq hundo (List.mem_reverse.mp hp)).symm

theorem connectTxMap_eq_updateAll :
    connectTxMap GetHash nHeight m tx = Function.updateAll m (txWrites GetHash nHeight tx) :=
  (Function.updateAll_append _ _ _).symm

/-- A run of blocks writes its transactions' writes, all in one batch. -/
theorem connectBlocksMap_eq_updateAll (blocks : List (CBlock × ℤ)) :
    connectBlocksMap GetHash m blocks =
      Function.updateAll m (blocks.flatMap fun b => b.1.vtx.flatMap (txWrites GetHash b.2)) := by
  have hconnect : ∀ nHeight, connectTxMap GetHash nHeight =
      fun m tx => Function.updateAll m (txWrites GetHash nHeight tx) :=
    fun _ => funext₂ fun _ _ => connectTxMap_eq_updateAll
  simp only [connectBlocksMap, Function.updateAll_flatMap, hconnect]

end TxMap

/-! ## One transaction, on the cache -/

section Tx

variable (usage : Coin → ℕ) {base : COutPoint → Option Coin} (GetHash : CTransaction → Uint256)
variable {s : CCoinsViewCache} {nHeight : ℤ} {tx : CTransaction}

/-- The spends of `UpdateCoins`: the view loses the spent coins, and the undo record holds them. -/
theorem spendTxInputs_spec (hs : CacheInv base s)
    (hconn : TxConnectable GetHash nHeight (view base s) tx) :
    ∃ s' coins, spendTxInputs usage base s tx = .ok (s', coins) ∧ CacheInv base s' ∧
      view base s' = Function.updateAll (view base s) (spentCoins tx) ∧
      (spentCoins tx).map (fun kv => view base s kv.1) = coins.map some := by
  cases hcb : tx.IsCoinBase
  · have hsome : ∀ txin ∈ tx.vin, (view base s txin.prevout).isSome := fun txin h => by
      obtain ⟨c, hc, -⟩ := hconn.spent hcb txin h
      rw [hc]
      rfl
    obtain ⟨s', coins, h, hs', hview, hcoins⟩ :=
      spendInputs_spec usage tx.vin s hs (hconn.nodup hcb) hsome
    refine ⟨s', coins, ?_, hs', ?_, ?_⟩
    · rw [spendTxInputs, hcb, Bool.not_false, if_pos rfl]
      exact h
    · rw [hview, spentCoins, hcb, Bool.not_false, if_pos rfl]
    · rw [spentCoins, hcb, Bool.not_false, if_pos rfl, List.map_map, ← hcoins]
      rfl
  · refine ⟨s, [], ?_, hs, ?_, ?_⟩
    · rw [spendTxInputs, hcb]
      rfl
    · rw [spentCoins, hcb]
      rfl
    · rw [spentCoins, hcb]
      rfl

/-- **`UpdateCoins`** of a connectable transaction does not throw: the view becomes the map the
transaction makes of it, and the undo record holds the coins it spent. -/
theorem UpdateCoins_spec (hs : CacheInv base s)
    (hconn : TxConnectable GetHash nHeight (view base s) tx) :
    ∃ s' txundo, UpdateCoins usage base GetHash s tx nHeight = .ok (s', txundo) ∧
      CacheInv base s' ∧ view base s' = connectTxMap GetHash nHeight (view base s) tx ∧
      (spentCoins tx).map (fun kv => view base s kv.1) = txundo.vprevout.map some := by
  obtain ⟨s₁, coins, hspend, hs₁, hview₁, hcoins⟩ := spendTxInputs_spec usage GetHash hs hconn
  have hlen : 0 + tx.vout.length ≤ 2 ^ 32 := by rw [Nat.zero_add]; exact hconn.length
  obtain ⟨s₂, hadd, hs₂, hview₂⟩ := @addCoinsLoop_spec usage base (GetHash tx) nHeight false
    tx.IsCoinBase tx.vout s₁ 0 hs₁ hconn.values hlen
    (fun _ _ kv hkv => by rw [hview₁]; exact hconn.fresh kv hkv)
  refine ⟨s₂, ⟨coins⟩, ?_, hs₂, by rw [hview₂, hview₁, connectTxMap], hcoins⟩
  simp only [UpdateCoins, hspend, AddCoins, hadd, Except.ok_bind]
  rfl

/-- **One transaction disconnected.** From any cache showing the map a connectable transaction
made, with the undo record it wrote (none for the coinbase), the disconnect neither throws nor
fails, stays as clean as it was, and restores the map. -/
theorem disconnectTx_spec {t : CCoinsViewCache} (ht : CacheInv base t)
    {m : COutPoint → Option Coin} (hm : ∀ o c, m o = some c → c.IsSpent = false)
    (hheight : 0 ≤ nHeight ∧ nHeight < 2 ^ 31) (hconn : TxConnectable GetHash nHeight m tx)
    (hview : view base t = connectTxMap GetHash nHeight m tx) (txundo : Option CTxUndo)
    (hundo : match txundo with
      | none => tx.IsCoinBase = true
      | some u => tx.IsCoinBase = false ∧
        (spentCoins tx).map (fun kv => m kv.1) = u.vprevout.map some)
    (fClean : Bool) :
    ∃ t', disconnectTx usage base GetHash nHeight t fClean tx txundo = .ok (t', some fClean) ∧
      CacheInv base t' ∧ view base t' = m := by
  have hlen : 0 + tx.vout.length ≤ 2 ^ 32 := by rw [Nat.zero_add]; exact hconn.length
  -- the outputs are where the connect put them
  have hheld : ∀ kv ∈ outputCoins (GetHash tx) nHeight tx.IsCoinBase 0 tx.vout,
      view base t kv.1 = kv.2 := fun kv hkv => by
    rw [hview, connectTxMap]
    exact Function.updateAll_of_mem (nodup_outputCoins hlen) hkv
  obtain ⟨ht₁, hclean₁, hview₁⟩ := disconnectOutputs_spec usage hheight tx.vout t fClean 0 ht hlen hheld
  rw [hview, updateAll_connectTxMap_outputs hconn] at hview₁
  rcases hd : disconnectOutputs usage base (GetHash tx) tx.IsCoinBase nHeight t fClean 0 tx.vout
    with ⟨t₁, fClean₁⟩
  rw [hd] at ht₁ hclean₁ hview₁
  dsimp only at ht₁ hclean₁ hview₁
  subst fClean₁
  cases txundo with
  | none =>
    -- the coinbase spends nothing
    refine ⟨t₁, by simp only [disconnectTx, hd], ht₁, ?_⟩
    rw [hview₁, spentCoins, hundo]
    rfl
  | some u =>
    obtain ⟨hcb, hcoins⟩ := hundo
    rw [spentCoins, hcb, Bool.not_false, if_pos rfl, List.map_map] at hcoins
    have hlenu : u.vprevout.length = tx.vin.length := by
      simpa using (congrArg List.length hcoins).symm
    -- each input's coin goes back where the spends left nothing
    have hpairs : ∀ p ∈ (tx.vin.zip u.vprevout).reverse, view base t₁ p.1.prevout = none ∧
        p.2.nHeight ≠ 0 ∧ p.2.IsSpent = false ∧ IsUnspendable p.2.out.scriptPubKey = false := by
      intro p hp
      have hp' := List.mem_reverse.mp hp
      have hmp : m p.1.prevout = some p.2 := eq_of_mem_zip_of_map_eq hcoins hp'
      obtain ⟨c, hc, hheight', hun⟩ := hconn.spent hcb p.1 (List.of_mem_zip hp').1
      rw [hc, Option.some.injEq] at hmp
      subst hmp
      refine ⟨?_, hheight', hm _ _ hc, hun⟩
      rw [hview₁]
      refine Function.updateAll_of_mem (nodup_spentCoins hconn) ?_
      rw [spentCoins, hcb, Bool.not_false, if_pos rfl]
      exact List.mem_map_of_mem (List.of_mem_zip hp').1
    have hnd : ((tx.vin.zip u.vprevout).reverse.map fun p => p.1.prevout).Nodup := by
      rw [List.map_reverse, List.nodup_reverse, map_prevout_zip (le_of_eq hlenu.symm)]
      exact hconn.nodup hcb
    obtain ⟨t', hundo', ht', hview'⟩ := undoInputs_spec usage _ t₁ fClean ht₁ hnd hpairs
    refine ⟨t', ?_, ht', ?_⟩
    · simp only [disconnectTx, hd, hlenu, ne_eq, not_true_eq_false, if_false]
      exact hundo'
    · rw [hview', hview₁]
      exact updateAll_spentCoins_restore hconn hcb (by rw [← hcoins]; rfl)

/-- The spends of `RollforwardBlock`, which ignore whether a coin was there: the view loses
each spent outpoint's coin. -/
theorem foldl_SpendCoin_spec (ins : List CTxIn) (s : CCoinsViewCache) (hs : CacheInv base s) :
    CacheInv base (ins.foldl (fun s txin => (SpendCoin usage base s txin.prevout).1) s) ∧
      view base (ins.foldl (fun s txin => (SpendCoin usage base s txin.prevout).1) s) =
        Function.updateAll (view base s) (ins.map fun txin => (txin.prevout, none)) := by
  induction ins generalizing s with
  | nil => exact ⟨hs, rfl⟩
  | cons txin rest ih =>
    obtain ⟨hs₁, hview₁, -⟩ := SpendCoin_spec usage (o := txin.prevout) hs
    obtain ⟨hs', hview'⟩ := ih _ hs₁
    exact ⟨hs', by rw [List.foldl_cons, hview', hview₁, List.map_cons, Function.updateAll_cons]⟩

/-- One transaction replayed: whatever the view, it becomes the map `UpdateCoins` makes of it. -/
theorem rollforwardTx_spec (hs : CacheInv base s) (hvals : ∀ out ∈ tx.vout, out.nValue ≠ -1)
    (hlen : tx.vout.length ≤ 2 ^ 32) :
    ∃ s', AddCoins usage base GetHash
        (if !tx.IsCoinBase then
          tx.vin.foldl (fun s txin => (SpendCoin usage base s txin.prevout).1) s else s)
        tx nHeight true = .ok s' ∧
      CacheInv base s' ∧ view base s' = connectTxMap GetHash nHeight (view base s) tx := by
  -- the spends, as `spentCoins` has them
  have hspend : CacheInv base (if !tx.IsCoinBase then
        tx.vin.foldl (fun s txin => (SpendCoin usage base s txin.prevout).1) s else s) ∧
      view base (if !tx.IsCoinBase then
        tx.vin.foldl (fun s txin => (SpendCoin usage base s txin.prevout).1) s else s) =
        Function.updateAll (view base s) (spentCoins tx) := by
    rw [spentCoins]
    split_ifs
    · exact foldl_SpendCoin_spec usage tx.vin s hs
    · exact ⟨hs, rfl⟩
  -- with `check`, an output never meets the flag that throws
  obtain ⟨s', hadd, hs', hview'⟩ := @addCoinsLoop_spec usage base (GetHash tx) nHeight true
    tx.IsCoinBase tx.vout _ 0 hspend.1 hvals (by rw [Nat.zero_add]; exact hlen)
    (fun h => Bool.noConfusion h)
  exact ⟨s', hadd, hs', by rw [hview', hspend.2, connectTxMap]⟩

end Tx

/-! ## The block -/

section Block

variable (usage : Coin → ℕ) {base : COutPoint → Option Coin} (GetHash : CTransaction → Uint256)
variable {nHeight : ℤ}

/-- The loop of `DisconnectBlock` goes on from where a first stretch of it ended, unless that
stretch failed. -/
theorem disconnectLoop_append_of_ok {t t₁ : CCoinsViewCache} {fClean fClean₁ : Bool} :
    ∀ {l₁ : List (CTransaction × Option CTxUndo)} (l₂ : List (CTransaction × Option CTxUndo)),
      disconnectLoop usage base GetHash nHeight t fClean l₁ = .ok (t₁, some fClean₁) →
      disconnectLoop usage base GetHash nHeight t fClean (l₁ ++ l₂) =
        disconnectLoop usage base GetHash nHeight t₁ fClean₁ l₂
  | [], l₂, h => by
    cases h
    rfl
  | (tx, txundo) :: l₁, l₂, h => by
    obtain ⟨⟨t', r⟩, hd, h⟩ := Except.bind_eq_ok.mp h
    cases r with
    | none => cases h
    | some fClean' =>
      rw [List.cons_append, disconnectLoop, hd, Except.ok_bind]
      exact disconnectLoop_append_of_ok l₂ h

/-- The transactions after the first, all spending ones: their connection refines the map, and
from any cache over any base that shows what it left, the disconnect of the same transactions,
last first, with the undo records it wrote, restores the map. Induction on the transactions:
the first is disconnected last, from a cache that by induction shows what it left. -/
theorem connectCoinsLoop_disconnect (hheight : 0 ≤ nHeight ∧ nHeight < 2 ^ 31) :
    ∀ (txs : List CTransaction) (s : CCoinsViewCache) (i : ℕ), 0 < i → CacheInv base s →
      (∀ tx ∈ txs, tx.IsCoinBase = false) → BlockConnectable GetHash nHeight (view base s) txs →
      ∃ s' vtxundo, connectCoinsLoop usage base GetHash nHeight s i txs = .ok (s', vtxundo) ∧
        CacheInv base s' ∧ view base s' = txs.foldl (connectTxMap GetHash nHeight) (view base s) ∧
        vtxundo.length = txs.length ∧
        ∀ (base' : COutPoint → Option Coin) (t : CCoinsViewCache) (fClean : Bool),
          CacheInv base' t → view base' t = view base s' →
          ∃ t', disconnectLoop usage base' GetHash nHeight t fClean
              (txs.zip (vtxundo.map some)).reverse = .ok (t', some fClean) ∧
            CacheInv base' t' ∧ view base' t' = view base s
  | [], s, _, _, hs, _, _ =>
    ⟨s, [], rfl, hs, rfl, rfl, fun _ t _ ht hvt => ⟨t, rfl, ht, hvt⟩⟩
  | tx :: rest, s, i, hi, hs, hcb, ⟨htx, hrest⟩ => by
    obtain ⟨s₁, txundo, hupd, hs₁, hview₁, hcoins⟩ := UpdateCoins_spec usage GetHash hs htx
    obtain ⟨s', vtxundo, hloop, hs', hview', hlen, hdis⟩ :=
      connectCoinsLoop_disconnect hheight rest s₁ (i + 1) (Nat.succ_pos i) hs₁
        (fun tx' h => hcb tx' (List.mem_cons_of_mem _ h)) (hview₁ ▸ hrest)
    refine ⟨s', txundo :: vtxundo, ?_, hs', by rw [hview', hview₁, List.foldl_cons], by
      rw [List.length_cons, List.length_cons, hlen], ?_⟩
    · simp only [connectCoinsLoop, hupd, hloop, Except.ok_bind, Nat.pos_iff_ne_zero.mp hi, if_false]
      rfl
    · intro base' t fClean ht hvt
      -- the later transactions first, back to the map `tx` made
      obtain ⟨t₁, hd₁, ht₁, hvt₁⟩ := hdis base' t fClean ht hvt
      obtain ⟨t', hd', ht', hvt'⟩ := disconnectTx_spec usage GetHash ht₁
        (fun _ _ h => IsSpent_of_view h) hheight htx (hvt₁.trans hview₁)
        (some txundo) ⟨hcb tx List.mem_cons_self, hcoins⟩ fClean
      refine ⟨t', ?_, ht', hvt'⟩
      rw [List.map_cons, List.zip_cons_cons, List.reverse_cons,
        disconnectLoop_append_of_ok usage GetHash _ hd₁]
      simp only [disconnectLoop, hd', Except.ok_bind]

/-- **Disconnecting a block undoes connecting it.** Take a block whose first transaction is its
only coinbase, at a height that fits the 31-bit field, whose transactions are connectable one
after the other. Its connection never throws, and the view becomes the map the transactions
make. From any cache, over any base, that shows the coins the connection left, `DisconnectBlock`
with the undo data the connection wrote neither throws nor fails: the result is
`DISCONNECT_OK`, the invariant holds, and the view is again the one before the block. -/
theorem DisconnectBlock_connectBlockCoins {s : CCoinsViewCache} (hs : CacheInv base s)
    {block : CBlock}
    (hvtx : ∃ cb rest, block.vtx = cb :: rest ∧ cb.IsCoinBase = true ∧
      ∀ tx ∈ rest, tx.IsCoinBase = false)
    (hheight : 0 ≤ nHeight ∧ nHeight < 2 ^ 31)
    (hconn : BlockConnectable GetHash nHeight (view base s) block.vtx) (hashPrev : Uint256) :
    ∃ s' blockUndo, connectBlockCoins usage base GetHash s block nHeight = .ok (s', blockUndo) ∧
      CacheInv base s' ∧
      view base s' = block.vtx.foldl (connectTxMap GetHash nHeight) (view base s) ∧
      ∀ (base' : COutPoint → Option Coin) (t : CCoinsViewCache), CacheInv base' t →
        view base' t = view base s' →
        ∃ t', DisconnectBlock usage base' GetHash t block blockUndo nHeight hashPrev =
            .ok (t', .DISCONNECT_OK) ∧ CacheInv base' t' ∧ view base' t' = view base s := by
  obtain ⟨cb, rest, hvtx, hcb, hrest⟩ := hvtx
  rw [hvtx] at hconn ⊢
  obtain ⟨hcbconn, hrestconn⟩ := hconn
  obtain ⟨s₁, cbundo, hupd, hs₁, hview₁, -⟩ := UpdateCoins_spec usage GetHash hs hcbconn
  obtain ⟨s', vtxundo, hloop, hs', hview', hlen, hdis⟩ := connectCoinsLoop_disconnect usage GetHash
    hheight rest s₁ 1 Nat.one_pos hs₁ hrest (hview₁ ▸ hrestconn)
  refine ⟨s', ⟨vtxundo⟩, ?_, hs', by rw [hview', hview₁, List.foldl_cons], ?_⟩
  · -- the coinbase's undo record is not kept
    simp only [connectBlockCoins, hvtx, connectCoinsLoop, hupd, hloop, Except.ok_bind, if_true]
    rfl
  · intro base' t ht hvt
    obtain ⟨t₁, hd₁, ht₁, hvt₁⟩ := hdis base' t true ht hvt
    obtain ⟨t', hd', ht', hvt'⟩ := disconnectTx_spec usage GetHash ht₁
      (fun _ _ h => IsSpent_of_view h) hheight hcbconn (hvt₁.trans hview₁)
      none hcb true
    refine ⟨{ t' with hashBlock := hashPrev }, ?_, ⟨ht'.fresh, ht'.clean⟩, hvt'⟩
    have hsize : vtxundo.length + 1 = (cb :: rest).length := by rw [hlen, List.length_cons]
    simp only [DisconnectBlock, hvtx, hsize, ne_eq, not_true_eq_false, if_false]
    rw [List.zip_cons_cons, List.reverse_cons, disconnectLoop_append_of_ok usage GetHash _ hd₁]
    simp only [disconnectLoop, hd', Except.ok_bind]
    rfl

/-- A hash that tells a coinbase from any other transaction. -/
def sampleGetHash (tx : CTransaction) : Uint256 :=
  ⟨List.replicate 32 (if tx.IsCoinBase then 7 else 8), List.length_replicate⟩

/-- A coinbase paying 50 to `OP_TRUE`. -/
def sampleCoinbaseTx : CTransaction :=
  ⟨1, [⟨⟨uint256S "", 0xffffffff⟩, [1], 0xffffffff, []⟩], [⟨50, [0x51]⟩], 0⟩

/-- A transaction spending the coin of `sampleBase` into 4 to `OP_TRUE`. -/
def sampleSpendTx : CTransaction := ⟨1, [⟨sampleOutPoint 0, [], 0xffffffff, []⟩], [⟨4, [0x51]⟩], 0⟩

def sampleBlock : CBlock := { emptyHiveBlock with vtx := [sampleCoinbaseTx, sampleSpendTx] }

theorem DisconnectBlock_connectBlockCoins_spend :
    ∃ s' blockUndo, connectBlockCoins (fun _ => 0) sampleBase sampleGetHash
        ⟨uint256S "", ∅, 0⟩ sampleBlock 2 = .ok (s', blockUndo) ∧
      CacheInv sampleBase s' ∧
      view sampleBase s' = sampleBlock.vtx.foldl (connectTxMap sampleGetHash 2)
        (view sampleBase ⟨uint256S "", ∅, 0⟩) ∧
      ∀ (base' : COutPoint → Option Coin) (t : CCoinsViewCache), CacheInv base' t →
        view base' t = view sampleBase s' →
        ∃ t', DisconnectBlock (fun _ => 0) base' sampleGetHash t sampleBlock blockUndo 2
            (uint256S "") = .ok (t', .DISCONNECT_OK) ∧ CacheInv base' t' ∧
          view base' t' = view sampleBase ⟨uint256S "", ∅, 0⟩ := by
  have hcb : TxConnectable sampleGetHash 2 (view sampleBase ⟨uint256S "", ∅, 0⟩) sampleCoinbaseTx :=
    ⟨fun h => absurd h (by decide), fun h => absurd h (by decide), by decide, by decide,
      by decide⟩
  have hspend : TxConnectable sampleGetHash 2
      (connectTxMap sampleGetHash 2 (view sampleBase ⟨uint256S "", ∅, 0⟩) sampleCoinbaseTx)
      sampleSpendTx := by
    refine ⟨fun _ => by decide, fun _ txin h => ?_, by decide, by decide, by decide⟩
    rw [sampleSpendTx, List.mem_singleton] at h
    subst h
    exact ⟨sampleCoin, by decide, by decide, by decide⟩
  exact @DisconnectBlock_connectBlockCoins (fun _ => 0) sampleBase sampleGetHash 2
    ⟨uint256S "", ∅, 0⟩ (cacheInv_empty _ 0) sampleBlock
    ⟨sampleCoinbaseTx, [sampleSpendTx], rfl, by decide, by decide⟩ ⟨by norm_num, by norm_num⟩
    ⟨hcb, hspend, trivial⟩ (uint256S "")

/-- The loop of `RollforwardBlock`: from any cache, the view becomes the map of the
transactions replayed, one after the other. -/
theorem rollforwardLoop_spec : ∀ (txs : List CTransaction) (s : CCoinsViewCache),
    CacheInv base s → (∀ tx ∈ txs, ∀ out ∈ tx.vout, out.nValue ≠ -1) →
    (∀ tx ∈ txs, tx.vout.length ≤ 2 ^ 32) →
    ∃ s', rollforwardLoop usage base GetHash nHeight s txs = .ok s' ∧ CacheInv base s' ∧
      view base s' = txs.foldl (connectTxMap GetHash nHeight) (view base s)
  | [], s, hs, _, _ => ⟨s, rfl, hs, rfl⟩
  | tx :: rest, s, hs, hvals, hlen => by
    obtain ⟨s₁, hadd, hs₁, hview₁⟩ := @rollforwardTx_spec usage base GetHash s nHeight tx hs
      (hvals tx (List.mem_cons_self ..)) (hlen tx (List.mem_cons_self ..))
    obtain ⟨s', hloop, hs', hview'⟩ := rollforwardLoop_spec rest s₁ hs₁
      (fun tx' h => hvals tx' (List.mem_cons_of_mem _ h))
      (fun tx' h => hlen tx' (List.mem_cons_of_mem _ h))
    refine ⟨s', ?_, hs', by rw [hview', hview₁, List.foldl_cons]⟩
    simp only [rollforwardLoop, hadd, Except.ok_bind]
    exact hloop

/-- **Replaying a block agrees with connecting it.** `RollforwardBlock`, which `ReplayBlocks`
runs after a crash over coins that may hold any part of the block's writes, never throws when
no output is null and no transaction has more than `2 ^ 32` outputs, whatever the cache holds;
and it turns every view into the map `UpdateCoins` makes of it, transaction after transaction,
which is what `ConnectBlock` makes of the view before the block. -/
theorem RollforwardBlock_spec {s : CCoinsViewCache} (hs : CacheInv base s) {block : CBlock}
    (hvals : ∀ tx ∈ block.vtx, ∀ out ∈ tx.vout, out.nValue ≠ -1)
    (hlen : ∀ tx ∈ block.vtx, tx.vout.length ≤ 2 ^ 32) :
    ∃ s', RollforwardBlock usage base GetHash s block nHeight = .ok s' ∧ CacheInv base s' ∧
      view base s' = block.vtx.foldl (connectTxMap GetHash nHeight) (view base s) :=
  rollforwardLoop_spec usage GetHash block.vtx s hs hvals hlen

/-- The forward loop of `ReplayBlocks`, from any cache: the view becomes the map of the blocks
replayed. -/
theorem replayForward_spec : ∀ (blocks : List (CBlock × ℤ)) (s : CCoinsViewCache),
    CacheInv base s → (∀ b ∈ blocks, ∀ tx ∈ b.1.vtx, ∀ out ∈ tx.vout, out.nValue ≠ -1) →
    (∀ b ∈ blocks, ∀ tx ∈ b.1.vtx, tx.vout.length ≤ 2 ^ 32) →
    ∃ s', replayForward usage base GetHash s blocks = .ok s' ∧ CacheInv base s' ∧
      view base s' = connectBlocksMap GetHash (view base s) blocks
  | [], s, hs, _, _ => ⟨s, rfl, hs, rfl⟩
  | (block, nHeight) :: rest, s, hs, hvals, hlen => by
    obtain ⟨s₁, hroll, hs₁, hview₁⟩ := @RollforwardBlock_spec usage base GetHash nHeight s hs block
      (hvals _ (List.mem_cons_self ..)) (hlen _ (List.mem_cons_self ..))
    obtain ⟨s', hloop, hs', hview'⟩ := replayForward_spec rest s₁ hs₁
      (fun b h => hvals b (List.mem_cons_of_mem _ h)) (fun b h => hlen b (List.mem_cons_of_mem _ h))
    refine ⟨s', ?_, hs', by rw [hview', hview₁]; rfl⟩
    simp only [replayForward, hroll, Except.ok_bind]
    exact hloop

/-- **Replaying blocks after a crash restores the coins.** A flush cut short leaves the coins
holding, at each outpoint, either the coin from before the blocks being connected or the one
from after them. Rolling those blocks forward over such coins, as `ReplayBlocks` does, never
throws when no output is null and no transaction has more than `2 ^ 32` outputs, and leaves
exactly the coins that connecting the blocks to the coins before them gives. -/
theorem replayForward_of_interrupted_flush {s : CCoinsViewCache} (hs : CacheInv base s)
    {blocks : List (CBlock × ℤ)}
    (hvals : ∀ b ∈ blocks, ∀ tx ∈ b.1.vtx, ∀ out ∈ tx.vout, out.nValue ≠ -1)
    (hlen : ∀ b ∈ blocks, ∀ tx ∈ b.1.vtx, tx.vout.length ≤ 2 ^ 32) {m : COutPoint → Option Coin}
    (hmixed : ∀ o, view base s o = m o ∨ view base s o = connectBlocksMap GetHash m blocks o) :
    ∃ s', replayForward usage base GetHash s blocks = .ok s' ∧ CacheInv base s' ∧
      view base s' = connectBlocksMap GetHash m blocks := by
  obtain ⟨s', hrun, hs', hview⟩ := replayForward_spec usage GetHash blocks s hs hvals hlen
  refine ⟨s', hrun, hs', ?_⟩
  -- the replay is one batch of writes, and the coins hold a part of it
  rw [connectBlocksMap_eq_updateAll] at hmixed
  rw [hview, connectBlocksMap_eq_updateAll, connectBlocksMap_eq_updateAll]
  exact Function.updateAll_of_mixed hmixed

/-- The coins of `sampleBase` with its coin already spent by the block's write, and the
coinbase's output not yet written. -/
theorem replayForward_of_interrupted_flush_spent :
    ∃ s', replayForward (fun _ => 0) sampleBase sampleGetHash
        (SpendCoin (fun _ => 0) sampleBase ⟨uint256S "", ∅, 0⟩ (sampleOutPoint 0)).1
        [(sampleBlock, 2)] = .ok s' ∧ CacheInv sampleBase s' ∧
      view sampleBase s' = connectBlocksMap sampleGetHash (view sampleBase ⟨uint256S "", ∅, 0⟩)
        [(sampleBlock, 2)] := by
  have hempty : CacheInv sampleBase ⟨uint256S "", ∅, 0⟩ := cacheInv_empty _ 0
  have hspend := SpendCoin_spec (fun _ => 0) (o := sampleOutPoint 0) hempty
  refine @replayForward_of_interrupted_flush (fun _ => 0) sampleBase sampleGetHash _ hspend.1
    [(sampleBlock, 2)] (by decide) (by decide) _ fun o => ?_
  rw [hspend.2.1]
  by_cases ho : o = sampleOutPoint 0
  · -- the spent coin is as the block leaves it
    subst ho
    right
    rw [Function.update_self]
    decide
  · left
    rw [Function.update_of_ne ho]

end Block

end Coins

end LightningCash
