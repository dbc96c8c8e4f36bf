import LightningCash.Chain.Params

/-!
# Transactions and blocks

`COutPoint`, `CTxIn`, `CTxOut`, `CTransaction` and `CBlock` with the fields the modelled code
reads. Scripts are byte strings. Indexing a `std::vector` past its end is undefined behaviour
in the source; the model's accessors return `Except` and fault there, so that a theorem can say
which inputs reach such a read.
-/

namespace LightningCash

/-- `CScript`: the serialized script bytes. -/
abbrev CScript := List UInt8

/-- `uint256::IsNull()`: every byte zero. -/
def Uint256.IsNull (h : Uint256) : Bool := h.data.all (· == 0)

/-- `v[i]` on a `std::vector`: out of range is a fault. -/
def vecAt {α : Type} (v : List α) (i : ℕ) : Except String α :=
  match v[i]? with
  | some a => .ok a
  | none => .error "vector index out of range"

theorem vecAt_of_lt {α : Type} {v : List α} {i : ℕ} (h : i < v.length) :
    vecAt v i = .ok (v.get ⟨i, h⟩) := by
  simp [vecAt, List.getElem?_eq_getElem h]

@[simp] theorem vecAt_cons_zero {α : Type} (a : α) (v : List α) : vecAt (a :: v) 0 = .ok a := rfl

@[simp] theorem vecAt_nil {α : Type} (i : ℕ) :
    vecAt ([] : List α) i = .error "vector index out of range" := rfl

structure COutPoint where
  hash : Uint256
  n : UInt32
  deriving DecidableEq

/-- `COutPoint::IsNull()`: a null hash and index `(uint32_t)-1`. -/
def COutPoint.IsNull (o : COutPoint) : Bool := o.hash.IsNull && o.n == 0xffffffff

structure CTxIn where
  prevout : COutPoint
  scriptSig : CScript
  nSequence : UInt32
  scriptWitness : List (List UInt8)
  deriving DecidableEq

/-! ## Amounts (`amount.h`) -/

/-- `COIN` (with `COIN_SCALE = 1`). -/
def COIN : ℤ := 100000000

/-- `MAX_MONEY`. -/
def MAX_MONEY : ℤ := 400000000 * COIN

/-- `CTxOut`: the value in satoshi (`CAmount`, an `int64_t`) and the locking script. -/
structure CTxOut where
  nValue : ℤ
  scriptPubKey : CScript
  deriving DecidableEq

/-- `CTxOut::IsNull()`: the value `-1` marks a spent or cleared output. -/
def CTxOut.IsNull (txout : CTxOut) : Bool := txout.nValue == -1

structure CTransaction where
  nVersion : Int32
  vin : List CTxIn
  vout : List CTxOut
  nLockTime : UInt32
  deriving DecidableEq

namespace CTransaction

/-- `IsCoinBase()`: exactly one input, spending the null outpoint. -/
def IsCoinBase (tx : CTransaction) : Bool :=
  match tx.vin with
  | [txin] => txin.prevout.IsNull
  | _ => false

end CTransaction

/-- `OP_RETURN`. -/
def OP_RETURN : UInt8 := 0x6a

/-- `OP_BEE`, this chain's marker opcode for bee transactions. -/
def OP_BEE : UInt8 := 0xbe

/-- `CScript::IsBCTScript(scriptPubKey, scriptPubKeyBCF)`: fifty-two bytes, the bee creation
script, then `OP_RETURN OP_BEE` and the honey script. -/
def IsBCTScript (scriptPubKey scriptPubKeyBCF : CScript) : Bool :=
  scriptPubKey.length == 52 && scriptPubKey.take 25 == scriptPubKeyBCF &&
    scriptPubKey.getD 25 0 == OP_RETURN && scriptPubKey.getD 26 0 == OP_BEE

/-- `CTransaction::IsBCT(params, scriptPubKeyBCF)`: reads `vout[0]` without checking that
there is one. -/
def CTransaction.IsBCT (tx : CTransaction) (scriptPubKeyBCF : CScript) : Except String Bool := do
  let out ← vecAt tx.vout 0
  pure (IsBCTScript out.scriptPubKey scriptPubKeyBCF)

/-- `CBlock`: the header, the transactions, and the cache flag `fChecked` that `CheckBlock`
sets once a block has passed with every check on. -/
structure CBlock extends CBlockHeader where
  vtx : List CTransaction
  fChecked : Bool

end LightningCash
