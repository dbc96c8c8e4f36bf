import LightningCash.Serialize.Serialize
import LightningCash.Primitives.Transaction

/-!
# Transaction serialization

`SerializeTransaction` and `UnserializeTransaction` of `primitives/transaction.h`, with the
serialization of outpoints, inputs and outputs they call. A transaction is its version, its
inputs, its outputs and its lock time; when the stream allows witnesses and some input has one,
the extended format puts an empty input vector and a flag byte with bit 1 set after the version,
and one witness stack per input before the lock time.

The reader cannot tell an empty input vector of the basic format from the marker of the
extended one, so a transaction reads back only when it has an input. It reads back with its
witnesses from a stream that allows them, and without them from one that does not; the
size computer counts the bytes written in either mode.

A `CAmount` is an `int64_t` in the source and an integer in the model; the outputs' values are
written as their 64-bit two's complement, so they read back when they are in the type's range.
-/

namespace LightningCash

open Codec

/-- `SERIALIZE_TRANSACTION_NO_WITNESS`. -/
def SERIALIZE_TRANSACTION_NO_WITNESS : UInt32 := 0x40000000

/-- `!(s.GetVersion() & SERIALIZE_TRANSACTION_NO_WITNESS)`. -/
def fAllowWitness (streamVersion : UInt32) : Bool :=
  streamVersion &&& SERIALIZE_TRANSACTION_NO_WITNESS == 0

/-- `HasWitness()`: some input's witness stack is not empty. -/
def CTransaction.HasWitness (tx : CTransaction) : Bool :=
  tx.vin.any fun txin ↦ !txin.scriptWitness.isEmpty

/-- `uint256::Unserialize`: thirty-two bytes. -/
def readUint256 : Reader Uint256 := fun s ↦
  if h : 32 ≤ s.length then .ok (⟨s.take 32, by simp; omega⟩, s.drop 32)
  else .error "CDataStream::read(): end of data"

namespace COutPoint

def serialize (o : COutPoint) : List WriteOp := [.write o.hash.data, .write (ser_writedata32 o.n.toNat)]

def unserialize : Reader COutPoint := do
  let hash ← readUint256
  let n ← ser_readdata32
  pure ⟨hash, n.toUInt32⟩

end COutPoint

namespace CTxIn

/-- `SerializationOp`: the outpoint, the script and the sequence number, never the witness. -/
def serialize (txin : CTxIn) : List WriteOp :=
  txin.prevout.serialize ++ serializeBytes txin.scriptSig ++
    [.write (ser_writedata32 txin.nSequence.toNat)]

/-- Reading into a default-constructed `CTxIn`, whose witness stays empty. -/
def unserialize : Reader CTxIn := do
  let prevout ← COutPoint.unserialize
  let scriptSig ← unserializeBytes
  let nSequence ← ser_readdata32
  pure ⟨prevout, scriptSig, nSequence.toUInt32, []⟩

end CTxIn

namespace CTxOut

/-- `SerializationOp`: the value as the bits of an `int64_t`, then the script. -/
def serialize (txout : CTxOut) : List WriteOp :=
  .write (ser_writedata64 (txout.nValue % 2 ^ 64).toNat) :: serializeBytes txout.scriptPubKey

def unserialize : Reader CTxOut := do
  let nValue ← ser_readdata64
  let scriptPubKey ← unserializeBytes
  pure ⟨nValue.toUInt64.toInt64.toInt, scriptPubKey⟩

end CTxOut

def SerializeTransaction (tx : CTransaction) (streamVersion : UInt32) : List WriteOp :=
  let flags : ℕ := if fAllowWitness streamVersion && tx.HasWitness then 1 else 0
  [.write (ser_writedata32 tx.nVersion.toUInt32.toNat)] ++
    (if flags ≠ 0 then serializeVector CTxIn.serialize [] ++ [.write (ser_writedata8 flags)]
      else []) ++
    serializeVector CTxIn.serialize tx.vin ++ serializeVector CTxOut.serialize tx.vout ++
    (if flags &&& 1 ≠ 0 then
        tx.vin.flatMap fun txin ↦ serializeVector serializeBytes txin.scriptWitness
      else []) ++
    [.write (ser_writedata32 tx.nLockTime.toNat)]

/-- The witness stacks of the inputs, one after the other. -/
def unserializeWitnesses (vin : List CTxIn) : Reader (List CTxIn) :=
  vin.mapM fun txin ↦ do
    let stack ← unserializeVector unserializeBytes
    pure { txin with scriptWitness := stack }

def UnserializeTransaction (streamVersion : UInt32) : Reader CTransaction := do
  let nVersion ← ser_readdata32
  let vin ← unserializeVector CTxIn.unserialize
  -- an empty input vector is the marker of the extended format where witnesses are allowed
  let (flags, vin, vout) ←
    (if vin.isEmpty && fAllowWitness streamVersion then do
      let flags ← ser_readdata8
      if flags ≠ 0 then do
        let vin ← unserializeVector CTxIn.unserialize
        let vout ← unserializeVector CTxOut.unserialize
        pure (flags, vin, vout)
      else pure (flags, vin, [])
    else do
      let vout ← unserializeVector CTxOut.unserialize
      pure (0, vin, vout) : Reader (ℕ × List CTxIn × List CTxOut))
  let (flags, vin) ←
    (if flags &&& 1 != 0 && fAllowWitness streamVersion then do
      let vin ← unserializeWitnesses vin
      pure (flags ^^^ 1, vin)
    else pure (flags, vin) : Reader (ℕ × List CTxIn))
  if flags ≠ 0 then throw "Unknown transaction optional data"
  else do
    let nLockTime ← ser_readdata32
    pure ⟨nVersion.toUInt32.toInt32, vin, vout, nLockTime.toUInt32⟩

/-- `GetSerializeSize(tx)` on a stream of version `streamVersion`. -/
def GetSerializeSize (tx : CTransaction) (streamVersion : UInt32) : ℕ :=
  CSizeComputer.size (SerializeTransaction tx streamVersion)

/-! ## What a transaction must satisfy to read back -/

/-- The input with its witness dropped, as a reader that does not read witnesses leaves it. -/
def CTxIn.withoutWitness (txin : CTxIn) : CTxIn := { txin with scriptWitness := [] }

/-- The transaction with every witness dropped. -/
def CTransaction.withoutWitness (tx : CTransaction) : CTransaction :=
  { tx with vin := tx.vin.map CTxIn.withoutWitness }

/-- Every vector of the transaction is within the `MAX_SIZE` that `ReadCompactSize` accepts. -/
def CTransaction.VectorsWithin (tx : CTransaction) : Prop :=
  tx.vin.length ≤ MAX_SIZE ∧ tx.vout.length ≤ MAX_SIZE ∧
    (∀ txin ∈ tx.vin, txin.scriptSig.length ≤ MAX_SIZE ∧ txin.scriptWitness.length ≤ MAX_SIZE ∧
      ∀ item ∈ txin.scriptWitness, item.length ≤ MAX_SIZE) ∧
    ∀ txout ∈ tx.vout, txout.scriptPubKey.length ≤ MAX_SIZE

instance (tx : CTransaction) : Decidable tx.VectorsWithin :=
  inferInstanceAs (Decidable (_ ∧ _ ∧ _ ∧ _))

/-- Every output value is a value of `int64_t`. -/
def CTransaction.ValuesInt64 (tx : CTransaction) : Prop :=
  ∀ txout ∈ tx.vout, -2 ^ 63 ≤ txout.nValue ∧ txout.nValue < 2 ^ 63

instance (tx : CTransaction) : Decidable tx.ValuesInt64 :=
  inferInstanceAs (Decidable (∀ txout ∈ tx.vout, _))

/-! ## Fields -/

theorem readUint256_append (h : Uint256) (rest : List UInt8) :
    readUint256.run (h.data ++ rest) = .ok (h, rest) := by
  obtain ⟨data, hdata⟩ := h
  simp [readUint256, StateT.run, hdata]

theorem ser_readdata32_uint32 (x : UInt32) (rest : List UInt8) :
    ser_readdata32.run (ser_writedata32 x.toNat ++ rest) = .ok (x.toNat, rest) := by
  rw [ser_readdata32, ser_writedata32, ser_readdata_ser_writedata,
    Nat.mod_eq_of_lt (Nat.lt_of_lt_of_eq x.toNat_lt (by norm_num))]

/-- An `int64_t` written as its bits reads back. -/
theorem toInt_ofBits_int64 {a : ℤ} (h0 : -2 ^ 63 ≤ a) (h1 : a < 2 ^ 63) :
    ((a % 2 ^ 64).toNat % 256 ^ 8).toUInt64.toInt64.toInt = a := by
  have hbits : (((a % 2 ^ 64).toNat % 256 ^ 8).toUInt64).toBitVec = BitVec.ofInt 64 a := by
    apply BitVec.eq_of_toNat_eq
    simp [BitVec.toNat_ofInt]
    omega
  change (((a % 2 ^ 64).toNat % 256 ^ 8).toUInt64).toBitVec.toInt = a
  rw [hbits, BitVec.toInt_ofInt]
  exact Int.bmod_eq_of_le (by omega) (by omega)

theorem COutPoint.unserialize_serialize (o : COutPoint) (rest : List UInt8) :
    COutPoint.unserialize.run (CDataStream.written o.serialize ++ rest) = .ok (o, rest) := by
  simp only [COutPoint.serialize, CDataStream.written_cons, CDataStream.written_nil,
    WriteOp.bytes, List.append_nil, List.append_assoc]
  rw [COutPoint.unserialize, run_bind_of_ok (readUint256_append _ _),
    run_bind_of_ok (ser_readdata32_uint32 _ _)]
  simp

theorem CTxIn.unserialize_serialize {txin : CTxIn} (hsig : txin.scriptSig.length ≤ MAX_SIZE)
    (rest : List UInt8) :
    CTxIn.unserialize.run (CDataStream.written txin.serialize ++ rest) =
      .ok (txin.withoutWitness, rest) := by
  simp only [CTxIn.serialize, CDataStream.written_append, CDataStream.written_cons,
    CDataStream.written_nil, WriteOp.bytes, List.append_nil, List.append_assoc]
  rw [CTxIn.unserialize, run_bind_of_ok (COutPoint.unserialize_serialize _ _),
    run_bind_of_ok (unserializeBytes_serializeBytes hsig _),
    run_bind_of_ok (ser_readdata32_uint32 _ _)]
  simp [CTxIn.withoutWitness]

theorem CTxOut.unserialize_serialize {txout : CTxOut}
    (hscript : txout.scriptPubKey.length ≤ MAX_SIZE) (h0 : -2 ^ 63 ≤ txout.nValue)
    (h1 : txout.nValue < 2 ^ 63) (rest : List UInt8) :
    CTxOut.unserialize.run (CDataStream.written txout.serialize ++ rest) = .ok (txout, rest) := by
  simp only [CTxOut.serialize, CDataStream.written_cons, WriteOp.bytes, List.append_assoc]
  rw [CTxOut.unserialize, ser_readdata64, ser_writedata64,
    run_bind_of_ok (ser_readdata_ser_writedata 8 _ _),
    run_bind_of_ok (unserializeBytes_serializeBytes hscript _), toInt_ofBits_int64 h0 h1]
  rfl

/-! ## Vectors of inputs, outputs and witnesses -/

theorem CTxIn.serialize_withoutWitness (txin : CTxIn) :
    txin.withoutWitness.serialize = txin.serialize := rfl

theorem CTxIn.readsBack :
    ReadsBack (fun txin : CTxIn ↦ CDataStream.written txin.serialize) CTxIn.unserialize
      fun txin ↦ txin.scriptSig.length ≤ MAX_SIZE ∧ txin.scriptWitness = [] := by
  rintro ⟨prevout, scriptSig, nSequence, scriptWitness⟩ ⟨hsig, rfl⟩ rest
  exact CTxIn.unserialize_serialize hsig rest

/-- The inputs read back without their witnesses. -/
theorem unserializeVector_inputs {vin : List CTxIn} (hlen : vin.length ≤ MAX_SIZE)
    (hsig : ∀ txin ∈ vin, txin.scriptSig.length ≤ MAX_SIZE) (rest : List UInt8) :
    (unserializeVector CTxIn.unserialize).run
        (CDataStream.written (serializeVector CTxIn.serialize vin) ++ rest) =
      .ok (vin.map CTxIn.withoutWitness, rest) := by
  have hser : serializeVector CTxIn.serialize (vin.map CTxIn.withoutWitness) =
      serializeVector CTxIn.serialize vin := by
    simp only [serializeVector, List.length_map, List.flatMap_map, CTxIn.serialize_withoutWitness]
  rw [← hser]
  refine unserializeVector_serializeVector CTxIn.readsBack (fun txin h ↦ ?_) (by simpa using hlen) rest
  obtain ⟨txin, hmem, rfl⟩ := List.mem_map.mp h
  exact ⟨hsig txin hmem, rfl⟩

theorem unserializeVector_outputs {vout : List CTxOut} (hlen : vout.length ≤ MAX_SIZE)
    (hout : ∀ txout ∈ vout, txout.scriptPubKey.length ≤ MAX_SIZE ∧ -2 ^ 63 ≤ txout.nValue ∧
      txout.nValue < 2 ^ 63) (rest : List UInt8) :
    (unserializeVector CTxOut.unserialize).run
        (CDataStream.written (serializeVector CTxOut.serialize vout) ++ rest) = .ok (vout, rest) :=
  unserializeVector_serializeVector (fun _ h rest ↦ CTxOut.unserialize_serialize h.1 h.2.1 h.2.2 rest)
    hout hlen rest

theorem unserializeVector_stack {stack : List (List UInt8)} (hlen : stack.length ≤ MAX_SIZE)
    (hitems : ∀ item ∈ stack, item.length ≤ MAX_SIZE) (rest : List UInt8) :
    (unserializeVector unserializeBytes).run
        (CDataStream.written (serializeVector serializeBytes stack) ++ rest) = .ok (stack, rest) :=
  unserializeVector_serializeVector (fun _ h rest ↦ unserializeBytes_serializeBytes h rest) hitems
    hlen rest

/-- The witness stacks, read one per input, restore the inputs' witnesses. -/
theorem unserializeWitnesses_roundtrip (vin : List CTxIn)
    (hvin : ∀ txin ∈ vin, txin.scriptWitness.length ≤ MAX_SIZE ∧
      ∀ item ∈ txin.scriptWitness, item.length ≤ MAX_SIZE) (rest : List UInt8) :
    (unserializeWitnesses (vin.map CTxIn.withoutWitness)).run
        (CDataStream.written (vin.flatMap fun txin ↦ serializeVector serializeBytes txin.scriptWitness) ++
          rest) = .ok (vin, rest) := by
  induction vin with
  | nil => rfl
  | cons txin vin ih =>
    obtain ⟨hlen, hitems⟩ := hvin txin List.mem_cons_self
    have htail := ih fun t ht ↦ hvin t (List.mem_cons_of_mem txin ht)
    rw [List.map_cons, List.flatMap_cons, CDataStream.written_append, List.append_assoc,
      unserializeWitnesses, List.mapM_cons, run_bind_of_ok (run_bind_of_ok
        (unserializeVector_stack hlen hitems _)), ← unserializeWitnesses, run_bind_of_ok htail]
    rfl

/-! ## Transactions -/

section Transaction

variable {tx : CTransaction} {streamVersion : UInt32}

/-- The basic format: version, inputs, outputs, lock time. -/
theorem SerializeTransaction_basic (h : (fAllowWitness streamVersion && tx.HasWitness) = false) :
    SerializeTransaction tx streamVersion =
      [.write (ser_writedata32 tx.nVersion.toUInt32.toNat)] ++
        serializeVector CTxIn.serialize tx.vin ++ serializeVector CTxOut.serialize tx.vout ++
        [.write (ser_writedata32 tx.nLockTime.toNat)] := by
  simp [SerializeTransaction, h]

/-- The extended format: the marker and the flag after the version, the witnesses before the
lock time. -/
theorem SerializeTransaction_extended (h : (fAllowWitness streamVersion && tx.HasWitness) = true) :
    SerializeTransaction tx streamVersion =
      [.write (ser_writedata32 tx.nVersion.toUInt32.toNat)] ++
        (serializeVector CTxIn.serialize [] ++ [.write (ser_writedata8 1)]) ++
        serializeVector CTxIn.serialize tx.vin ++ serializeVector CTxOut.serialize tx.vout ++
        (tx.vin.flatMap fun txin ↦ serializeVector serializeBytes txin.scriptWitness) ++
        [.write (ser_writedata32 tx.nLockTime.toNat)] := by
  simp [SerializeTransaction, h]

/-- A transaction without witnesses is its own witness-free form. -/
theorem withoutWitness_of_HasWitness_false (h : tx.HasWitness = false) : tx.withoutWitness = tx := by
  obtain ⟨nVersion, vin, vout, nLockTime⟩ := tx
  simp only [CTransaction.HasWitness, List.any_eq_false, Bool.not_eq_true'] at h
  simp only [CTransaction.withoutWitness, CTransaction.mk.injEq, and_true, true_and]
  refine (List.map_congr_left fun txin hmem ↦ ?_).trans (List.map_id _)
  obtain ⟨prevout, scriptSig, nSequence, scriptWitness⟩ := txin
  simp only [CTxIn.withoutWitness, id, CTxIn.mk.injEq, true_and]
  have hempty : scriptWitness = [] := by simpa using h _ hmem
  exact hempty.symm

theorem UnserializeTransaction_basic (hvec : tx.VectorsWithin) (hval : tx.ValuesInt64)
    (hbasic : (tx.vin.isEmpty && fAllowWitness streamVersion) = false) (rest : List UInt8) :
    (UnserializeTransaction streamVersion).run
        (CDataStream.written ([.write (ser_writedata32 tx.nVersion.toUInt32.toNat)] ++
          serializeVector CTxIn.serialize tx.vin ++ serializeVector CTxOut.serialize tx.vout ++
          [.write (ser_writedata32 tx.nLockTime.toNat)]) ++ rest) =
      .ok (tx.withoutWitness, rest) := by
  obtain ⟨hvin, hvout, hins, houts⟩ := hvec
  simp only [CDataStream.written_append, CDataStream.written_cons, CDataStream.written_nil,
    WriteOp.bytes, List.append_nil, List.append_assoc]
  rw [UnserializeTransaction, run_bind_of_ok (ser_readdata32_uint32 _ _),
    run_bind_of_ok (unserializeVector_inputs hvin (fun t ht ↦ (hins t ht).1) _),
    List.isEmpty_map, hbasic, if_neg Bool.false_ne_true, run_bind_of_ok (run_bind_of_ok
      (unserializeVector_outputs hvout (fun t ht ↦ ⟨houts t ht, hval t ht⟩) _))]
  -- no flag was read: no witnesses, nothing unknown, then the lock time
  dsimp only
  rw [if_neg (by simp), pure_bind, if_neg (by simp), run_bind_of_ok (ser_readdata32_uint32 _ _)]
  simp [CTransaction.withoutWitness]

theorem UnserializeTransaction_extended (hvec : tx.VectorsWithin) (hval : tx.ValuesInt64)
    (hallow : fAllowWitness streamVersion = true) (rest : List UInt8) :
    (UnserializeTransaction streamVersion).run
        (CDataStream.written ([.write (ser_writedata32 tx.nVersion.toUInt32.toNat)] ++
          (serializeVector CTxIn.serialize [] ++ [.write (ser_writedata8 1)]) ++
          serializeVector CTxIn.serialize tx.vin ++ serializeVector CTxOut.serialize tx.vout ++
          (tx.vin.flatMap fun txin ↦ serializeVector serializeBytes txin.scriptWitness) ++
          [.write (ser_writedata32 tx.nLockTime.toNat)]) ++ rest) = .ok (tx, rest) := by
  obtain ⟨hvin, hvout, hins, houts⟩ := hvec
  have hflag (s : List UInt8) : ser_readdata8.run (ser_writedata8 1 ++ s) = .ok (1, s) :=
    ser_readdata_ser_writedata 1 1 s
  simp only [CDataStream.written_append, CDataStream.written_cons, CDataStream.written_nil,
    WriteOp.bytes, List.append_nil, List.append_assoc]
  rw [UnserializeTransaction, run_bind_of_ok (ser_readdata32_uint32 _ _),
    run_bind_of_ok (@unserializeVector_inputs [] (by simp) (by simp) _)]
  rw [List.map_nil, List.isEmpty_nil, hallow, Bool.true_and, if_pos rfl, bind_assoc,
    run_bind_of_ok (hflag _)]
  -- flag 1: the inputs and the outputs, then one witness stack per input
  rw [if_pos one_ne_zero, bind_assoc,
    run_bind_of_ok (unserializeVector_inputs hvin (fun t ht ↦ (hins t ht).1) _), bind_assoc,
    run_bind_of_ok (unserializeVector_outputs hvout (fun t ht ↦ ⟨houts t ht, hval t ht⟩) _),
    pure_bind]
  dsimp only
  rw [if_pos (by decide), bind_assoc,
    run_bind_of_ok (unserializeWitnesses_roundtrip tx.vin (fun t ht ↦ (hins t ht).2) _), pure_bind]
  dsimp only
  rw [if_neg (by decide), run_bind_of_ok (ser_readdata32_uint32 _ _)]
  simp

end Transaction

/-- A transaction with an input reads back whole from a stream that allows witnesses; any
transaction reads back without its witnesses from a stream that does not; and the size computer
counts the bytes written in both. -/
theorem SerializeTransaction_roundtrip (tx : CTransaction) (hvec : tx.VectorsWithin)
    (hval : tx.ValuesInt64) :
    (tx.vin ≠ [] → ∀ streamVersion, fAllowWitness streamVersion = true → ∀ rest : List UInt8,
        (UnserializeTransaction streamVersion).run
          (CDataStream.written (SerializeTransaction tx streamVersion) ++ rest) = .ok (tx, rest)) ∧
      (∀ streamVersion, fAllowWitness streamVersion = false → ∀ rest : List UInt8,
        (UnserializeTransaction streamVersion).run
            (CDataStream.written (SerializeTransaction tx streamVersion) ++ rest) =
          .ok (tx.withoutWitness, rest)) ∧
      ∀ streamVersion, GetSerializeSize tx streamVersion =
        (CDataStream.written (SerializeTransaction tx streamVersion)).length := by
  refine ⟨fun hne sv hallow rest ↦ ?_, fun sv hno rest ↦ ?_,
    fun sv ↦ CSizeComputer.size_eq_length _⟩
  · cases hw : tx.HasWitness
    · -- no witness to write: the basic format, which a nonempty input vector keeps apart
      have hbasic : (tx.vin.isEmpty && fAllowWitness sv) = false := by
        simp [List.isEmpty_iff, hne]
      rw [SerializeTransaction_basic (by rw [hw, Bool.and_false]),
        UnserializeTransaction_basic hvec hval hbasic rest, withoutWitness_of_HasWitness_false hw]
    · rw [SerializeTransaction_extended (by rw [hallow, hw]; rfl),
        UnserializeTransaction_extended hvec hval hallow rest]
  · rw [SerializeTransaction_basic (by rw [hno, Bool.false_and]),
      UnserializeTransaction_basic hvec hval (by rw [hno, Bool.and_false]) rest]

/-- A transaction with one input, carrying a one-item witness, and one output. -/
def sampleWitnessTx : CTransaction :=
  ⟨2, [⟨⟨⟨List.replicate 32 0, by simp⟩, 0⟩, [0x51], 0xffffffff, [[1]]⟩], [⟨5000, []⟩], 0⟩

theorem SerializeTransaction_roundtrip_on_sample :
    (UnserializeTransaction 0).run (CDataStream.written (SerializeTransaction sampleWitnessTx 0) ++ []) =
      .ok (sampleWitnessTx, []) :=
  (SerializeTransaction_roundtrip sampleWitnessTx (by decide) (by decide)).1 (List.cons_ne_nil _ _) 0
    (by decide) []

end LightningCash
