import LightningCash.Coins.Coin
import LightningCash.Primitives.TransactionSerialize
import LightningCash.Validation.CheckBlock
import LightningCash.Lib.Refines

/-!
# Value arithmetic of `CheckTransaction`, `GetValueOut` and `CheckTxInputs`

`CAmount` is `int64_t`, and a sum leaving it is undefined behaviour; the model makes every
`+=` and `-` on amounts a step that faults with `overflow` there, beside the rejections
(`state.DoS`, `state.Invalid`), the failed `assert` and the exception `GetValueOut` throws.

`CheckTransaction` checks each output value before adding it. `GetValueOut` and
`CheckTxInputs` add first and check after, so that the addition itself is safe only while the
value added is in `MoneyRange`. For outputs `CheckTransaction` has made sure of that; for the
coins `CheckTxInputs` spends it is what every coin of a view built from checked transactions
satisfies (`CCoinsViewCache.ValuesInRange`). Without it a coin worth `2 ^ 63 - 1` after a coin
worth one overflows the running sum of the inputs.

The loops are recursions on the list of outputs or inputs, each proved by induction with its
running sum generalised and kept in `MoneyRange` as the invariant.
-/

namespace LightningCash

/-! ## Amounts -/

/-- `MoneyRange(nValue)`. -/
def MoneyRange (nValue : ℤ) : Bool := 0 ≤ nValue && nValue ≤ MAX_MONEY

/-- How a call of the transaction checks ends other than by returning: a rejection through
`state.DoS` or `state.Invalid`, or a fault of the program. -/
inductive TxCheckError where
  /-- The function returns `false` with this reject reason. -/
  | reject (reason : String)
  /-- Signed overflow of a `CAmount` operation. -/
  | overflow
  /-- A failed `assert`. -/
  | assertFail (what : String)
  /-- A thrown `std::runtime_error`. -/
  | runtimeError (what : String)
  deriving DecidableEq, Repr

/-- The result of an `int64_t` operation whose mathematical value is `x`. -/
def int64Result (x : ℤ) : Except TxCheckError ℤ :=
  if -2 ^ 63 ≤ x ∧ x < 2 ^ 63 then pure x else throw .overflow

/-- `a + b` on `CAmount`. -/
def addAmount (a b : ℤ) : Except TxCheckError ℤ := int64Result (a + b)

/-- `a - b` on `CAmount`. -/
def subAmount (a b : ℤ) : Except TxCheckError ℤ := int64Result (a - b)

/-- `nValue += value; if (!MoneyRange(value) || !MoneyRange(nValue)) fail;`, the step of the
value loops of `GetValueOut` and `CheckTxInputs`. -/
def addMoney (nValue value : ℤ) (fail : TxCheckError) : Except TxCheckError ℤ := do
  let nValue ← addAmount nValue value
  if !MoneyRange value || !MoneyRange nValue then throw fail
  pure nValue

theorem moneyRange_iff {v : ℤ} : MoneyRange v = true ↔ 0 ≤ v ∧ v ≤ MAX_MONEY := by
  simp [MoneyRange]

theorem MAX_MONEY_eq : MAX_MONEY = 40000000000000000 := rfl

/-- A value within twice `MAX_MONEY` either way is far inside `int64_t`. -/
theorem int64Result_of_le {x : ℤ} (hlo : -(2 * MAX_MONEY) ≤ x) (hhi : x ≤ 2 * MAX_MONEY) :
    int64Result x = .ok x := by
  rw [MAX_MONEY_eq] at hlo hhi
  have hrange : -2 ^ 63 ≤ x ∧ x < 2 ^ 63 := by omega
  simp only [int64Result, if_pos hrange]
  rfl

theorem addAmount_of_moneyRange {a b : ℤ} (ha : MoneyRange a = true)
    (hb : MoneyRange b = true) : addAmount a b = .ok (a + b) := by
  rw [moneyRange_iff] at ha hb
  exact int64Result_of_le (by omega) (by omega)

/-- From a sum in `MoneyRange`, adding a value in `MoneyRange` cannot overflow: the step fails
exactly when the new sum leaves the range. -/
theorem addMoney_of_moneyRange {nValue value : ℤ} {fail : TxCheckError}
    (hsum : MoneyRange nValue = true) (hvalue : MoneyRange value = true) :
    addMoney nValue value fail =
      if MoneyRange (nValue + value) = true then .ok (nValue + value) else .error fail := by
  simp only [addMoney, addAmount_of_moneyRange hsum hvalue, Except.ok_bind, hvalue,
    Bool.not_true, Bool.false_or]
  by_cases hnew : MoneyRange (nValue + value) = true
  · simp [hnew]
  · simp [hnew]

/-! ## The checks -/

/-- `PROTOCOL_VERSION`. -/
def PROTOCOL_VERSION : UInt32 := 70040

/-- `COINBASE_MATURITY`. -/
def COINBASE_MATURITY : ℤ := 125

/-- The output loop of `CheckTransaction`: each value is checked before it is added. -/
def checkOutputsLoop : ℤ → List CTxOut → Except TxCheckError Unit
  | _, [] => pure ()
  | nValueOut, txout :: rest => do
    if txout.nValue < 0 then throw (.reject "bad-txns-vout-negative")
    if txout.nValue > MAX_MONEY then throw (.reject "bad-txns-vout-toolarge")
    let nValueOut ← addAmount nValueOut txout.nValue
    if !MoneyRange nValueOut then throw (.reject "bad-txns-txouttotal-toolarge")
    checkOutputsLoop nValueOut rest

/-- `CheckTransaction(tx, state, fCheckDuplicateInputs)`. The duplicate check inserts each
prevout into a `std::set` and fails on the first already there: it fails exactly when the
prevouts are not pairwise distinct. -/
def CheckTransaction (tx : CTransaction) (fCheckDuplicateInputs : Bool) :
    Except TxCheckError Unit := do
  if tx.vin.isEmpty then throw (.reject "bad-txns-vin-empty")
  if tx.vout.isEmpty then throw (.reject "bad-txns-vout-empty")
  if GetSerializeSize tx (PROTOCOL_VERSION ||| SERIALIZE_TRANSACTION_NO_WITNESS) *
      WITNESS_SCALE_FACTOR > MAX_BLOCK_WEIGHT then
    throw (.reject "bad-txns-oversize")
  checkOutputsLoop 0 tx.vout
  if fCheckDuplicateInputs ∧ ¬(tx.vin.map (·.prevout)).Nodup then
    throw (.reject "bad-txns-inputs-duplicate")
  if tx.IsCoinBase then
    -- a coinbase has exactly one input
    match tx.vin with
    | txin :: _ =>
      if txin.scriptSig.length < 2 ∨ txin.scriptSig.length > 100 then
        throw (.reject "bad-cb-length")
    | [] => pure ()
  else if tx.vin.any (·.prevout.IsNull) then throw (.reject "bad-txns-prevout-null")

/-- The loop of `GetValueOut`. -/
def getValueOutLoop : ℤ → List CTxOut → Except TxCheckError ℤ
  | nValueOut, [] => pure nValueOut
  | nValueOut, txout :: rest => do
    let nValueOut ← addMoney nValueOut txout.nValue
      (.runtimeError "GetValueOut: value out of range")
    getValueOutLoop nValueOut rest

/-- `CTransaction::GetValueOut()`. -/
def CTransaction.GetValueOut (tx : CTransaction) : Except TxCheckError ℤ :=
  getValueOutLoop 0 tx.vout

/-- `Coin()`, which `AccessCoin` returns for an outpoint it does not find: its output is null,
so it counts as spent. -/
def coinEmpty : Coin := ⟨⟨-1, []⟩, false, 0⟩

/-- A coins view as `CheckTxInputs` reads it: the coin `FetchCoin` finds for an outpoint, in the
cache or in a view below it. -/
structure CCoinsViewCache where
  FetchCoin : COutPoint → Option Coin

namespace CCoinsViewCache

/-- `AccessCoin(outpoint)`. -/
def AccessCoin (inputs : CCoinsViewCache) (outpoint : COutPoint) : Coin :=
  (inputs.FetchCoin outpoint).getD coinEmpty

/-- `HaveCoin(outpoint)`: found and not spent. -/
def HaveCoin (inputs : CCoinsViewCache) (outpoint : COutPoint) : Bool :=
  match inputs.FetchCoin outpoint with
  | some coin => !coin.IsSpent
  | none => false

/-- `HaveInputs(tx)`: a coinbase passes without a look at its input. -/
def HaveInputs (inputs : CCoinsViewCache) (tx : CTransaction) : Bool :=
  tx.IsCoinBase || tx.vin.all fun txin ↦ inputs.HaveCoin txin.prevout

end CCoinsViewCache

/-- The input loop of `CheckTxInputs`. -/
def checkInputsLoop (inputs : CCoinsViewCache) (nSpendHeight : ℤ) :
    ℤ → List CTxIn → Except TxCheckError ℤ
  | nValueIn, [] => pure nValueIn
  | nValueIn, txin :: rest => do
    let coin := inputs.AccessCoin txin.prevout
    if coin.IsSpent then throw (.assertFail "!coin.IsSpent()")
    if coin.fCoinBase ∧ nSpendHeight - coin.nHeight < COINBASE_MATURITY then
      throw (.reject "bad-txns-premature-spend-of-coinbase")
    let nValueIn ← addMoney nValueIn coin.out.nValue (.reject "bad-txns-inputvalues-outofrange")
    checkInputsLoop inputs nSpendHeight nValueIn rest

/-- `Consensus::CheckTxInputs(tx, state, inputs, nSpendHeight, txfee)`, returning the fee it
writes to `txfee` on success. -/
def CheckTxInputs (tx : CTransaction) (inputs : CCoinsViewCache) (nSpendHeight : ℤ) :
    Except TxCheckError ℤ := do
  if !inputs.HaveInputs tx then throw (.reject "bad-txns-inputs-missingorspent")
  let nValueIn ← checkInputsLoop inputs nSpendHeight 0 tx.vin
  let value_out ← tx.GetValueOut
  if nValueIn < value_out then throw (.reject "bad-txns-in-belowout")
  let txfee_aux ← subAmount nValueIn value_out
  if !MoneyRange txfee_aux then throw (.reject "bad-txns-fee-outofrange")
  pure txfee_aux

/-! ## The output values -/

/-- One output of `CheckTransaction`'s loop: the value is in `MoneyRange`, so is the new sum, and
the loop goes on from it. -/
theorem checkOutputsLoop_cons_eq_ok {nValueOut : ℤ} {txout : CTxOut} {rest : List CTxOut}
    (hsum : MoneyRange nValueOut = true)
    (h : checkOutputsLoop nValueOut (txout :: rest) = .ok ()) :
    MoneyRange txout.nValue = true ∧ MoneyRange (nValueOut + txout.nValue) = true ∧
      checkOutputsLoop (nValueOut + txout.nValue) rest = .ok () := by
  simp only [checkOutputsLoop] at h
  by_cases hneg : txout.nValue < 0
  · simp [hneg] at h
  by_cases hbig : txout.nValue > MAX_MONEY
  · simp [hneg, hbig] at h
  have hvalue : MoneyRange txout.nValue = true := by
    rw [moneyRange_iff]
    omega
  rw [if_neg hneg, if_neg hbig, addAmount_of_moneyRange hsum hvalue, Except.ok_bind] at h
  by_cases hnew : MoneyRange (nValueOut + txout.nValue) = true
  · simp only [hnew, Bool.not_true, Bool.false_eq_true, if_false] at h
    exact ⟨hvalue, hnew, h⟩
  · simp [hnew] at h

/-- A run of `CheckTransaction`'s loop that passes has every value and every partial sum in
`MoneyRange`. -/
theorem checkOutputsLoop_eq_ok {outs : List CTxOut} :
    ∀ {nValueOut : ℤ}, MoneyRange nValueOut = true → checkOutputsLoop nValueOut outs = .ok () →
      (∀ txout ∈ outs, MoneyRange txout.nValue = true) ∧
        ∀ k, MoneyRange (nValueOut + ((outs.map (·.nValue)).take k).sum) = true := by
  induction outs with
  | nil =>
    intro nValueOut hsum _
    exact ⟨fun _ hmem ↦ absurd hmem List.not_mem_nil, fun k ↦ by simpa using hsum⟩
  | cons txout rest ih =>
    intro nValueOut hsum h
    obtain ⟨hvalue, hnew, hrest⟩ := checkOutputsLoop_cons_eq_ok hsum h
    obtain ⟨hvalues, hpartial⟩ := ih hnew hrest
    refine ⟨?_, ?_⟩
    · intro out hout
      rcases List.mem_cons.1 hout with rfl | hmem
      · exact hvalue
      · exact hvalues out hmem
    · intro k
      cases k with
      | zero => simpa using hsum
      | succ k => simpa [add_assoc] using hpartial k

/-- `GetValueOut`'s loop over values in `MoneyRange` whose partial sums stay in it returns the
sum without throwing. -/
theorem getValueOutLoop_eq_ok {outs : List CTxOut} :
    ∀ {nValueOut : ℤ}, (∀ txout ∈ outs, MoneyRange txout.nValue = true) →
      (∀ k, MoneyRange (nValueOut + ((outs.map (·.nValue)).take k).sum) = true) →
      getValueOutLoop nValueOut outs = .ok (nValueOut + (outs.map (·.nValue)).sum) := by
  induction outs with
  | nil =>
    intro nValueOut _ _
    simp [getValueOutLoop]
  | cons txout rest ih =>
    intro nValueOut hvalues hpartial
    have hsum : MoneyRange nValueOut = true := by simpa using hpartial 0
    have hnew : MoneyRange (nValueOut + txout.nValue) = true := by simpa using hpartial 1
    have hrest : ∀ k, MoneyRange (nValueOut + txout.nValue +
        ((rest.map (·.nValue)).take k).sum) = true := by
      intro k
      simpa [add_assoc] using hpartial (k + 1)
    rw [getValueOutLoop, addMoney_of_moneyRange hsum (hvalues txout List.mem_cons_self),
      if_pos hnew, Except.ok_bind,
      ih (fun out hout ↦ hvalues out (List.mem_cons_of_mem _ hout)) hrest]
    simp [add_assoc]

/-- A transaction that passes `CheckTransaction` passed its output loop. -/
theorem checkOutputsLoop_of_CheckTransaction {tx : CTransaction} {fCheckDuplicateInputs : Bool}
    (h : CheckTransaction tx fCheckDuplicateInputs = .ok ()) : checkOutputsLoop 0 tx.vout = .ok () := by
  unfold CheckTransaction at h
  simp only [Except.throw_eq_error, Except.error_bind] at h
  -- the checks before the loop have passed; those after it do not matter
  split_ifs at h
  all_goals
    obtain ⟨⟨⟩, hloop, -⟩ := Except.bind_eq_ok.1 h
    exact hloop

/-! ## The input values -/

/-- The values of the coins that `inputs` spend, in input order. -/
def spentValues (view : CCoinsViewCache) (inputs : List CTxIn) : List ℤ :=
  inputs.map fun txin ↦ (view.AccessCoin txin.prevout).out.nValue

/-- Every unspent coin the view finds has a value in `MoneyRange`, as every output of a
transaction that passed `CheckTransaction` has. -/
def CCoinsViewCache.ValuesInRange (view : CCoinsViewCache) : Prop :=
  ∀ outpoint coin, view.FetchCoin outpoint = some coin → coin.IsSpent = false →
    MoneyRange coin.out.nValue = true

/-- An unspent coin that `AccessCoin` returns was found, so its value is in range. -/
theorem moneyRange_AccessCoin {view : CCoinsViewCache} {outpoint : COutPoint}
    (hview : view.ValuesInRange) (hspent : (view.AccessCoin outpoint).IsSpent = false) :
    MoneyRange (view.AccessCoin outpoint).out.nValue = true := by
  unfold CCoinsViewCache.AccessCoin at hspent ⊢
  cases hfetch : view.FetchCoin outpoint with
  | none =>
    rw [hfetch] at hspent
    exact absurd hspent (by decide)
  | some coin =>
    rw [hfetch] at hspent
    exact hview outpoint coin hfetch hspent

section Inputs

variable {view : CCoinsViewCache} {nSpendHeight : ℤ}

/-- One input of `CheckTxInputs`'s loop, from a sum in range: either the loop stops with a
rejection or the failed `assert`, or the new sum is in range and the loop goes on from it. -/
theorem checkInputsLoop_cons (hview : view.ValuesInRange) {nValueIn : ℤ} {txin : CTxIn}
    {rest : List CTxIn} (hsum : MoneyRange nValueIn = true) :
    (∃ e, e ≠ .overflow ∧ checkInputsLoop view nSpendHeight nValueIn (txin :: rest) = .error e) ∨
      MoneyRange (nValueIn + (view.AccessCoin txin.prevout).out.nValue) = true ∧
        checkInputsLoop view nSpendHeight nValueIn (txin :: rest) =
          checkInputsLoop view nSpendHeight
            (nValueIn + (view.AccessCoin txin.prevout).out.nValue) rest := by
  simp only [checkInputsLoop, Except.throw_eq_error, Except.error_bind]
  by_cases hspent : (view.AccessCoin txin.prevout).IsSpent = true
  · -- the `assert` fails
    rw [if_pos hspent]
    exact Or.inl ⟨_, by decide, rfl⟩
  rw [if_neg hspent]
  by_cases hmature : (view.AccessCoin txin.prevout).fCoinBase = true ∧
      nSpendHeight - (view.AccessCoin txin.prevout).nHeight < COINBASE_MATURITY
  · rw [if_pos hmature]
    exact Or.inl ⟨_, by decide, rfl⟩
  rw [if_neg hmature]
  have hvalue := moneyRange_AccessCoin hview (eq_false_of_ne_true hspent)
  rw [addMoney_of_moneyRange hsum hvalue]
  by_cases hnew : MoneyRange (nValueIn + (view.AccessCoin txin.prevout).out.nValue) = true
  · rw [if_pos hnew, Except.ok_bind]
    exact Or.inr ⟨hnew, rfl⟩
  · rw [if_neg hnew, Except.error_bind]
    exact Or.inl ⟨_, by decide, rfl⟩

/-- A run of `CheckTxInputs`'s loop from a sum in range never overflows; when it passes, it
returns the sum of the spent values and every partial sum stayed in range. -/
theorem checkInputsLoop_spec (hview : view.ValuesInRange) {inputs : List CTxIn} :
    ∀ {nValueIn : ℤ}, MoneyRange nValueIn = true →
      checkInputsLoop view nSpendHeight nValueIn inputs ≠ .error .overflow ∧
        ∀ r, checkInputsLoop view nSpendHeight nValueIn inputs = .ok r →
          r = nValueIn + (spentValues view inputs).sum ∧
            ∀ k, MoneyRange (nValueIn + ((spentValues view inputs).take k).sum) = true := by
  induction inputs with
  | nil =>
    intro nValueIn hsum
    refine ⟨by simp [checkInputsLoop], fun r hr ↦ ?_⟩
    simp only [checkInputsLoop, Except.pure_eq_ok, Except.ok.injEq] at hr
    subst hr
    exact ⟨by simp [spentValues], fun k ↦ by simpa [spentValues] using hsum⟩
  | cons txin rest ih =>
    intro nValueIn hsum
    rcases @checkInputsLoop_cons view nSpendHeight hview nValueIn txin rest hsum with
      ⟨e, hne, herr⟩ | ⟨hnew, hstep⟩
    · -- the loop stops here, with something other than an overflow
      rw [herr]
      exact ⟨fun h ↦ hne (Except.error.inj h), fun r hr ↦ by cases hr⟩
    · -- the loop goes on from the new sum, which the induction covers
      rw [hstep]
      obtain ⟨hno, hok⟩ := ih hnew
      refine ⟨hno, fun r hr ↦ ?_⟩
      obtain ⟨hr, hpartial⟩ := hok r hr
      refine ⟨by simp [spentValues, hr, add_assoc], fun k ↦ ?_⟩
      cases k with
      | zero => simpa using hsum
      | succ k => simpa [spentValues, add_assoc] using hpartial k

/-- How `CheckTxInputs` ends once `GetValueOut` returns a value in range: with something other
than an overflow, or with the fee `nValueIn - value_out` of a passed input loop, in range. -/
theorem CheckTxInputs_cases (hview : view.ValuesInRange) {tx : CTransaction} {valueOut : ℤ}
    (hout : tx.GetValueOut = .ok valueOut) (houtRange : MoneyRange valueOut = true) :
    (∃ e, e ≠ .overflow ∧ CheckTxInputs tx view nSpendHeight = .error e) ∨
      ∃ nValueIn, checkInputsLoop view nSpendHeight 0 tx.vin = .ok nValueIn ∧
        valueOut ≤ nValueIn ∧ MoneyRange (nValueIn - valueOut) = true ∧
        CheckTxInputs tx view nSpendHeight = .ok (nValueIn - valueOut) := by
  unfold CheckTxInputs
  simp only [Except.throw_eq_error, Except.error_bind]
  by_cases hhave : view.HaveInputs tx = true
  swap
  · simp only [hhave, Bool.not_false, if_true]
    exact Or.inl ⟨_, by decide, rfl⟩
  simp only [hhave, Bool.not_true, Bool.false_eq_true, if_false]
  obtain ⟨hno, hok⟩ := @checkInputsLoop_spec view nSpendHeight hview tx.vin 0 (by decide)
  cases hloop : checkInputsLoop view nSpendHeight 0 tx.vin with
  | error e =>
    refine Or.inl ⟨e, fun he ↦ hno (by rw [hloop, he]), rfl⟩
  | ok nValueIn =>
    -- the loop's sum is the whole sum, in range
    obtain ⟨hval, hpartial⟩ := hok nValueIn hloop
    have hin : MoneyRange nValueIn = true := by
      have hall := hpartial tx.vin.length
      rw [List.take_of_length_le (by simp [spentValues]), ← hval] at hall
      exact hall
    rw [Except.ok_bind, hout, Except.ok_bind]
    by_cases hlt : nValueIn < valueOut
    · rw [if_pos hlt]
      exact Or.inl ⟨_, by decide, rfl⟩
    rw [if_neg hlt]
    -- the difference of two values in range is no overflow, and it is not negative
    have hfee : MoneyRange (nValueIn - valueOut) = true := by
      rw [moneyRange_iff] at hin houtRange ⊢
      omega
    have hsub : subAmount nValueIn valueOut = .ok (nValueIn - valueOut) := by
      rw [moneyRange_iff] at hfee
      exact int64Result_of_le (by omega) (by omega)
    rw [hsub, Except.ok_bind, hfee]
    exact Or.inr ⟨nValueIn, rfl, not_lt.1 hlt, hfee, rfl⟩

end Inputs

/-! ## The value arithmetic of a checked transaction -/

theorem CheckTxInputs_value_in_range {tx : CTransaction} {fCheckDuplicateInputs : Bool}
    {view : CCoinsViewCache} {nSpendHeight : ℤ}
    (htx : CheckTransaction tx fCheckDuplicateInputs = .ok ()) (hview : view.ValuesInRange) :
    CheckTxInputs tx view nSpendHeight ≠ .error .overflow ∧
      tx.GetValueOut = .ok (tx.vout.map (·.nValue)).sum ∧
      ∀ txfee, CheckTxInputs tx view nSpendHeight = .ok txfee →
        txfee = (spentValues view tx.vin).sum - (tx.vout.map (·.nValue)).sum ∧
          0 ≤ txfee ∧ txfee ≤ MAX_MONEY ∧
          ∀ k, 0 ≤ ((spentValues view tx.vin).take k).sum ∧
            ((spentValues view tx.vin).take k).sum ≤ MAX_MONEY := by
  -- the outputs: `CheckTransaction` kept every value and partial sum in range
  obtain ⟨hvalues, hpartial⟩ :=
    checkOutputsLoop_eq_ok (by decide) (checkOutputsLoop_of_CheckTransaction htx)
  have hout : tx.GetValueOut = .ok (tx.vout.map (·.nValue)).sum := by
    rw [CTransaction.GetValueOut, getValueOutLoop_eq_ok hvalues hpartial, zero_add]
  have houtRange : MoneyRange (tx.vout.map (·.nValue)).sum = true := by
    have hall := hpartial tx.vout.length
    rwa [List.take_of_length_le (by simp), zero_add] at hall
  refine ⟨?_, hout, ?_⟩
  · rcases CheckTxInputs_cases hview hout houtRange with
      ⟨e, hne, herr⟩ | ⟨nValueIn, -, -, -, hok⟩
    · rw [herr]
      exact fun h ↦ hne (Except.error.inj h)
    · rw [hok]
      exact fun h ↦ by cases h
  · intro txfee hfee
    rcases CheckTxInputs_cases hview hout houtRange with
      ⟨e, -, herr⟩ | ⟨nValueIn, hloop, -, hrange, hok⟩
    · rw [herr] at hfee
      cases hfee
    · rw [hok] at hfee
      obtain rfl := Except.ok.inj hfee
      -- the input sum and its prefixes, from the loop's invariant
      obtain ⟨hval, hpartialIn⟩ := (checkInputsLoop_spec hview (by decide)).2 nValueIn hloop
      rw [moneyRange_iff] at hrange
      refine ⟨by rw [hval, zero_add], hrange.1, hrange.2, fun k ↦ ?_⟩
      have hprefix := hpartialIn k
      rwa [zero_add, moneyRange_iff] at hprefix

/-- The outpoint `n` of a transaction whose hash is all ones. -/
def sampleOutPoint (n : UInt32) : COutPoint := ⟨⟨List.replicate 32 1, by simp⟩, n⟩

/-- A transaction spending the outpoints `0` and `1` into one output worth `value`. -/
def sampleSpend (value : ℤ) : CTransaction :=
  ⟨2, [⟨sampleOutPoint 0, [], 0xffffffff, []⟩, ⟨sampleOutPoint 1, [], 0xffffffff, []⟩],
    [⟨value, []⟩], 0⟩

/-- A view holding the two coins `sampleSpend` spends, worth `a` and `b`. -/
def sampleView (a b : ℤ) : CCoinsViewCache :=
  ⟨fun outpoint ↦
    if outpoint = sampleOutPoint 0 then some ⟨⟨a, []⟩, false, 1⟩
    else if outpoint = sampleOutPoint 1 then some ⟨⟨b, []⟩, false, 1⟩ else none⟩

theorem CheckTxInputs_value_in_range_on_sample :
    CheckTransaction (sampleSpend 3) true = .ok () ∧ (sampleView 1 5).ValuesInRange ∧
      CheckTxInputs (sampleSpend 3) (sampleView 1 5) 200 ≠ .error .overflow := by
  have htx : CheckTransaction (sampleSpend 3) true = .ok () := by rfl
  have hview : (sampleView 1 5).ValuesInRange := by
    intro outpoint coin hfetch _
    simp only [sampleView] at hfetch
    split_ifs at hfetch <;> cases hfetch <;> rfl
  exact ⟨htx, hview, (CheckTxInputs_value_in_range htx hview).1⟩

/-- A coin worth `2 ^ 63 - 1` after a coin worth one: the running sum of the inputs overflows
before its range is checked. -/
theorem CheckTxInputs_overflows_on_huge_coin :
    CheckTransaction (sampleSpend 0) true = .ok () ∧
      CheckTxInputs (sampleSpend 0) (sampleView 1 (2 ^ 63 - 1)) 200 = .error .overflow := by
  constructor <;> rfl

end LightningCash
