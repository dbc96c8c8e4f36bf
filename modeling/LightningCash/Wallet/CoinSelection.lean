import LightningCash.Lib.Selection
import LightningCash.Primitives.Transaction

/-!
# Coin selection: `ApproximateBestSubset` and `CWallet::SelectCoinsMinConf`

`SelectCoinsMinConf` scans the wallet's outputs in a random order. An output that fails one of
three tests (spendable, deep enough, within the mempool's ancestor limit) is skipped; a coin of
exactly the target value is returned at once; a coin below the target plus `MIN_CHANGE` joins
`vValue`; of the others the smallest is kept as `coinLowestLarger`. After the scan it returns all
of `vValue` when they sum to the target, `coinLowestLarger` when they sum to less, and otherwise
the better of `coinLowestLarger` and a subset of `vValue` found by `ApproximateBestSubset`, a
randomised search that starts from the whole of `vValue` and only ever replaces its best subset
by one of smaller total that still reaches the target.

The random choices are parameters: `shuffle` is the order `std::shuffle` leaves `vCoins` in, and
`randbool c nRep i` the coin flip of the `c`-th `ApproximateBestSubset` call at repetition
`nRep` and index `i`. A theorem that holds for every value of these holds for every outcome of
the random number generators.

Amounts are `int64_t`: signed overflow is undefined behaviour, which the model makes `none`
(`int64`). The target plus `MIN_CHANGE` overflows for targets near `2 ^ 63`, and the total of
the coins below it overflows when they are large enough; below both bounds the selection never
under-funds (`SelectCoinsMinConf_funds`).

`setCoinsRet` is a list in which `insertCoin` adds a coin only if no coin of the same outpoint is
there, as `std::set<CInputCoin>` compares coins by outpoint alone.
-/

namespace LightningCash

open Selection

/-- `CENT`: `1000000 / COIN_SCALE`, with `COIN_SCALE = 1`. -/
def CENT : ℤ := 1000000

/-- `MIN_CHANGE`. -/
def MIN_CHANGE : ℤ := CENT

/-- The value of an `int64_t` expression whose mathematical value is `x`: signed overflow is
undefined behaviour. -/
def int64 (x : ℤ) : Option ℤ := if -2 ^ 63 ≤ x ∧ x < 2 ^ 63 then some x else none

/-- `CInputCoin`: the outpoint a coin spends and the value of that output, the one field of its
`txout` that coin selection reads. -/
structure CInputCoin where
  outpoint : COutPoint
  nValue : ℤ
  deriving DecidableEq

/-- `COutput`, with what `SelectCoinsMinConf` reads of it and of its wallet transaction `tx`:
the transaction's hash, `tx->IsFromMe(ISMINE_ALL)`, and the value of its output `i`. -/
structure COutput where
  hash : Uint256
  fromMe : Bool
  i : UInt32
  nValue : ℤ
  nDepth : ℤ
  fSpendable : Bool
  deriving DecidableEq

/-- `CInputCoin(output.tx, output.i)`. -/
def COutput.coin (output : COutput) : CInputCoin := ⟨⟨output.hash, output.i⟩, output.nValue⟩

/-- The total value of a list of coins. -/
def totalValue (coins : List CInputCoin) : ℤ := (coins.map (·.nValue)).sum

/-- `setCoinsRet.insert(coin)`: the set holds one coin per outpoint. -/
def insertCoin (coin : CInputCoin) (setCoinsRet : List CInputCoin) : List CInputCoin :=
  if setCoinsRet.any (·.outpoint == coin.outpoint) then setCoinsRet else setCoinsRet ++ [coin]

/-- `setCoinsRet.insert(coin); nValueRet += coin.txout.nValue;` for each coin in turn. -/
def insertCoins : List CInputCoin → List CInputCoin × ℤ → Option (List CInputCoin × ℤ)
  | [], acc => pure acc
  | coin :: coins, (setCoinsRet, nValueRet) => do
    let nValueRet ← int64 (nValueRet + coin.nValue)
    insertCoins coins (insertCoin coin setCoinsRet, nValueRet)

/-! ## `ApproximateBestSubset` -/

/-- The variables of `ApproximateBestSubset`: the flags and total of the repetition under way,
whether it has reached the target, and the best subset found so far with its total. -/
structure SubsetSearch where
  vfIncluded : List Bool
  nTotal : ℤ
  fReachedTarget : Bool
  vfBest : List Bool
  nBest : ℤ

/-- The body of the inner loop at coin `i`, of value `nValue`, once its test has passed: add the
coin; on reaching the target, keep the subset if it beats the best so far, and take the coin out
again. -/
def includeStep (nTargetValue : ℤ) (i : ℕ) (nValue : ℤ) (s : SubsetSearch) :
    Option SubsetSearch := do
  let nTotal ← int64 (s.nTotal + nValue)
  let vfIncluded := s.vfIncluded.set i true
  if nTargetValue ≤ nTotal then
    let best := if nTotal < s.nBest then (vfIncluded, nTotal) else (s.vfBest, s.nBest)
    let nTotal ← int64 (nTotal - nValue)
    pure ⟨vfIncluded.set i false, nTotal, true, best.1, best.2⟩
  else
    pure { s with vfIncluded, nTotal }

/-- The test of the inner loop: a coin flip in the first pass, "not yet included" in the
second. -/
def fInclude (randbool : ℕ → Bool) (nPass i : ℕ) (s : SubsetSearch) : Bool :=
  if nPass = 0 then randbool i else !s.vfIncluded.getD i false

/-- The inner loop's body for the coin `coin.1` at index `coin.2`. -/
def passStep (nTargetValue : ℤ) (randbool : ℕ → Bool) (nPass : ℕ) (s : SubsetSearch)
    (coin : CInputCoin × ℕ) : Option SubsetSearch :=
  if fInclude randbool nPass coin.2 s then includeStep nTargetValue coin.2 coin.1.nValue s
  else pure s

/-- `for (unsigned int i = 0; i < vValue.size(); i++)` in pass `nPass`. -/
def subsetPass (vValue : List CInputCoin) (nTargetValue : ℤ) (randbool : ℕ → Bool)
    (nPass : ℕ) (s : SubsetSearch) : Option SubsetSearch :=
  vValue.zipIdx.foldlM (passStep nTargetValue randbool nPass) s

/-- One repetition: clear the flags and the total, run the first pass, and the second if the
first did not reach the target. -/
def subsetRep (vValue : List CInputCoin) (nTargetValue : ℤ) (randbool : ℕ → Bool)
    (s : SubsetSearch) : Option SubsetSearch := do
  let s ← subsetPass vValue nTargetValue randbool 0
    { s with vfIncluded := List.replicate vValue.length false, nTotal := 0,
             fReachedTarget := false }
  if s.fReachedTarget then pure s else subsetPass vValue nTargetValue randbool 1 s

/-- `for (int nRep = 0; nRep < iterations && nBest != nTargetValue; nRep++)`, counting the
repetitions that are left. -/
def subsetLoop (vValue : List CInputCoin) (nTargetValue : ℤ) (randbool : ℕ → ℕ → Bool) :
    ℕ → ℕ → SubsetSearch → Option SubsetSearch
  | _, 0, s => pure s
  | nRep, left + 1, s =>
    if s.nBest ≠ nTargetValue then do
      let s ← subsetRep vValue nTargetValue (randbool nRep) s
      subsetLoop vValue nTargetValue randbool (nRep + 1) left s
    else pure s

/-- `ApproximateBestSubset(vValue, nTotalLower, nTargetValue, vfBest, nBest, iterations)`, with
the coin flips of its `FastRandomContext` by repetition and index. -/
def ApproximateBestSubset (vValue : List CInputCoin) (nTotalLower nTargetValue : ℤ)
    (randbool : ℕ → ℕ → Bool) (iterations : ℕ) : Option (List Bool × ℤ) := do
  let s ← subsetLoop vValue nTargetValue randbool 0 iterations
    ⟨[], 0, false, List.replicate vValue.length true, nTotalLower⟩
  pure (s.vfBest, s.nBest)

/-! ## `SelectCoinsMinConf` -/

/-- What the loop over `vCoins` keeps: the smallest coin of at least the target plus
`MIN_CHANGE`, the coins below that, and their total. -/
structure CoinScan where
  coinLowestLarger : Option CInputCoin
  vValue : List CInputCoin
  nTotalLower : ℤ

/-- How the loop over `vCoins` ends: at a coin of exactly the target value, which is returned at
once, or at the end of the list. -/
inductive ScanEnd where
  | exact (coin : CInputCoin)
  | done (scan : CoinScan)

/-- The body of the loop over `vCoins` for a coin that passed the three tests; `.done` carries
the state the loop goes on with. -/
def scanStep (nTargetValue : ℤ) (coin : CInputCoin) (s : CoinScan) : Option ScanEnd :=
  if coin.nValue = nTargetValue then pure (.exact coin)
  else do
    let nTargetChange ← int64 (nTargetValue + MIN_CHANGE)
    if coin.nValue < nTargetChange then
      let nTotalLower ← int64 (s.nTotalLower + coin.nValue)
      pure (.done { s with vValue := s.vValue ++ [coin], nTotalLower })
    else if s.coinLowestLarger.all (coin.nValue < ·.nValue) then
      pure (.done { s with coinLowestLarger := some coin })
    else pure (.done s)

section Scan

variable (nTargetValue nConfMine nConfTheirs : ℤ) (nMaxAncestors : ℕ)
  (TransactionWithinChainLimit : Uint256 → ℕ → Bool)

/-- The loop over `vCoins` and its three `continue`s. -/
def scanCoins : List COutput → CoinScan → Option ScanEnd
  | [], s => pure (.done s)
  | output :: vCoins, s =>
    if !output.fSpendable then scanCoins vCoins s
    else if output.nDepth < (if output.fromMe then nConfMine else nConfTheirs) then
      scanCoins vCoins s
    else if !TransactionWithinChainLimit output.hash nMaxAncestors then scanCoins vCoins s
    else do
      match ← scanStep nTargetValue output.coin s with
      | .exact coin => pure (.exact coin)
      | .done s => scanCoins vCoins s

/-- An output that passes the three tests at the head of the loop. -/
def eligible (output : COutput) : Bool :=
  output.fSpendable &&
    !decide (output.nDepth < if output.fromMe then nConfMine else nConfTheirs) &&
    TransactionWithinChainLimit output.hash nMaxAncestors

/-- The coins of the outputs that pass the three tests. -/
def eligibleCoins (vCoins : List COutput) : List CInputCoin :=
  (vCoins.filter (eligible nConfMine nConfTheirs nMaxAncestors TransactionWithinChainLimit)).map
    COutput.coin

end Scan

/-- `std::sort(vValue, CompareValueOnly())` then `std::reverse`: largest value first. -/
def sortDescending (vValue : List CInputCoin) : List CInputCoin :=
  (vValue.mergeSort fun a b ↦ decide (a.nValue ≤ b.nValue)).reverse

/-- The second `ApproximateBestSubset`, aiming at the target plus `MIN_CHANGE`, run when the
first found no subset of exactly the target and the coins below reach that. -/
def secondSearch (vValue : List CInputCoin) (nTotalLower nTargetValue : ℤ)
    (randbool : ℕ → ℕ → Bool) (first : List Bool × ℤ) : Option (List Bool × ℤ) :=
  if first.2 ≠ nTargetValue then do
    let nTargetChange ← int64 (nTargetValue + MIN_CHANGE)
    if nTargetChange ≤ nTotalLower then
      ApproximateBestSubset vValue nTotalLower nTargetChange randbool 1000
    else pure first
  else pure first

/-- `(nBest != nTargetValue && nBest < nTargetValue + MIN_CHANGE) ||
coinLowestLarger->txout.nValue <= nBest`, evaluated left to right. -/
def prefersLowestLarger (nTargetValue nBest : ℤ) (coin : CInputCoin) : Option Bool :=
  if nBest ≠ nTargetValue then do
    let nTargetChange ← int64 (nTargetValue + MIN_CHANGE)
    pure (decide (nBest < nTargetChange) || decide (coin.nValue ≤ nBest))
  else pure (decide (coin.nValue ≤ nBest))

/-- The last choice: `coinLowestLarger` alone, or the coins of the best subset. -/
def selectFromBest (vValue : List CInputCoin) (coinLowestLarger : Option CInputCoin)
    (nTargetValue : ℤ) (best : List Bool × ℤ) : Option (List CInputCoin × ℤ) :=
  match coinLowestLarger with
  | some coin => do
    if ← prefersLowestLarger nTargetValue best.2 coin then insertCoins [coin] ([], 0)
    else insertCoins (chosen vValue best.1) ([], 0)
  | none => insertCoins (chosen vValue best.1) ([], 0)

/-- Everything after the loop over `vCoins`. -/
def selectFromScan (nTargetValue : ℤ) (randbool : ℕ → ℕ → ℕ → Bool) (s : CoinScan) :
    Option (Bool × List CInputCoin × ℤ) :=
  if s.nTotalLower = nTargetValue then do
    let ret ← insertCoins s.vValue ([], 0)
    pure (true, ret)
  else if s.nTotalLower < nTargetValue then
    match s.coinLowestLarger with
    | none => pure (false, [], 0)
    | some coin => do
      let ret ← insertCoins [coin] ([], 0)
      pure (true, ret)
  else do
    let vValue := sortDescending s.vValue
    let first ← ApproximateBestSubset vValue s.nTotalLower nTargetValue (randbool 0) 1000
    let best ← secondSearch vValue s.nTotalLower nTargetValue (randbool 1) first
    let ret ← selectFromBest vValue s.coinLowestLarger nTargetValue best
    pure (true, ret)

/-- `CWallet::SelectCoinsMinConf`: the returned flag, `setCoinsRet` and `nValueRet`. -/
def SelectCoinsMinConf (nTargetValue nConfMine nConfTheirs : ℤ) (nMaxAncestors : ℕ)
    (TransactionWithinChainLimit : Uint256 → ℕ → Bool) (vCoins : List COutput)
    (shuffle : List COutput → List COutput) (randbool : ℕ → ℕ → ℕ → Bool) :
    Option (Bool × List CInputCoin × ℤ) := do
  match ← scanCoins nTargetValue nConfMine nConfTheirs nMaxAncestors TransactionWithinChainLimit
      (shuffle vCoins) ⟨none, [], 0⟩ with
  | .exact coin => do
    let ret ← insertCoins [coin] ([], 0)
    pure (true, ret)
  | .done s => selectFromScan nTargetValue randbool s

/-! ## Amounts and the returned set -/

theorem int64_of_nonneg {x : ℤ} (h0 : 0 ≤ x) (h : x < 2 ^ 63) : int64 x = some x := by
  rw [int64, if_pos ⟨by omega, h⟩]

@[simp] theorem totalValue_nil : totalValue [] = 0 := rfl

@[simp] theorem totalValue_cons (c : CInputCoin) (cs : List CInputCoin) :
    totalValue (c :: cs) = c.nValue + totalValue cs := by
  simp [totalValue]

@[simp] theorem totalValue_append (cs ds : List CInputCoin) :
    totalValue (cs ++ ds) = totalValue cs + totalValue ds := by
  simp [totalValue]

theorem totalValue_perm {cs ds : List CInputCoin} (h : cs.Perm ds) :
    totalValue cs = totalValue ds :=
  (h.map _).sum_eq

theorem totalValue_le_of_sublist {cs ds : List CInputCoin} (h : cs.Sublist ds)
    (hpos : ∀ c ∈ ds, 0 ≤ c.nValue) : totalValue cs ≤ totalValue ds :=
  (h.map _).sum_le_sum (by simpa using hpos)

theorem totalValue_nonneg {cs : List CInputCoin} (hpos : ∀ c ∈ cs, 0 ≤ c.nValue) :
    0 ≤ totalValue cs := by
  simpa using totalValue_le_of_sublist (List.nil_sublist cs) hpos

theorem le_totalValue_of_mem {c : CInputCoin} {cs : List CInputCoin} (hc : c ∈ cs)
    (hpos : ∀ c ∈ cs, 0 ≤ c.nValue) : c.nValue ≤ totalValue cs := by
  simpa using totalValue_le_of_sublist (List.singleton_sublist.mpr hc) hpos

/-- Coins of distinct outpoints, none of them in the set yet, are all added, with their values,
as long as the running total stays an `int64_t`. -/
theorem insertCoins_eq {coins setCoinsRet : List CInputCoin} {nValueRet : ℤ}
    (hnodup : (coins.map (·.outpoint)).Nodup)
    (hfresh : ∀ c ∈ coins, ∀ d ∈ setCoinsRet, d.outpoint ≠ c.outpoint)
    (hpos : ∀ c ∈ coins, 0 ≤ c.nValue) (h0 : 0 ≤ nValueRet)
    (hmax : nValueRet + totalValue coins < 2 ^ 63) :
    insertCoins coins (setCoinsRet, nValueRet) =
      some (setCoinsRet ++ coins, nValueRet + totalValue coins) := by
  induction coins generalizing setCoinsRet nValueRet with
  | nil => simp [insertCoins]
  | cons c coins ih =>
    rw [List.map_cons, List.nodup_cons] at hnodup
    have hc : 0 ≤ c.nValue := hpos c (by simp)
    have hrest : 0 ≤ totalValue coins := totalValue_nonneg fun d hd ↦ hpos d (by simp [hd])
    rw [totalValue_cons] at hmax
    have hins : insertCoin c setCoinsRet = setCoinsRet ++ [c] := by
      rw [insertCoin, if_neg]
      simpa using fun d hd ↦ hfresh c (by simp) d hd
    have htail := @ih (setCoinsRet ++ [c]) (nValueRet + c.nValue) hnodup.2
      (fun e he d hd ↦ by
        rcases List.mem_append.mp hd with hd | hd
        · exact hfresh e (by simp [he]) d hd
        · rw [List.mem_singleton.mp hd]
          exact fun h ↦ hnodup.1 (List.mem_map.mpr ⟨e, he, h.symm⟩))
      (fun d hd ↦ hpos d (by simp [hd])) (by omega) (by omega)
    simp only [insertCoins, int64_of_nonneg (by omega : 0 ≤ nValueRet + c.nValue) (by omega),
      Option.bind_eq_bind, Option.bind_some, hins, htail]
    simp [add_assoc]

/-! ## `ApproximateBestSubset` never loses the target

The search starts from the whole of `vValue` and replaces its best subset only by the subset
under way at a moment when its total reaches the target. So the invariant is that the best
flags choose coins whose total is `nBest` and `nBest` reaches the target; and, for the step
that copies the subset under way, that the flags under way choose coins of total `nTotal`.
That in turn needs the flag of the coin being added to be clear: in the second pass that is
the test itself, in the first it holds because the pass has not reached that coin yet. -/

section Search

variable {vValue : List CInputCoin} {nTargetValue : ℤ}

/-- The best subset so far: one flag per coin, the chosen coins of total `nBest`, and `nBest`
at least the target. -/
structure BestInv (vValue : List CInputCoin) (nTargetValue : ℤ) (s : SubsetSearch) : Prop where
  length_vfBest : s.vfBest.length = vValue.length
  totalValue_vfBest : totalValue (chosen vValue s.vfBest) = s.nBest
  le_nBest : nTargetValue ≤ s.nBest

/-- The subset under way before coin `k` of pass `nPass`: one flag per coin, the chosen coins
of total `nTotal`, and in the first pass no flag set from `k` on. -/
structure PassInv (vValue : List CInputCoin) (nPass k : ℕ) (s : SubsetSearch) : Prop where
  length_vfIncluded : s.vfIncluded.length = vValue.length
  totalValue_vfIncluded : totalValue (chosen vValue s.vfIncluded) = s.nTotal
  clear_from : nPass = 0 → ∀ j, k ≤ j → s.vfIncluded.getD j false = false

/-- Adding coin `k`, whose flag is clear, to the subset under way keeps both invariants, and
the total stays an `int64_t` because it never exceeds that of all of `vValue`. -/
theorem includeStep_spec {nPass k : ℕ} {s : SubsetSearch} (hk : k < vValue.length)
    (hpos : ∀ c ∈ vValue, 0 ≤ c.nValue) (hmax : totalValue vValue < 2 ^ 63)
    (hbest : BestInv vValue nTargetValue s) (hpass : PassInv vValue nPass k s)
    (hclear : s.vfIncluded.getD k false = false) :
    ∃ s', includeStep nTargetValue k vValue[k].nValue s = some s' ∧
      BestInv vValue nTargetValue s' ∧ PassInv vValue nPass (k + 1) s' := by
  have hkf : k < s.vfIncluded.length := hpass.length_vfIncluded ▸ hk
  have hadd : totalValue (chosen vValue (s.vfIncluded.set k true)) = s.nTotal + vValue[k].nValue :=
    hpass.totalValue_vfIncluded ▸ sum_chosen_set_true _ vValue s.vfIncluded k hk hkf hclear
  have hle : s.nTotal + vValue[k].nValue ≤ totalValue vValue :=
    hadd ▸ totalValue_le_of_sublist (chosen_sublist _ _) hpos
  have h0 : 0 ≤ s.nTotal :=
    hpass.totalValue_vfIncluded ▸
      totalValue_nonneg fun c hc ↦ hpos c ((chosen_sublist _ _).subset hc)
  have hv : 0 ≤ vValue[k].nValue := hpos _ (List.getElem_mem hk)
  -- Taking the coin out again restores the flags: its flag was clear.
  have hrestore : (s.vfIncluded.set k true).set k false = s.vfIncluded := by
    rw [List.set_set]
    rw [List.getD_eq_getElem _ _ hkf] at hclear
    conv => rhs; rw [← List.set_getElem_self hkf]
    rw [hclear]
  have hrest : ∀ j, k + 1 ≤ j →
      (s.vfIncluded.set k true).getD j false = s.vfIncluded.getD j false := by
    intro j hj
    simp [List.getD_eq_getElem?_getD, show k ≠ j by omega]
  have hsum : int64 (s.nTotal + vValue[k].nValue) = some (s.nTotal + vValue[k].nValue) :=
    int64_of_nonneg (by omega) (by omega)
  simp only [includeStep, hsum, Option.bind_eq_bind, Option.bind_some]
  by_cases hreach : nTargetValue ≤ s.nTotal + vValue[k].nValue
  · have hback : int64 (s.nTotal + vValue[k].nValue - vValue[k].nValue) = some s.nTotal := by
      rw [add_sub_cancel_right]
      exact int64_of_nonneg h0 (by omega)
    simp only [if_pos hreach, hback, Option.bind_some, hrestore]
    refine ⟨_, rfl, ?_, ⟨hpass.length_vfIncluded, hpass.totalValue_vfIncluded,
      fun h0 j hj ↦ hpass.clear_from h0 j (by omega)⟩⟩
    by_cases hbetter : s.nTotal + vValue[k].nValue < s.nBest
    · simp only [if_pos hbetter]
      exact ⟨by simpa using hpass.length_vfIncluded, hadd, hreach⟩
    · simp only [if_neg hbetter]
      exact ⟨hbest.length_vfBest, hbest.totalValue_vfBest, hbest.le_nBest⟩
  · simp only [if_neg hreach]
    refine ⟨_, rfl, ⟨hbest.length_vfBest, hbest.totalValue_vfBest, hbest.le_nBest⟩,
      ⟨by simpa using hpass.length_vfIncluded, hadd, fun h0 j hj ↦ ?_⟩⟩
    rw [hrest j hj]
    exact hpass.clear_from h0 j (by omega)

/-- One pass from coin `k` on keeps both invariants; the induction is on the coins still to
come, `vValue.drop k`. -/
theorem foldlM_passStep_spec (randbool : ℕ → Bool) (nPass : ℕ)
    (hpos : ∀ c ∈ vValue, 0 ≤ c.nValue) (hmax : totalValue vValue < 2 ^ 63) :
    ∀ (l : List CInputCoin) (k : ℕ) (s : SubsetSearch), l = vValue.drop k →
      BestInv vValue nTargetValue s → PassInv vValue nPass k s →
      ∃ s', (l.zipIdx k).foldlM (passStep nTargetValue randbool nPass) s = some s' ∧
        BestInv vValue nTargetValue s' ∧ PassInv vValue nPass vValue.length s'
  | [], k, s, hl, hbest, hpass => by
    have hk : vValue.length ≤ k := List.drop_eq_nil_iff.mp hl.symm
    refine ⟨s, rfl, hbest, hpass.length_vfIncluded, hpass.totalValue_vfIncluded,
      fun _ j hj ↦ ?_⟩
    exact List.getD_eq_default _ _ (by rw [hpass.length_vfIncluded]; exact hj)
  | c :: l, k, s, hl, hbest, hpass => by
    have hk : k < vValue.length := by
      by_contra hle
      rw [List.drop_eq_nil_of_le (by omega)] at hl
      cases hl
    rw [List.drop_eq_getElem_cons hk, List.cons.injEq] at hl
    obtain ⟨rfl, hl⟩ := hl
    rw [List.zipIdx_cons, List.foldlM_cons]
    by_cases hinc : fInclude randbool nPass k s = true
    · -- The coin's flag is clear: by the test in the second pass, by `clear_from` in the first.
      have hclear : s.vfIncluded.getD k false = false := by
        by_cases h0 : nPass = 0
        · exact hpass.clear_from h0 k le_rfl
        · simpa [fInclude, h0] using hinc
      obtain ⟨s', hs', hbest', hpass'⟩ := includeStep_spec hk hpos hmax hbest hpass hclear
      obtain ⟨s'', hs'', hbest'', hpass''⟩ :=
        foldlM_passStep_spec randbool nPass hpos hmax l (k + 1) s' hl hbest' hpass'
      refine ⟨s'', ?_, hbest'', hpass''⟩
      simp only [passStep, if_pos hinc, hs', Option.bind_eq_bind, Option.bind_some, hs'']
    · have hpass' : PassInv vValue nPass (k + 1) s :=
        ⟨hpass.length_vfIncluded, hpass.totalValue_vfIncluded,
          fun h0 j hj ↦ hpass.clear_from h0 j (by omega)⟩
      obtain ⟨s'', hs'', hbest'', hpass''⟩ :=
        foldlM_passStep_spec randbool nPass hpos hmax l (k + 1) s hl hbest hpass'
      refine ⟨s'', ?_, hbest'', hpass''⟩
      simp only [passStep, if_neg hinc, Option.pure_def, Option.bind_eq_bind, Option.bind_some,
        hs'']

/-- A repetition keeps the best subset's invariant: both passes start from flags that are all
clear. -/
theorem subsetRep_spec (randbool : ℕ → Bool) {s : SubsetSearch}
    (hpos : ∀ c ∈ vValue, 0 ≤ c.nValue) (hmax : totalValue vValue < 2 ^ 63)
    (hbest : BestInv vValue nTargetValue s) :
    ∃ s', subsetRep vValue nTargetValue randbool s = some s' ∧
      BestInv vValue nTargetValue s' := by
  have hbest₀ : BestInv vValue nTargetValue
      { s with vfIncluded := List.replicate vValue.length false, nTotal := 0,
               fReachedTarget := false } :=
    ⟨hbest.length_vfBest, hbest.totalValue_vfBest, hbest.le_nBest⟩
  have hstart : PassInv vValue 0 0
      { s with vfIncluded := List.replicate vValue.length false, nTotal := 0,
               fReachedTarget := false } :=
    ⟨by simp, by simp, fun _ j _ ↦ by simp [List.getD_eq_getElem?_getD]⟩
  obtain ⟨s₁, hs₁, hbest₁, hpass₁⟩ :=
    foldlM_passStep_spec randbool 0 hpos hmax vValue 0 _ List.drop_zero.symm hbest₀ hstart
  simp only [subsetRep, subsetPass, hs₁, Option.bind_eq_bind, Option.bind_some]
  by_cases hreached : s₁.fReachedTarget = true
  · exact ⟨s₁, by simp [hreached], hbest₁⟩
  · -- The second pass needs no flag clear ahead of it: its own test checks the flag.
    have hsecond : PassInv vValue 1 0 s₁ :=
      ⟨hpass₁.length_vfIncluded, hpass₁.totalValue_vfIncluded,
        fun h ↦ absurd h one_ne_zero⟩
    obtain ⟨s₂, hs₂, hbest₂, -⟩ := foldlM_passStep_spec randbool 1 hpos hmax
      vValue 0 s₁ List.drop_zero.symm hbest₁ hsecond
    exact ⟨s₂, by simpa [hreached] using hs₂, hbest₂⟩

/-- The loop over repetitions keeps it too, by induction on the repetitions left. -/
theorem subsetLoop_spec (randbool : ℕ → ℕ → Bool)
    (hpos : ∀ c ∈ vValue, 0 ≤ c.nValue) (hmax : totalValue vValue < 2 ^ 63) :
    ∀ (left nRep : ℕ) (s : SubsetSearch), BestInv vValue nTargetValue s →
      ∃ s', subsetLoop vValue nTargetValue randbool nRep left s = some s' ∧
        BestInv vValue nTargetValue s'
  | 0, _, s, hbest => ⟨s, rfl, hbest⟩
  | left + 1, nRep, s, hbest => by
    by_cases hdone : s.nBest ≠ nTargetValue
    · obtain ⟨s₁, hs₁, hbest₁⟩ := subsetRep_spec (randbool nRep) hpos hmax hbest
      obtain ⟨s₂, hs₂, hbest₂⟩ :=
        subsetLoop_spec randbool hpos hmax left (nRep + 1) s₁ hbest₁
      exact ⟨s₂, by simp only [subsetLoop, if_pos hdone, hs₁, Option.bind_eq_bind,
        Option.bind_some, hs₂], hbest₂⟩
    · exact ⟨s, by simp only [subsetLoop, if_neg hdone, Option.pure_def], hbest⟩

/-- Flags over `vValue` whose coins total `best.2`, which reaches the target. -/
structure SubsetFound (vValue : List CInputCoin) (nTargetValue : ℤ) (best : List Bool × ℤ) :
    Prop where
  length_eq : best.1.length = vValue.length
  totalValue_eq : totalValue (chosen vValue best.1) = best.2
  le_total : nTargetValue ≤ best.2

/-- `ApproximateBestSubset`, started from the total of all of `vValue` and a target that total
reaches, returns a subset that reaches the target. -/
theorem ApproximateBestSubset_spec (randbool : ℕ → ℕ → Bool) (iterations : ℕ)
    (hpos : ∀ c ∈ vValue, 0 ≤ c.nValue) (hmax : totalValue vValue < 2 ^ 63)
    (ht : nTargetValue ≤ totalValue vValue) :
    ∃ best, ApproximateBestSubset vValue (totalValue vValue) nTargetValue randbool iterations =
      some best ∧ SubsetFound vValue nTargetValue best := by
  obtain ⟨s, hs, hbest⟩ := subsetLoop_spec randbool hpos hmax iterations 0 _
    (⟨by simp, by simp, ht⟩ : BestInv vValue nTargetValue
      ⟨[], 0, false, List.replicate vValue.length true, totalValue vValue⟩)
  exact ⟨(s.vfBest, s.nBest), by simp [ApproximateBestSubset, hs],
    ⟨hbest.length_vfBest, hbest.totalValue_vfBest, hbest.le_nBest⟩⟩

/-- The second search, if it runs, aims higher than the target, so what it returns still
reaches the target. -/
theorem secondSearch_spec (randbool : ℕ → ℕ → Bool) {first : List Bool × ℤ}
    (hpos : ∀ c ∈ vValue, 0 ≤ c.nValue) (hmax : totalValue vValue < 2 ^ 63)
    (htc : nTargetValue + MIN_CHANGE < 2 ^ 63) (ht : 0 < nTargetValue)
    (hfirst : SubsetFound vValue nTargetValue first) :
    ∃ best, secondSearch vValue (totalValue vValue) nTargetValue randbool first = some best ∧
      SubsetFound vValue nTargetValue best := by
  by_cases hexact : first.2 ≠ nTargetValue
  · have hchange : int64 (nTargetValue + MIN_CHANGE) = some (nTargetValue + MIN_CHANGE) :=
      int64_of_nonneg (by simp only [MIN_CHANGE, CENT]; omega) htc
    simp only [secondSearch, if_pos hexact, hchange, Option.bind_eq_bind, Option.bind_some]
    by_cases hreach : nTargetValue + MIN_CHANGE ≤ totalValue vValue
    · obtain ⟨best, hbest, hfound⟩ :=
        ApproximateBestSubset_spec randbool 1000 hpos hmax hreach
      refine ⟨best, by rw [if_pos hreach, hbest], hfound.length_eq, hfound.totalValue_eq, ?_⟩
      have := hfound.le_total
      simp only [MIN_CHANGE, CENT] at this
      omega
    · exact ⟨first, by rw [if_neg hreach]; rfl, hfirst⟩
  · exact ⟨first, by rw [secondSearch, if_neg hexact]; rfl, hfirst⟩

end Search

/-! ## The loop over `vCoins`

Its invariant is stated over the coins `seen` of the outputs that passed the three tests so
far: `vValue` is exactly those below the target plus `MIN_CHANGE`, `nTotalLower` their total,
and `coinLowestLarger` one of the others, present whenever there is one. -/

section Scan

variable {nTargetValue nConfMine nConfTheirs : ℤ} {nMaxAncestors : ℕ}
  {TransactionWithinChainLimit : Uint256 → ℕ → Bool}

/-- What the loop over `vCoins` knows after the coins `seen`, none of which had exactly the
target value. -/
structure ScanInv (nTargetValue : ℤ) (seen : List CInputCoin) (s : CoinScan) : Prop where
  ne_target : ∀ c ∈ seen, c.nValue ≠ nTargetValue
  vValue_eq : s.vValue = seen.filter (·.nValue < nTargetValue + MIN_CHANGE)
  nTotalLower_eq : s.nTotalLower = totalValue s.vValue
  lowestLarger_mem : ∀ c, s.coinLowestLarger = some c →
    c ∈ seen ∧ nTargetValue + MIN_CHANGE ≤ c.nValue
  lowestLarger_none : s.coinLowestLarger = none →
    ∀ c ∈ seen, c.nValue < nTargetValue + MIN_CHANGE

theorem scanInv_start : ScanInv nTargetValue [] ⟨none, [], 0⟩ :=
  ⟨by simp, by simp, by simp, by simp, by simp⟩

/-- The loop's body: a coin of exactly the target value ends the loop; any other keeps the
invariant, with `nTotalLower` bounded by the total of the coins seen. -/
theorem scanStep_spec {seen : List CInputCoin} {s : CoinScan} {coin : CInputCoin}
    (hinv : ScanInv nTargetValue seen s) (hpos : ∀ c ∈ seen ++ [coin], 0 ≤ c.nValue)
    (ht : 0 < nTargetValue) (htc : nTargetValue + MIN_CHANGE < 2 ^ 63)
    (hmax : totalValue (seen ++ [coin]) < 2 ^ 63) :
    (coin.nValue = nTargetValue ∧ scanStep nTargetValue coin s = some (.exact coin)) ∨
      ∃ s', scanStep nTargetValue coin s = some (.done s') ∧
        ScanInv nTargetValue (seen ++ [coin]) s' := by
  by_cases hexact : coin.nValue = nTargetValue
  · exact .inl ⟨hexact, by simp [scanStep, hexact]⟩
  right
  have hchange : int64 (nTargetValue + MIN_CHANGE) = some (nTargetValue + MIN_CHANGE) :=
    int64_of_nonneg (by simp only [MIN_CHANGE, CENT]; omega) htc
  have hne : ∀ c ∈ seen ++ [coin], c.nValue ≠ nTargetValue :=
    List.forall_mem_append.mpr ⟨hinv.ne_target, List.forall_mem_singleton.mpr hexact⟩
  have hmem : ∀ c, s.coinLowestLarger = some c →
      c ∈ seen ++ [coin] ∧ nTargetValue + MIN_CHANGE ≤ c.nValue := fun c hc ↦
    ⟨List.mem_append_left _ (hinv.lowestLarger_mem c hc).1, (hinv.lowestLarger_mem c hc).2⟩
  by_cases hlow : coin.nValue < nTargetValue + MIN_CHANGE
  · -- The coin joins `vValue`; their total stays below that of all the coins seen.
    have hlower : s.nTotalLower + coin.nValue ≤ totalValue (seen ++ [coin]) := by
      have : totalValue (seen.filter (·.nValue < nTargetValue + MIN_CHANGE)) ≤ totalValue seen :=
        totalValue_le_of_sublist List.filter_sublist fun c hc ↦ hpos c (List.mem_append_left _ hc)
      rw [hinv.nTotalLower_eq, hinv.vValue_eq, totalValue_append]
      simp only [totalValue_cons, totalValue_nil, add_zero]
      omega
    have h0 : 0 ≤ s.nTotalLower + coin.nValue := by
      rw [hinv.nTotalLower_eq]
      have := totalValue_nonneg fun c (hc : c ∈ s.vValue) ↦
        hpos c (List.mem_append_left _ (List.mem_of_mem_filter (by rwa [hinv.vValue_eq] at hc)))
      have := hpos coin (by simp)
      omega
    refine ⟨{ s with vValue := s.vValue ++ [coin], nTotalLower := s.nTotalLower + coin.nValue },
      ?_, hne, ?_, ?_, hmem, ?_⟩
    · simp [scanStep, hexact, hchange, hlow, int64_of_nonneg h0 (by omega)]
    · simp [hinv.vValue_eq, List.filter_append, hlow]
    · simp [hinv.nTotalLower_eq]
    · intro hnone
      exact List.forall_mem_append.mpr
        ⟨hinv.lowestLarger_none hnone, List.forall_mem_singleton.mpr hlow⟩
  · have hvValue : s.vValue = (seen ++ [coin]).filter (·.nValue < nTargetValue + MIN_CHANGE) := by
      simp [hinv.vValue_eq, List.filter_append, hlow]
    by_cases hsmaller : s.coinLowestLarger.all (coin.nValue < ·.nValue) = true
    · -- The coin becomes `coinLowestLarger`.
      refine ⟨{ s with coinLowestLarger := some coin }, ?_, hne, hvValue, hinv.nTotalLower_eq,
        ?_, by simp⟩
      · simp [scanStep, hexact, hchange, hlow, hsmaller]
      · intro c hc
        cases hc
        exact ⟨by simp, by omega⟩
    · -- A smaller `coinLowestLarger` is already there, so it is not `none`.
      refine ⟨s, ?_, hne, hvValue, hinv.nTotalLower_eq, hmem, fun hnone ↦ ?_⟩
      · simp [scanStep, hexact, hchange, hlow, hsmaller]
      · simp [hnone] at hsmaller

/-- The loop skips an output that fails one of its three tests. -/
theorem scanCoins_cons_of_not_eligible {output : COutput} {vCoins : List COutput} {s : CoinScan}
    (h : eligible nConfMine nConfTheirs nMaxAncestors TransactionWithinChainLimit output = false) :
    scanCoins nTargetValue nConfMine nConfTheirs nMaxAncestors TransactionWithinChainLimit
        (output :: vCoins) s =
      scanCoins nTargetValue nConfMine nConfTheirs nMaxAncestors TransactionWithinChainLimit
        vCoins s := by
  unfold eligible at h
  rw [scanCoins]
  split_ifs <;> simp_all

/-- On an output that passes them, it runs its body and stops or goes on as the body says. -/
theorem scanCoins_cons_of_eligible {output : COutput} {vCoins : List COutput} {s : CoinScan}
    {r : ScanEnd}
    (h : eligible nConfMine nConfTheirs nMaxAncestors TransactionWithinChainLimit output = true)
    (hr : scanStep nTargetValue output.coin s = some r) :
    scanCoins nTargetValue nConfMine nConfTheirs nMaxAncestors TransactionWithinChainLimit
        (output :: vCoins) s =
      match r with
      | .exact coin => some (.exact coin)
      | .done s' => scanCoins nTargetValue nConfMine nConfTheirs nMaxAncestors
          TransactionWithinChainLimit vCoins s' := by
  simp only [eligible, Bool.and_eq_true, Bool.not_eq_true', decide_eq_false_iff_not] at h
  obtain ⟨⟨hspend, hdepth⟩, hlimit⟩ := h
  simp only [scanCoins, hspend, hlimit, hdepth, hr, Bool.not_true, Bool.false_eq_true, if_false,
    Option.bind_eq_bind, Option.bind_some]
  cases r <;> rfl

/-- The whole loop, by induction on `vCoins`: it stops at a coin of exactly the target value,
or ends with the invariant over all the coins that passed the tests. -/
theorem scanCoins_spec (ht : 0 < nTargetValue) (htc : nTargetValue + MIN_CHANGE < 2 ^ 63) :
    ∀ (vCoins : List COutput) (seen : List CInputCoin) (s : CoinScan),
      ScanInv nTargetValue seen s →
      (∀ c ∈ seen ++ eligibleCoins nConfMine nConfTheirs nMaxAncestors
        TransactionWithinChainLimit vCoins, 0 ≤ c.nValue) →
      totalValue (seen ++ eligibleCoins nConfMine nConfTheirs nMaxAncestors
        TransactionWithinChainLimit vCoins) < 2 ^ 63 →
      (∃ c ∈ eligibleCoins nConfMine nConfTheirs nMaxAncestors TransactionWithinChainLimit
          vCoins, c.nValue = nTargetValue ∧
        scanCoins nTargetValue nConfMine nConfTheirs nMaxAncestors TransactionWithinChainLimit
          vCoins s = some (.exact c)) ∨
      ∃ s', scanCoins nTargetValue nConfMine nConfTheirs nMaxAncestors TransactionWithinChainLimit
          vCoins s = some (.done s') ∧
        ScanInv nTargetValue (seen ++ eligibleCoins nConfMine nConfTheirs nMaxAncestors
          TransactionWithinChainLimit vCoins) s'
  | [], seen, s, hinv, _, _ => .inr ⟨s, rfl, by simpa [eligibleCoins] using hinv⟩
  | output :: vCoins, seen, s, hinv, hpos, hmax => by
    by_cases helig : eligible nConfMine nConfTheirs nMaxAncestors TransactionWithinChainLimit
      output = true
    · have hE : eligibleCoins nConfMine nConfTheirs nMaxAncestors TransactionWithinChainLimit
          (output :: vCoins) = output.coin :: eligibleCoins nConfMine nConfTheirs nMaxAncestors
            TransactionWithinChainLimit vCoins := by
        simp [eligibleCoins, helig]
      rw [hE] at hpos hmax ⊢
      have hpos₁ : ∀ c ∈ seen ++ [output.coin], 0 ≤ c.nValue := fun c hc ↦ hpos c (by
        rcases List.mem_append.mp hc with hc | hc
        · exact List.mem_append_left _ hc
        · simp [List.mem_singleton.mp hc])
      have hmax₁ : totalValue (seen ++ [output.coin]) < 2 ^ 63 := by
        have := totalValue_nonneg fun c hc ↦
          hpos c (List.mem_append_right _ (List.mem_cons_of_mem _ hc))
        simp only [totalValue_append, totalValue_cons, totalValue_nil] at hmax ⊢
        omega
      rcases scanStep_spec hinv hpos₁ ht htc hmax₁ with ⟨hv, hs⟩ | ⟨s', hs', hinv'⟩
      · exact .inl ⟨output.coin, by simp, hv, by rw [scanCoins_cons_of_eligible helig hs]⟩
      · rcases scanCoins_spec ht htc vCoins (seen ++ [output.coin]) s' hinv'
          (by simpa using hpos) (by simpa using hmax) with
          ⟨c, hc, hcv, hsc⟩ | ⟨s'', hsc, hinv''⟩
        · exact .inl ⟨c, List.mem_cons_of_mem _ hc, hcv,
            by rw [scanCoins_cons_of_eligible helig hs']; exact hsc⟩
        · exact .inr ⟨s'', by rw [scanCoins_cons_of_eligible helig hs']; exact hsc,
            by simpa using hinv''⟩
    · have hE : eligibleCoins nConfMine nConfTheirs nMaxAncestors TransactionWithinChainLimit
          (output :: vCoins) = eligibleCoins nConfMine nConfTheirs nMaxAncestors
            TransactionWithinChainLimit vCoins := by
        simp [eligibleCoins, helig]
      rw [hE] at hpos hmax ⊢
      rw [scanCoins_cons_of_not_eligible (by simpa using helig)]
      exact scanCoins_spec ht htc vCoins seen s hinv hpos hmax

end Scan

/-! ## What `SelectCoinsMinConf` returns -/

/-- `setCoinsRet` and `nValueRet` fund the target from the coins `E`: coins of `E`, one per
outpoint, whose total is `nValueRet`, which reaches the target. -/
structure Funds (nTargetValue : ℤ) (E : List CInputCoin) (ret : List CInputCoin × ℤ) :
    Prop where
  subset : ∀ c ∈ ret.1, c ∈ E
  nodup : (ret.1.map (·.outpoint)).Nodup
  nValueRet_eq : ret.2 = totalValue ret.1
  le_nValueRet : nTargetValue ≤ ret.2

section Return

variable {nTargetValue : ℤ} {E : List CInputCoin}

/-- Every set of coins the function returns is taken from `E` up to order: inserting it into
the empty set keeps every coin and sums them. -/
theorem insertCoins_of_subperm {coins : List CInputCoin} (hsub : coins.Subperm E)
    (hnodup : (E.map (·.outpoint)).Nodup) (hpos : ∀ c ∈ E, 0 ≤ c.nValue)
    (hmax : totalValue E < 2 ^ 63) (ht : nTargetValue ≤ totalValue coins) :
    ∃ ret, insertCoins coins ([], 0) = some ret ∧ Funds nTargetValue E ret := by
  obtain ⟨l, hperm, hsubl⟩ := hsub
  have hnodup' : (coins.map (·.outpoint)).Nodup :=
    (hperm.map _).nodup_iff.mp ((hsubl.map _).nodup hnodup)
  have hmem : ∀ c ∈ coins, c ∈ E := fun c hc ↦ hsubl.subset (hperm.mem_iff.mpr hc)
  have hle : totalValue coins ≤ totalValue E :=
    totalValue_perm hperm ▸ totalValue_le_of_sublist hsubl hpos
  refine ⟨_, insertCoins_eq hnodup' (by simp) (fun c hc ↦ hpos c (hmem c hc)) le_rfl
    (by omega), ?_⟩
  exact ⟨by simpa using hmem, by simpa using hnodup', by simp, by simpa using ht⟩

/-- A single coin of `E` that reaches the target funds it on its own. -/
theorem insertCoins_single {coin : CInputCoin} (hmem : coin ∈ E)
    (hnodup : (E.map (·.outpoint)).Nodup) (hpos : ∀ c ∈ E, 0 ≤ c.nValue)
    (hmax : totalValue E < 2 ^ 63) (hge : nTargetValue ≤ coin.nValue) :
    ∃ ret, insertCoins [coin] ([], 0) = some ret ∧ Funds nTargetValue E ret :=
  insertCoins_of_subperm (List.singleton_sublist.mpr hmem).subperm hnodup hpos hmax
    (by simpa using hge)

/-- The test between `coinLowestLarger` and the subset never overflows below the bound. -/
theorem prefersLowestLarger_isSome (nBest : ℤ) (coin : CInputCoin) (ht : 0 < nTargetValue)
    (htc : nTargetValue + MIN_CHANGE < 2 ^ 63) :
    ∃ b, prefersLowestLarger nTargetValue nBest coin = some b := by
  have hchange : int64 (nTargetValue + MIN_CHANGE) = some (nTargetValue + MIN_CHANGE) :=
    int64_of_nonneg (by simp only [MIN_CHANGE, CENT]; omega) htc
  by_cases hexact : nBest ≠ nTargetValue
  · exact ⟨_, by simp only [prefersLowestLarger, if_pos hexact, hchange, Option.bind_eq_bind,
      Option.bind_some]; rfl⟩
  · exact ⟨_, by rw [prefersLowestLarger, if_neg hexact]; rfl⟩

/-- The last choice funds the target whichever it takes: `coinLowestLarger` is at least the
target plus `MIN_CHANGE`, and the subset's coins reach the target. -/
theorem selectFromBest_spec {vValue : List CInputCoin} {coinLowestLarger : Option CInputCoin}
    {best : List Bool × ℤ} (hsub : vValue.Subperm E)
    (hfound : SubsetFound vValue nTargetValue best)
    (hlarger : ∀ c, coinLowestLarger = some c →
      c ∈ E ∧ nTargetValue + MIN_CHANGE ≤ c.nValue)
    (hnodup : (E.map (·.outpoint)).Nodup) (hpos : ∀ c ∈ E, 0 ≤ c.nValue)
    (hmax : totalValue E < 2 ^ 63) (ht : 0 < nTargetValue)
    (htc : nTargetValue + MIN_CHANGE < 2 ^ 63) :
    ∃ ret, selectFromBest vValue coinLowestLarger nTargetValue best = some ret ∧
      Funds nTargetValue E ret := by
  have hsubset : ∃ ret, insertCoins (chosen vValue best.1) ([], 0) = some ret ∧
      Funds nTargetValue E ret :=
    insertCoins_of_subperm ((chosen_sublist _ _).subperm.trans hsub) hnodup hpos hmax
      (hfound.totalValue_eq ▸ hfound.le_total)
  cases coinLowestLarger with
  | none => exact hsubset
  | some coin =>
    obtain ⟨hmem, hge⟩ := hlarger coin rfl
    obtain ⟨b, hb⟩ := prefersLowestLarger_isSome best.2 coin ht htc
    simp only [selectFromBest, hb, Option.bind_eq_bind, Option.bind_some]
    cases b with
    | true =>
      refine insertCoins_single hmem hnodup hpos hmax ?_
      simp only [MIN_CHANGE, CENT] at hge
      omega
    | false => exact hsubset

/-- Everything after the loop: it returns true exactly when the coins that passed the tests
reach the target, and then funds it. -/
theorem selectFromScan_spec {s : CoinScan} (randbool : ℕ → ℕ → ℕ → Bool)
    (hinv : ScanInv nTargetValue E s) (hpos : ∀ c ∈ E, 0 < c.nValue)
    (hnodup : (E.map (·.outpoint)).Nodup) (ht : 0 < nTargetValue)
    (htc : nTargetValue + MIN_CHANGE < 2 ^ 63) (hmax : totalValue E < 2 ^ 63) :
    ∃ fReturn ret, selectFromScan nTargetValue randbool s = some (fReturn, ret) ∧
      (fReturn = true ↔ nTargetValue ≤ totalValue E) ∧
      (fReturn = true → Funds nTargetValue E ret) := by
  have hpos₀ : ∀ c ∈ E, 0 ≤ c.nValue := fun c hc ↦ le_of_lt (hpos c hc)
  have hlower : s.vValue.Sublist E := hinv.vValue_eq ▸ List.filter_sublist
  have hlowerle : s.nTotalLower ≤ totalValue E :=
    hinv.nTotalLower_eq ▸ totalValue_le_of_sublist hlower hpos₀
  by_cases heq : s.nTotalLower = nTargetValue
  · -- All of `vValue`, which sums to the target.
    obtain ⟨ret, hret, hfunds⟩ := insertCoins_of_subperm hlower.subperm hnodup hpos₀ hmax
      (by rw [← hinv.nTotalLower_eq, heq])
    exact ⟨true, ret, by simp [selectFromScan, heq, hret], by simp; omega, fun _ ↦ hfunds⟩
  by_cases hlt : s.nTotalLower < nTargetValue
  · cases hlargest : s.coinLowestLarger with
    | none =>
      -- No coin reaches the target plus `MIN_CHANGE`, so `vValue` is every coin, short of it.
      have hall : s.vValue = E := by
        rw [hinv.vValue_eq, List.filter_eq_self]
        intro c hc
        simpa using hinv.lowestLarger_none hlargest c hc
      refine ⟨false, ([], 0), by simp [selectFromScan, heq, hlt, hlargest], ?_, by simp⟩
      rw [← hall, ← hinv.nTotalLower_eq]
      simp only [Bool.false_eq_true, false_iff, not_le]
      exact hlt
    | some coin =>
      obtain ⟨hmem, hge⟩ := hinv.lowestLarger_mem coin hlargest
      have hcoin : nTargetValue ≤ coin.nValue := by
        simp only [MIN_CHANGE, CENT] at hge
        omega
      obtain ⟨ret, hret, hfunds⟩ := insertCoins_single hmem hnodup hpos₀ hmax hcoin
      refine ⟨true, ret, by simp [selectFromScan, heq, hlt, hlargest, hret], ?_,
        fun _ ↦ hfunds⟩
      simpa using hcoin.trans (le_totalValue_of_mem hmem hpos₀)
  · -- The coins below sum to more than the target: the two searches, then the last choice.
    have hgt : nTargetValue ≤ s.nTotalLower := by omega
    have hperm : (sortDescending s.vValue).Perm s.vValue :=
      (List.reverse_perm _).trans (List.mergeSort_perm _ _)
    have hsorted : totalValue (sortDescending s.vValue) = s.nTotalLower := by
      rw [totalValue_perm hperm, hinv.nTotalLower_eq]
    have hsub : (sortDescending s.vValue).Subperm E := hperm.subperm.trans hlower.subperm
    have hpos₁ : ∀ c ∈ sortDescending s.vValue, 0 ≤ c.nValue :=
      fun c hc ↦ hpos₀ c (hsub.subset hc)
    have hmax₁ : totalValue (sortDescending s.vValue) < 2 ^ 63 := by omega
    obtain ⟨first, hfirst, hfound₁⟩ :=
      ApproximateBestSubset_spec (randbool 0) 1000 hpos₁ hmax₁
        (show nTargetValue ≤ totalValue (sortDescending s.vValue) by omega)
    obtain ⟨best, hbest, hfound₂⟩ :=
      secondSearch_spec (randbool 1) hpos₁ hmax₁ htc ht hfound₁
    obtain ⟨ret, hret, hfunds⟩ := selectFromBest_spec hsub hfound₂ hinv.lowestLarger_mem
      hnodup hpos₀ hmax ht htc
    rw [hsorted] at hfirst hbest
    refine ⟨true, ret, ?_, by simp; omega, fun _ ↦ hfunds⟩
    simp only [selectFromScan, if_neg heq, if_neg hlt, hfirst, hbest, hret, Option.bind_eq_bind,
      Option.bind_some]
    rfl

end Return

/-- Coin selection succeeds exactly when the eligible coins reach the target and never
under-funds, whatever order the shuffle leaves and whatever the coin flips, for distinct
eligible outpoints of positive value, as long as the target plus `MIN_CHANGE` and the total of
the eligible coins fit in an `int64_t`. -/
theorem SelectCoinsMinConf_funds (nTargetValue nConfMine nConfTheirs : ℤ) (nMaxAncestors : ℕ)
    (TransactionWithinChainLimit : Uint256 → ℕ → Bool) (vCoins : List COutput)
    (shuffle : List COutput → List COutput) (randbool : ℕ → ℕ → ℕ → Bool)
    (hshuffle : (shuffle vCoins).Perm vCoins)
    (hnodup : ((eligibleCoins nConfMine nConfTheirs nMaxAncestors TransactionWithinChainLimit
      vCoins).map (·.outpoint)).Nodup)
    (hpos : ∀ c ∈ eligibleCoins nConfMine nConfTheirs nMaxAncestors TransactionWithinChainLimit
      vCoins, 0 < c.nValue)
    (ht : 0 < nTargetValue) (htc : nTargetValue + MIN_CHANGE < 2 ^ 63)
    (hmax : totalValue (eligibleCoins nConfMine nConfTheirs nMaxAncestors
      TransactionWithinChainLimit vCoins) < 2 ^ 63) :
    ∃ fReturn setCoinsRet nValueRet,
      SelectCoinsMinConf nTargetValue nConfMine nConfTheirs nMaxAncestors
          TransactionWithinChainLimit vCoins shuffle randbool =
        some (fReturn, setCoinsRet, nValueRet) ∧
      (fReturn = true ↔ nTargetValue ≤ totalValue (eligibleCoins nConfMine nConfTheirs
        nMaxAncestors TransactionWithinChainLimit vCoins)) ∧
      (fReturn = true →
        (∀ c ∈ setCoinsRet, c ∈ eligibleCoins nConfMine nConfTheirs nMaxAncestors
          TransactionWithinChainLimit vCoins) ∧
        (setCoinsRet.map (·.outpoint)).Nodup ∧ nValueRet = totalValue setCoinsRet ∧
        nTargetValue ≤ nValueRet) := by
  -- The scan sees the eligible coins in the shuffled order: a permutation of them.
  have hperm : (eligibleCoins nConfMine nConfTheirs nMaxAncestors TransactionWithinChainLimit
      (shuffle vCoins)).Perm (eligibleCoins nConfMine nConfTheirs nMaxAncestors
        TransactionWithinChainLimit vCoins) :=
    (hshuffle.filter _).map _
  have hpos' := fun c hc ↦ hpos c (hperm.mem_iff.mp hc)
  have hnodup' := (hperm.map (·.outpoint)).nodup_iff.mpr hnodup
  have hmax' := (totalValue_perm hperm).symm ▸ hmax
  -- Turn a selection from the shuffled coins into the statement.
  have hfunds : ∀ ret, Funds nTargetValue (eligibleCoins nConfMine nConfTheirs nMaxAncestors
      TransactionWithinChainLimit (shuffle vCoins)) ret →
      (∀ c ∈ ret.1, c ∈ eligibleCoins nConfMine nConfTheirs nMaxAncestors
        TransactionWithinChainLimit vCoins) ∧
      (ret.1.map (·.outpoint)).Nodup ∧ ret.2 = totalValue ret.1 ∧ nTargetValue ≤ ret.2 :=
    fun ret h ↦ ⟨fun c hc ↦ hperm.mem_iff.mp (h.subset c hc), h.nodup, h.nValueRet_eq,
      h.le_nValueRet⟩
  rcases scanCoins_spec ht htc (shuffle vCoins) [] ⟨none, [], 0⟩ scanInv_start
    (by simpa using fun c hc ↦ le_of_lt (hpos' c hc)) (by simpa using hmax') with
    ⟨coin, hmem, hcoin, hexact⟩ | ⟨s, hdone, hinv⟩
  · -- A coin of exactly the target value.
    obtain ⟨ret, hret, hf⟩ := insertCoins_single hmem hnodup'
      (fun c hc ↦ le_of_lt (hpos' c hc)) hmax' hcoin.ge
    refine ⟨true, ret.1, ret.2, by simp [SelectCoinsMinConf, hexact, hret], ?_,
      fun _ ↦ hfunds ret hf⟩
    rw [← totalValue_perm hperm, ← hcoin]
    simpa using le_totalValue_of_mem hmem fun c hc ↦ le_of_lt (hpos' c hc)
  · obtain ⟨fReturn, ret, hret, hiff, hf⟩ := selectFromScan_spec randbool (by simpa using hinv)
      hpos' hnodup' ht htc hmax'
    refine ⟨fReturn, ret.1, ret.2, by simp [SelectCoinsMinConf, hdone, hret], ?_,
      fun h ↦ hfunds ret (hf h)⟩
    rw [hiff, totalValue_perm hperm]

/-- A hash for the sample wallet transactions. -/
def sampleTxHash (b : UInt8) : Uint256 := ⟨List.replicate 32 b, List.length_replicate⟩

/-- Output `n` of a sample wallet transaction: six confirmations deep, spendable, and the
wallet's own. -/
def sampleOutput (n : UInt32) (nValue : ℤ) : COutput :=
  ⟨sampleTxHash 0x5c, true, n, nValue, 6, true⟩

/-- Two coins below the target plus `MIN_CHANGE` and one above. -/
def sampleCoins : List COutput :=
  [sampleOutput 0 3000000, sampleOutput 1 4000000, sampleOutput 2 20000000]

theorem SelectCoinsMinConf_funds_on_sample :
    ∃ fReturn setCoinsRet nValueRet,
      SelectCoinsMinConf 5000000 1 1 25 (fun _ _ ↦ true) sampleCoins id (fun _ _ _ ↦ true) =
        some (fReturn, setCoinsRet, nValueRet) ∧
      (fReturn = true ↔
        5000000 ≤ totalValue (eligibleCoins 1 1 25 (fun _ _ ↦ true) sampleCoins)) ∧
      (fReturn = true →
        (∀ c ∈ setCoinsRet, c ∈ eligibleCoins 1 1 25 (fun _ _ ↦ true) sampleCoins) ∧
        (setCoinsRet.map (·.outpoint)).Nodup ∧ nValueRet = totalValue setCoinsRet ∧
        5000000 ≤ nValueRet) :=
  SelectCoinsMinConf_funds 5000000 1 1 25 (fun _ _ ↦ true) sampleCoins id (fun _ _ _ ↦ true)
    (List.Perm.refl _) (by decide) (by decide) (by decide) (by decide) (by decide)

/-- A target one below `2 ^ 63` with a single eligible coin of value one: the target plus
`MIN_CHANGE` overflows, so the call has undefined behaviour instead of returning false. -/
theorem SelectCoinsMinConf_overflows_near_max :
    eligibleCoins 1 1 25 (fun _ _ ↦ true) [sampleOutput 0 1] = [(sampleOutput 0 1).coin] ∧
      SelectCoinsMinConf (2 ^ 63 - 1) 1 1 25 (fun _ _ ↦ true) [sampleOutput 0 1] id
        (fun _ _ _ ↦ false) = none := by
  decide

end LightningCash
