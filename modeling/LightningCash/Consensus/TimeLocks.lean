import LightningCash.Chain.Params
import LightningCash.Primitives.Transaction
import LightningCash.Lib.OrderStat
import LightningCash.Lib.Except

/-!
# Median time past and time locks (chain.h, consensus/tx_verify.cpp)

A pointer to a block index is the list of the entries from that block back to the genesis block,
as elsewhere in this development (`[]` is the null pointer). `GetMedianTimePast` sorts the times
of a block and of up to ten ancestors and takes the middle one; `ContextualCheckBlockHeader`
rejects a block whose time is not after its parent's median time past. Absolute lock times
(`IsFinalTx`) are checked against a height and a median time past, relative ones
(`SequenceLocks`) against the height of the block and the median time past of its parent.

## Main results

* `GetMedianTimePast_le_cons`: a block that passes the time-too-old rule has a median time past
  no earlier than its parent's. The window loses at most its oldest time and gains one that is
  not below the old median (`OrderStat`).
* `GetMedianTimePast_le_append`: along a chain of such blocks the median time past never
  decreases.
* `IsFinalTx_mono`, `SequenceLocks_descendant`: both locks are monotone in the height and in the
  median time past, and a descendant sees the same ancestors as the block it descends from, so a
  transaction final at a block stays final at every descendant.
-/

namespace LightningCash

/-! ## Chains of block indices -/

/-- `R` holds between every block of a chain that has a parent and the chain of its
ancestors. -/
def AlongChain (R : CBlockIndex → List CBlockIndex → Prop) : List CBlockIndex → Prop
  | [] => True
  | b :: pprev => (pprev ≠ [] → R b pprev) ∧ AlongChain R pprev

instance decAlongChain (R : CBlockIndex → List CBlockIndex → Prop)
    [∀ b pprev, Decidable (R b pprev)] : (l : List CBlockIndex) → Decidable (AlongChain R l)
  | [] => isTrue trivial
  | b :: pprev =>
    have := decAlongChain R pprev
    inferInstanceAs (Decidable ((pprev ≠ [] → R b pprev) ∧ AlongChain R pprev))

/-- Each entry is one higher than its parent (`nHeight = pprev->nHeight + 1`). -/
def HeightsLinked : List CBlockIndex → Prop :=
  AlongChain fun b pprev ↦ ∀ p ∈ pprev.head?, b.nHeight = p.nHeight + 1

instance (pindex : List CBlockIndex) : Decidable (HeightsLinked pindex) :=
  decAlongChain _ pindex

/-! ## Median time past (chain.h) -/

def nMedianTimeSpan : ℕ := 11

/-- The times `GetMedianTimePast()` sorts: those of the block and of up to ten ancestors, which
the loop stores from the back of the array, so oldest first. -/
def medianWindow (pindex : List CBlockIndex) : List ℤ :=
  ((pindex.take nMedianTimeSpan).map CBlockIndex.GetBlockTime).reverse

/-- `GetMedianTimePast()`: the middle element of the sorted window, the later one of the two
middle ones for an even count. It is never called on a null pointer. -/
def GetMedianTimePast (pindex : List CBlockIndex) : ℤ :=
  let pmedian := medianWindow pindex
  OrderStat.sortedAt 0 pmedian (pmedian.length / 2)

/-- The time-too-old rule of `ContextualCheckBlockHeader`. -/
def checkTimeTooOld (nTime : ℤ) (pindexPrev : List CBlockIndex) : Except String Unit :=
  if nTime ≤ GetMedianTimePast pindexPrev then .error "time-too-old" else .ok ()

/-- Every block of the chain passed the time-too-old rule against its parent. -/
def TimesAfterMedian : List CBlockIndex → Prop :=
  AlongChain fun b pprev ↦ (checkTimeTooOld b.GetBlockTime pprev).toBool = true

instance (pindex : List CBlockIndex) : Decidable (TimesAfterMedian pindex) :=
  decAlongChain _ pindex

/-- `GetAncestor(height)`: null outside `0 ≤ height ≤ nHeight`, otherwise the entry
`nHeight - height` steps back along `pprev` (the `pskip` shortcuts of the walk land on the same
entry). -/
def GetAncestor (pindex : List CBlockIndex) (height : ℤ) : List CBlockIndex :=
  match pindex with
  | [] => []
  | b :: _ => if height > b.nHeight ∨ height < 0 then [] else pindex.drop (b.nHeight - height).toNat

/-! ## Lock times (consensus/tx_verify.cpp) -/

/-- `LOCKTIME_THRESHOLD`: lock times below it are heights, the others times. -/
def LOCKTIME_THRESHOLD : ℤ := 500000000

/-- `LOCKTIME_VERIFY_SEQUENCE`. -/
def LOCKTIME_VERIFY_SEQUENCE : UInt32 := (1 : UInt32) <<< 0

def CTxIn.SEQUENCE_FINAL : UInt32 := 0xffffffff

def CTxIn.SEQUENCE_LOCKTIME_DISABLE_FLAG : UInt32 := (1 : UInt32) <<< 31

def CTxIn.SEQUENCE_LOCKTIME_TYPE_FLAG : UInt32 := (1 : UInt32) <<< 22

def CTxIn.SEQUENCE_LOCKTIME_MASK : UInt32 := 0x0000ffff

def CTxIn.SEQUENCE_LOCKTIME_GRANULARITY : UInt32 := 9

/-- `IsFinalTx`: no lock time, a lock time already passed, or every input final. -/
def IsFinalTx (tx : CTransaction) (nBlockHeight nBlockTime : ℤ) : Bool :=
  if tx.nLockTime = 0 then true
  else if (tx.nLockTime.toNat : ℤ) <
      (if (tx.nLockTime.toNat : ℤ) < LOCKTIME_THRESHOLD then nBlockHeight else nBlockTime) then
    true
  else tx.vin.all fun txin ↦ txin.nSequence == CTxIn.SEQUENCE_FINAL

/-- One input of `CalculateSequenceLocks`: the lock pair so far, and the input's entry of
`prevHeights` as the loop leaves it (zero for a disabled lock). -/
def sequenceLockStep (block : List CBlockIndex) (txin : CTxIn) (nCoinHeight : ℤ)
    (lock : ℤ × ℤ) : Except String ((ℤ × ℤ) × ℤ) :=
  if txin.nSequence &&& CTxIn.SEQUENCE_LOCKTIME_DISABLE_FLAG != 0 then .ok (lock, 0)
  else if txin.nSequence &&& CTxIn.SEQUENCE_LOCKTIME_TYPE_FLAG != 0 then
    -- a time lock counts from the median time past of the block before the coin's
    match GetAncestor block (max (nCoinHeight - 1) 0) with
    | [] => .error "null pointer dereference"
    | pancestor@(_ :: _) =>
      let nCoinTime := GetMedianTimePast pancestor
      let nLock := ((txin.nSequence &&& CTxIn.SEQUENCE_LOCKTIME_MASK) <<<
        CTxIn.SEQUENCE_LOCKTIME_GRANULARITY).toNat
      .ok ((lock.1, max lock.2 (nCoinTime + nLock - 1)), nCoinHeight)
  else
    let nLock := (txin.nSequence &&& CTxIn.SEQUENCE_LOCKTIME_MASK).toNat
    .ok ((max lock.1 (nCoinHeight + nLock - 1), lock.2), nCoinHeight)

/-- The loop of `CalculateSequenceLocks` over the inputs and their entries of `prevHeights`. -/
def sequenceLocksLoop (block : List CBlockIndex) :
    List (CTxIn × ℤ) → ℤ × ℤ → Except String ((ℤ × ℤ) × List ℤ)
  | [], lock => .ok (lock, [])
  | (txin, nCoinHeight) :: rest, lock => do
    let (lock, nHeight) ← sequenceLockStep block txin nCoinHeight lock
    let (lock, prevHeights) ← sequenceLocksLoop block rest lock
    pure (lock, nHeight :: prevHeights)

/-- `CalculateSequenceLocks`: the lock pair `(nMinHeight, nMinTime)` and `prevHeights` as the
function leaves it. -/
def CalculateSequenceLocks (tx : CTransaction) (flags : UInt32) (prevHeights : List ℤ)
    (block : List CBlockIndex) : Except String ((ℤ × ℤ) × List ℤ) :=
  if prevHeights.length ≠ tx.vin.length then
    .error "assertion failed: prevHeights->size() == tx.vin.size()"
  else
    let fEnforceBIP68 := tx.nVersion.toUInt32 ≥ 2 && flags &&& LOCKTIME_VERIFY_SEQUENCE != 0
    if !fEnforceBIP68 then .ok ((-1, -1), prevHeights)
    else sequenceLocksLoop block (tx.vin.zip prevHeights) (-1, -1)

def EvaluateSequenceLocks (block : List CBlockIndex) (lockPair : ℤ × ℤ) : Except String Bool :=
  match block with
  | [] => .error "null pointer dereference"
  | [_] => .error "assertion failed: block.pprev"
  | b :: pprev@(_ :: _) =>
    let nBlockTime := GetMedianTimePast pprev
    .ok !(lockPair.1 ≥ b.nHeight || lockPair.2 ≥ nBlockTime)

/-- `SequenceLocks`; the caller does not read `prevHeights` afterwards. -/
def SequenceLocks (tx : CTransaction) (flags : UInt32) (prevHeights : List ℤ)
    (block : List CBlockIndex) : Except String Bool := do
  let (lockPair, _) ← CalculateSequenceLocks tx flags prevHeights block
  EvaluateSequenceLocks block lockPair

/-! ## Chains -/

section Chains

variable {R : CBlockIndex → List CBlockIndex → Prop}

theorem AlongChain_cons {b : CBlockIndex} {pprev : List CBlockIndex} (hne : pprev ≠ []) :
    AlongChain R (b :: pprev) ↔ R b pprev ∧ AlongChain R pprev := by
  simp [AlongChain, hne]

theorem AlongChain.tail {b : CBlockIndex} {pprev : List CBlockIndex}
    (h : AlongChain R (b :: pprev)) : AlongChain R pprev :=
  h.2

theorem AlongChain.drop : ∀ {l : List CBlockIndex} (j : ℕ), AlongChain R l → AlongChain R (l.drop j)
  | [], _, h => by rwa [List.drop_nil]
  | _ :: _, 0, h => h
  | _ :: _, j + 1, h => AlongChain.drop j h.tail

/-- A descendant is as many heights above a block as there are blocks from it down to that
block. -/
theorem nHeight_descendant {d b : CBlockIndex} :
    ∀ {ext pprev : List CBlockIndex}, HeightsLinked (d :: ext ++ b :: pprev) →
      d.nHeight = b.nHeight + (ext.length + 1)
  | [], _, h => by
    have hd := h.1 (by simp) b (by simp)
    simp only [List.length_nil]
    omega
  | e :: ext, pprev, h => by
    have hd := h.1 (by simp) e (by simp)
    have he := nHeight_descendant (d := e) (AlongChain.tail h)
    simp only [List.length_cons]
    omega

/-- A descendant has the ancestors of a block at every height where the block has one. -/
theorem GetAncestor_descendant {d b : CBlockIndex} {ext pprev : List CBlockIndex}
    (h : HeightsLinked (d :: ext ++ b :: pprev)) {k : ℤ} (hk : GetAncestor (b :: pprev) k ≠ []) :
    GetAncestor (d :: ext ++ b :: pprev) k = GetAncestor (b :: pprev) k := by
  have hd := nHeight_descendant h
  simp only [GetAncestor, List.cons_append] at hk ⊢
  split_ifs at hk with hrange
  · exact absurd rfl hk
  rw [if_neg (by omega)]
  -- walking back from the descendant first passes the blocks down to `b`
  have hidx : (d.nHeight - k).toNat = (d :: ext).length + (b.nHeight - k).toNat := by
    simp only [List.length_cons]
    omega
  rw [hidx, ← List.cons_append, List.drop_length_add_append, if_neg hrange]

end Chains

/-! ## The median time past grows along a chain -/

theorem checkTimeTooOld_eq_ok {nTime : ℤ} {pindexPrev : List CBlockIndex} :
    (checkTimeTooOld nTime pindexPrev).toBool = true ↔ GetMedianTimePast pindexPrev < nTime := by
  unfold checkTimeTooOld
  split_ifs with h
  · simpa [Except.toBool] using h
  · simpa [Except.toBool] using h

/-- One block: the child's window drops at most the oldest time of the parent's and adds the
child's time, which is above the parent's median; so no more of the child's window lies below
that median than of the parent's, and the child's middle position is not earlier. -/
theorem GetMedianTimePast_le_cons {b : CBlockIndex} {pindex : List CBlockIndex}
    (hne : pindex ≠ []) (hb : GetMedianTimePast pindex < b.GetBlockTime) :
    GetMedianTimePast pindex ≤ GetMedianTimePast (b :: pindex) := by
  have hpos : 0 < pindex.length := List.length_pos_of_ne_nil hne
  have hlen : (medianWindow pindex).length = min 11 pindex.length := by
    simp [medianWindow, nMedianTimeSpan]
  have hlen' : (medianWindow (b :: pindex)).length = min 11 (pindex.length + 1) := by
    simp [medianWindow, nMedianTimeSpan]
    omega
  have hcount : OrderStat.countBelow (GetMedianTimePast pindex) (medianWindow (b :: pindex)) ≤
      (medianWindow pindex).length / 2 := by
    have hsub : (pindex.take 10).Sublist (pindex.take 11) := List.take_sublist_take_left (by omega)
    calc OrderStat.countBelow (GetMedianTimePast pindex) (medianWindow (b :: pindex))
        = OrderStat.countBelow (GetMedianTimePast pindex)
            ((pindex.take 10).map CBlockIndex.GetBlockTime) := by
          rw [medianWindow, OrderStat.countBelow_reverse, nMedianTimeSpan, List.take_succ_cons,
            List.map_cons, OrderStat.countBelow_cons_of_le hb.le]
      _ ≤ OrderStat.countBelow (GetMedianTimePast pindex)
            ((pindex.take 11).map CBlockIndex.GetBlockTime) :=
          OrderStat.Sublist.countBelow_le (hsub.map _) _
      _ = OrderStat.countBelow (GetMedianTimePast pindex) (medianWindow pindex) := by
          rw [medianWindow, OrderStat.countBelow_reverse, nMedianTimeSpan]
      _ ≤ (medianWindow pindex).length / 2 := OrderStat.countBelow_sortedAt_le (by omega) 0
  show GetMedianTimePast pindex ≤
    OrderStat.sortedAt 0 (medianWindow (b :: pindex)) ((medianWindow (b :: pindex)).length / 2)
  exact OrderStat.le_sortedAt_of_countBelow_le (by omega) (hcount.trans (by omega)) 0

/-- Along a chain of blocks that passed the time-too-old rule, the median time past never
decreases: induction on the blocks above `pindex`. -/
theorem GetMedianTimePast_le_append :
    ∀ (ext : List CBlockIndex) {pindex : List CBlockIndex}, pindex ≠ [] →
      TimesAfterMedian (ext ++ pindex) → GetMedianTimePast pindex ≤ GetMedianTimePast (ext ++ pindex)
  | [], _, _, _ => le_rfl
  | b :: ext, pindex, hne, ht => by
    have hne' : ext ++ pindex ≠ [] := by simp [hne]
    rw [List.cons_append] at ht ⊢
    obtain ⟨hb, ht'⟩ := (AlongChain_cons hne').mp ht
    exact (GetMedianTimePast_le_append ext hne ht').trans
      (GetMedianTimePast_le_cons hne' (checkTimeTooOld_eq_ok.mp hb))

/-- The parent of a descendant of `b` has a median time past no earlier than `b`'s parent. -/
theorem GetMedianTimePast_le_descendant {b : CBlockIndex} {ext pprev : List CBlockIndex}
    (hne : pprev ≠ []) (ht : TimesAfterMedian (ext ++ b :: pprev)) :
    GetMedianTimePast pprev ≤ GetMedianTimePast (ext ++ b :: pprev) := by
  have h := GetMedianTimePast_le_append (ext ++ [b]) hne (by simpa using ht)
  simpa using h

/-- An ancestor's median time past is no later than its descendant's. -/
theorem GetMedianTimePast_drop_le {pindex : List CBlockIndex} (ht : TimesAfterMedian pindex)
    {j : ℕ} (hne : pindex.drop j ≠ []) :
    GetMedianTimePast (pindex.drop j) ≤ GetMedianTimePast pindex := by
  have h := GetMedianTimePast_le_append (pindex.take j) hne (by rwa [List.take_append_drop])
  rwa [List.take_append_drop] at h

/-! ## Time locks at a descendant -/

/-- A transaction final at a height and a time is final at any later height and time: a lock
time already passed stays passed, and the other cases do not read them. -/
theorem IsFinalTx_mono {tx : CTransaction} {nBlockHeight nBlockHeight' nBlockTime nBlockTime' : ℤ}
    (hh : nBlockHeight ≤ nBlockHeight') (ht : nBlockTime ≤ nBlockTime')
    (hfin : IsFinalTx tx nBlockHeight nBlockTime = true) :
    IsFinalTx tx nBlockHeight' nBlockTime' = true := by
  unfold IsFinalTx at hfin ⊢
  by_cases h0 : tx.nLockTime = 0
  · rw [if_pos h0]
  rw [if_neg h0] at hfin ⊢
  by_cases hpast : (tx.nLockTime.toNat : ℤ) <
      (if (tx.nLockTime.toNat : ℤ) < LOCKTIME_THRESHOLD then nBlockHeight else nBlockTime)
  · have hpast' : (tx.nLockTime.toNat : ℤ) <
        (if (tx.nLockTime.toNat : ℤ) < LOCKTIME_THRESHOLD then nBlockHeight' else nBlockTime') := by
      split_ifs at hpast ⊢ <;> omega
    rw [if_pos hpast']
  · -- every input was final, whatever the block
    rw [if_neg hpast] at hfin
    by_cases hpast' : (tx.nLockTime.toNat : ℤ) <
        (if (tx.nLockTime.toNat : ℤ) < LOCKTIME_THRESHOLD then nBlockHeight' else nBlockTime')
    · rw [if_pos hpast']
    · rw [if_neg hpast']
      exact hfin

section Descendant

variable {d b : CBlockIndex} {ext pprev : List CBlockIndex}

/-- A relative lock of one input reads at most an ancestor of the block, which the descendant
shares. -/
theorem sequenceLockStep_descendant (h : HeightsLinked (d :: ext ++ b :: pprev)) {txin : CTxIn}
    {nCoinHeight : ℤ} {lock : ℤ × ℤ} {r : (ℤ × ℤ) × ℤ}
    (hstep : sequenceLockStep (b :: pprev) txin nCoinHeight lock = .ok r) :
    sequenceLockStep (d :: ext ++ b :: pprev) txin nCoinHeight lock = .ok r := by
  unfold sequenceLockStep at hstep ⊢
  split_ifs at hstep ⊢ with hdisable htype
  · exact hstep
  · have hanc : GetAncestor (b :: pprev) (max (nCoinHeight - 1) 0) ≠ [] := by
      intro hnil
      rw [hnil] at hstep
      cases hstep
    rw [GetAncestor_descendant h hanc]
    exact hstep
  · exact hstep

theorem sequenceLocksLoop_descendant (h : HeightsLinked (d :: ext ++ b :: pprev)) :
    ∀ (inputs : List (CTxIn × ℤ)) (lock : ℤ × ℤ) (r : (ℤ × ℤ) × List ℤ),
      sequenceLocksLoop (b :: pprev) inputs lock = .ok r →
        sequenceLocksLoop (d :: ext ++ b :: pprev) inputs lock = .ok r
  | [], _, _, hloop => hloop
  | (txin, nCoinHeight) :: rest, lock, r, hloop => by
    obtain ⟨⟨lock', nHeight⟩, hstep, hrest⟩ := Except.bind_eq_ok.mp hloop
    dsimp only at hrest
    obtain ⟨⟨lock'', prevHeights⟩, hrest', hpure⟩ := Except.bind_eq_ok.mp hrest
    rw [sequenceLocksLoop, sequenceLockStep_descendant h hstep, Except.ok_bind]
    dsimp only
    rw [sequenceLocksLoop_descendant h rest lock' _ hrest', Except.ok_bind]
    exact hpure

/-- The lock pair computed at a block is the one computed at each of its descendants. -/
theorem CalculateSequenceLocks_descendant (h : HeightsLinked (d :: ext ++ b :: pprev))
    {tx : CTransaction} {flags : UInt32} {prevHeights : List ℤ} {r : (ℤ × ℤ) × List ℤ}
    (hcalc : CalculateSequenceLocks tx flags prevHeights (b :: pprev) = .ok r) :
    CalculateSequenceLocks tx flags prevHeights (d :: ext ++ b :: pprev) = .ok r := by
  unfold CalculateSequenceLocks at hcalc ⊢
  dsimp only at hcalc ⊢
  -- a failed size assertion is no success; without BIP68 the block is not read
  split_ifs at hcalc ⊢
  · exact hcalc
  · exact sequenceLocksLoop_descendant h _ _ _ hcalc

theorem EvaluateSequenceLocks_cons (hne : pprev ≠ []) (lockPair : ℤ × ℤ) :
    EvaluateSequenceLocks (b :: pprev) lockPair =
      .ok !(lockPair.1 ≥ b.nHeight || lockPair.2 ≥ GetMedianTimePast pprev) := by
  obtain ⟨p, rest, rfl⟩ := List.exists_cons_of_ne_nil hne
  rfl

/-- A lock pair satisfied at a block is satisfied at each descendant: a greater height, and a
parent whose median time past is no earlier. -/
theorem EvaluateSequenceLocks_descendant (hne : pprev ≠ [])
    (hh : HeightsLinked (d :: ext ++ b :: pprev)) (ht : TimesAfterMedian (d :: ext ++ b :: pprev))
    {lockPair : ℤ × ℤ} (heval : EvaluateSequenceLocks (b :: pprev) lockPair = .ok true) :
    EvaluateSequenceLocks (d :: ext ++ b :: pprev) lockPair = .ok true := by
  have hd := nHeight_descendant hh
  have hmtp := GetMedianTimePast_le_descendant hne (AlongChain.tail ht)
  rw [EvaluateSequenceLocks_cons hne] at heval
  rw [List.cons_append, EvaluateSequenceLocks_cons (by simp)]
  simp only [Except.ok.injEq, Bool.not_eq_eq_eq_not, Bool.not_true, Bool.or_eq_false_iff,
    decide_eq_false_iff_not, not_le] at heval ⊢
  exact ⟨by omega, by omega⟩

theorem SequenceLocks_descendant (hne : pprev ≠ []) (hh : HeightsLinked (d :: ext ++ b :: pprev))
    (ht : TimesAfterMedian (d :: ext ++ b :: pprev)) {tx : CTransaction} {flags : UInt32}
    {prevHeights : List ℤ} (hlocks : SequenceLocks tx flags prevHeights (b :: pprev) = .ok true) :
    SequenceLocks tx flags prevHeights (d :: ext ++ b :: pprev) = .ok true := by
  obtain ⟨⟨lockPair, prevHeights'⟩, hcalc, heval⟩ := Except.bind_eq_ok.mp hlocks
  rw [SequenceLocks, CalculateSequenceLocks_descendant hh hcalc, Except.ok_bind]
  exact EvaluateSequenceLocks_descendant hne hh ht heval

end Descendant

/-- Time locks are monotone along a chain whose blocks passed the time-too-old rule: the median
time past never decreases from parent to child, and a transaction that is final at a block `b`,
by its lock time against the median time past of `b`'s parent or by its relative locks, is final
at every descendant `d` of `b`. -/
theorem MedianTimePast_timeLocks_monotone :
    (∀ (b : CBlockIndex) (pprev : List CBlockIndex), pprev ≠ [] →
        TimesAfterMedian (b :: pprev) → GetMedianTimePast pprev ≤ GetMedianTimePast (b :: pprev)) ∧
      ∀ (d : CBlockIndex) (ext : List CBlockIndex) (b : CBlockIndex) (pprev : List CBlockIndex),
        pprev ≠ [] → HeightsLinked (d :: ext ++ b :: pprev) →
          TimesAfterMedian (d :: ext ++ b :: pprev) →
          (∀ tx : CTransaction, IsFinalTx tx b.nHeight (GetMedianTimePast pprev) = true →
              IsFinalTx tx d.nHeight (GetMedianTimePast (ext ++ b :: pprev)) = true) ∧
            ∀ (tx : CTransaction) (flags : UInt32) (prevHeights : List ℤ),
              SequenceLocks tx flags prevHeights (b :: pprev) = .ok true →
                SequenceLocks tx flags prevHeights (d :: ext ++ b :: pprev) = .ok true := by
  refine ⟨fun b pprev hne ht ↦ ?_, fun d ext b pprev hne hh ht ↦ ⟨fun tx hfin ↦ ?_, ?_⟩⟩
  · exact GetMedianTimePast_le_cons hne (checkTimeTooOld_eq_ok.mp ((AlongChain_cons hne).mp ht).1)
  · -- a greater height, and a parent whose median time past is no earlier
    have hd := nHeight_descendant hh
    have hmtp := GetMedianTimePast_le_descendant hne (AlongChain.tail ht)
    exact IsFinalTx_mono (by omega) hmtp hfin
  · intro tx flags prevHeights hlocks
    exact SequenceLocks_descendant hne hh ht hlocks

/-- Three blocks a hundred seconds apart: the median time past grows from the genesis block to
its child, and a transaction time-locked before the genesis block's time, with an input that is
not final, is final at the child and at the grandchild. -/
theorem MedianTimePast_timeLocks_monotone_on_three_blocks :
    GetMedianTimePast [⟨0, 500000100, 0, 0⟩] ≤
        GetMedianTimePast [⟨1, 500000200, 0, 0⟩, ⟨0, 500000100, 0, 0⟩] ∧
      IsFinalTx ⟨2, [⟨⟨⟨List.replicate 32 0, by simp⟩, 0⟩, [], 0, []⟩], [], 500000050⟩ 2
        (GetMedianTimePast [⟨1, 500000200, 0, 0⟩, ⟨0, 500000100, 0, 0⟩]) = true :=
  ⟨MedianTimePast_timeLocks_monotone.1 _ _ (by simp) (by decide +kernel),
    (MedianTimePast_timeLocks_monotone.2 ⟨2, 500000300, 0, 0⟩ [] _ _ (by simp) (by decide +kernel)
      (by decide +kernel)).1 _ (by decide +kernel)⟩

end LightningCash
