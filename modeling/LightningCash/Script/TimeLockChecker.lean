import LightningCash.Script.Interpreter
import LightningCash.Consensus.TimeLocks
import LightningCash.Lib.Refines

/-!
# The lock-time checks of a spending transaction (script/interpreter.cpp)

`OP_CHECKLOCKTIMEVERIFY` and `OP_CHECKSEQUENCEVERIFY` do not read the chain: they ask the
signature checker whether the spending transaction itself carries a lock at least as strict as
the one the script names. `TransactionSignatureChecker` answers from the transaction `txTo` and
the index `nIn` of the input being verified. The chain enforces the transaction's own locks
elsewhere: `IsFinalTx` for the absolute lock time, `SequenceLocks` (BIP68) for the relative
ones. Only the two together make the script's lock binding.

`CheckSequence` computes in `int64_t`: the masks are `uint32_t` constants widened, and the
script's number is masked with two's complement `&`, here `Int.land`. A masked sequence is a
type bit (bit 22, time rather than blocks) above a 16-bit count; the lemmas of the first
section split every masked value into these two parts, so that the comparisons of the source
become comparisons of counts of one type.

## Main results

* `opCheckLockTimeVerify_sound`: once `OP_CHECKLOCKTIMEVERIFY` has passed for a lock `n`, the
  spending transaction is final only at blocks past `n`: at a height above `n` for a height
  lock, at a median time past after `n` for a time lock.
* `opCheckSequenceVerify_sound`: once `OP_CHECKSEQUENCEVERIFY` has passed for a lock `n` with
  its disable bit clear, a block in which the transaction's sequence locks hold (with BIP68
  enforced) is at least `n` blocks above the spent coin, or at least `512 * n` seconds of median
  time past after the block before it.
-/

namespace LightningCash

/-! ## Masks of a sequence number -/

section Masks

@[simp] theorem toNat_SEQUENCE_LOCKTIME_TYPE_FLAG :
    CTxIn.SEQUENCE_LOCKTIME_TYPE_FLAG.toNat = 2 ^ 22 := rfl

@[simp] theorem toNat_SEQUENCE_LOCKTIME_MASK : CTxIn.SEQUENCE_LOCKTIME_MASK.toNat = 2 ^ 16 - 1 :=
  rfl

@[simp] theorem toNat_SEQUENCE_LOCKTIME_DISABLE_FLAG :
    CTxIn.SEQUENCE_LOCKTIME_DISABLE_FLAG.toNat = 2 ^ 31 := rfl

@[simp] theorem toNat_type_or_mask :
    (CTxIn.SEQUENCE_LOCKTIME_TYPE_FLAG ||| CTxIn.SEQUENCE_LOCKTIME_MASK).toNat = 4259839 := rfl

/-- The type bit of a masked sequence number. -/
theorem land_typeMask_div (x : ℕ) : (x &&& 4259839) / 2 ^ 22 = x / 2 ^ 22 % 2 := by
  rw [Nat.and_div_two_pow, show 4259839 / 2 ^ 22 = 1 by norm_num, Nat.and_one_is_mod]

/-- The count of a masked sequence number. -/
theorem land_typeMask_mod (x : ℕ) : (x &&& 4259839) % 2 ^ 22 = x % 2 ^ 16 := by
  rw [Nat.and_mod_two_pow, show 4259839 % 2 ^ 22 = 2 ^ 16 - 1 by norm_num,
    Nat.and_two_pow_sub_one_eq_mod, Nat.mod_mod_of_dvd _ (by norm_num)]

/-- A masked sequence number is its type bit above its count. -/
theorem land_typeMask_eq (x : ℕ) : x &&& 4259839 = x / 2 ^ 22 % 2 * 2 ^ 22 + x % 2 ^ 16 := by
  rw [← land_typeMask_div, ← land_typeMask_mod, Nat.div_add_mod']

theorem land_typeFlag_eq (x : ℕ) : x &&& 2 ^ 22 = x / 2 ^ 22 % 2 * 2 ^ 22 := by
  have hdiv : (x &&& 2 ^ 22) / 2 ^ 22 = x / 2 ^ 22 % 2 := by
    rw [Nat.and_div_two_pow, Nat.div_self (by norm_num), Nat.and_one_is_mod]
  have hmod : (x &&& 2 ^ 22) % 2 ^ 22 = 0 := by
    rw [Nat.and_mod_two_pow, Nat.mod_self, Nat.and_zero]
  rw [← hdiv, ← Nat.div_add_mod' (x &&& 2 ^ 22) (2 ^ 22), hmod, Nat.add_zero,
    Nat.mul_div_cancel _ (by norm_num)]

/-- The relative time lock of an input, in seconds: the count shifted by the granularity, which
never overflows. -/
theorem toNat_mask_shiftLeft_granularity (nSequence : UInt32) :
    ((nSequence &&& CTxIn.SEQUENCE_LOCKTIME_MASK) <<< CTxIn.SEQUENCE_LOCKTIME_GRANULARITY).toNat =
      nSequence.toNat % 2 ^ 16 * 2 ^ 9 := by
  have hlt : nSequence.toNat % 2 ^ 16 * 2 ^ 9 < 2 ^ 32 := by omega
  rw [UInt32.toNat_shiftLeft, UInt32.toNat_and, toNat_SEQUENCE_LOCKTIME_MASK,
    Nat.and_two_pow_sub_one_eq_mod, show CTxIn.SEQUENCE_LOCKTIME_GRANULARITY.toNat % 32 = 9 from rfl,
    Nat.shiftLeft_eq, Nat.mod_eq_of_lt hlt]

/-- `int64_t` masking of a number that is not negative is masking of naturals. -/
theorem land_natCast (m n : ℕ) : Int.land (m : ℤ) (n : ℤ) = ((m &&& n : ℕ) : ℤ) := rfl

end Masks

/-! ## The checker -/

/-- `TransactionSignatureChecker`: the spending transaction and the index of the input whose
scripts run, an input the transaction has. -/
structure TransactionSignatureChecker where
  txTo : CTransaction
  nIn : ℕ
  nIn_lt : nIn < txTo.vin.length

namespace TransactionSignatureChecker

variable (c : TransactionSignatureChecker)

/-- `txTo->vin[nIn]`. -/
def txin : CTxIn := c.txTo.vin.get ⟨c.nIn, c.nIn_lt⟩

/-- `CheckLockTime(nLockTime)`: the script's lock and the transaction's are of one kind (heights
or times), the script's is not the later, and the input is not final, which would switch the
transaction's lock time off. -/
def CheckLockTime (nLockTime : ℤ) : Bool :=
  let txLockTime : ℤ := c.txTo.nLockTime.toNat
  if ¬((txLockTime < LOCKTIME_THRESHOLD ∧ nLockTime < LOCKTIME_THRESHOLD) ∨
      (txLockTime ≥ LOCKTIME_THRESHOLD ∧ nLockTime ≥ LOCKTIME_THRESHOLD)) then false
  else if nLockTime > txLockTime then false
  else if CTxIn.SEQUENCE_FINAL = c.txin.nSequence then false
  else true

/-- `CheckSequence(nSequence)`, in `int64_t`: a version 2 transaction whose input has its
relative lock on, of the script's type, and no shorter. -/
def CheckSequence (nSequence : ℤ) : Bool :=
  let txToSequence : ℤ := c.txin.nSequence.toNat
  if c.txTo.nVersion.toUInt32 < 2 then false
  else if Int.land txToSequence CTxIn.SEQUENCE_LOCKTIME_DISABLE_FLAG.toNat ≠ 0 then false
  else
    let nLockTimeMask : UInt32 :=
      CTxIn.SEQUENCE_LOCKTIME_TYPE_FLAG ||| CTxIn.SEQUENCE_LOCKTIME_MASK
    let txToSequenceMasked := Int.land txToSequence nLockTimeMask.toNat
    let nSequenceMasked := Int.land nSequence nLockTimeMask.toNat
    let typeFlag : ℤ := CTxIn.SEQUENCE_LOCKTIME_TYPE_FLAG.toNat
    if ¬((txToSequenceMasked < typeFlag ∧ nSequenceMasked < typeFlag) ∨
        (txToSequenceMasked ≥ typeFlag ∧ nSequenceMasked ≥ typeFlag)) then false
    else if nSequenceMasked > txToSequenceMasked then false
    else true

/-- The checker the interpreter is handed; the signature check is not modelled here. -/
def toBase (CheckSig : valtype → valtype → List UInt8 → SigVersion → Bool) :
    BaseSignatureChecker where
  CheckSig := CheckSig
  CheckLockTime := c.CheckLockTime
  CheckSequence := c.CheckSequence

theorem txin_mem : c.txin ∈ c.txTo.vin := List.get_mem _ _

/-- What a passed `CheckLockTime` says of the transaction. -/
theorem CheckLockTime_eq_true {c : TransactionSignatureChecker} {nLockTime : ℤ}
    (h : c.CheckLockTime nLockTime = true) :
    (nLockTime < LOCKTIME_THRESHOLD ↔ (c.txTo.nLockTime.toNat : ℤ) < LOCKTIME_THRESHOLD) ∧
      nLockTime ≤ c.txTo.nLockTime.toNat ∧ c.txin.nSequence ≠ CTxIn.SEQUENCE_FINAL := by
  simp only [CheckLockTime] at h
  split_ifs at h with hkind hlater hfinal
  exact ⟨by omega, by omega, Ne.symm hfinal⟩

/-- What a passed `CheckSequence` says of the transaction, in the counts and type bits of the
two sequence numbers. -/
theorem CheckSequence_eq_true {c : TransactionSignatureChecker} {n : ℕ}
    (h : c.CheckSequence n = true) :
    2 ≤ c.txTo.nVersion.toUInt32 ∧ c.txin.nSequence.toNat &&& 2 ^ 31 = 0 ∧
      n / 2 ^ 22 % 2 = c.txin.nSequence.toNat / 2 ^ 22 % 2 ∧
      n % 2 ^ 16 ≤ c.txin.nSequence.toNat % 2 ^ 16 := by
  unfold CheckSequence at h
  dsimp only at h
  -- each test of the source that fails the check makes `h` read `false = true`
  split at h
  · cases h
  split at h
  · cases h
  split at h
  · cases h
  split at h
  · cases h
  rename_i hversion hdisable hkind hlonger
  simp only [toNat_SEQUENCE_LOCKTIME_DISABLE_FLAG, toNat_type_or_mask,
    toNat_SEQUENCE_LOCKTIME_TYPE_FLAG, land_natCast] at hdisable hkind hlonger
  have hn := land_typeMask_eq n
  have hs := land_typeMask_eq c.txin.nSequence.toNat
  refine ⟨by simpa using hversion, by exact_mod_cast not_not.mp hdisable, ?_, ?_⟩ <;> omega

end TransactionSignatureChecker

/-! ## The opcodes -/

section Opcodes

variable {ctx : ScriptContext} {top : valtype} {rest : List valtype} {n : ℤ}

/-- A passed `OP_CHECKLOCKTIMEVERIFY` under its flag: a lock that is not negative and that the
checker accepts. -/
theorem opCheckLockTimeVerify_eq_ok
    (hflag : hasFlag ctx.flags SCRIPT_VERIFY_CHECKLOCKTIMEVERIFY = true)
    (hop : opCheckLockTimeVerify ctx (top :: rest) = .ok ())
    (hn : scriptNum top (hasFlag ctx.flags SCRIPT_VERIFY_MINIMALDATA) 5 = .ok n) :
    0 ≤ n ∧ ctx.checker.CheckLockTime n = true := by
  by_cases hneg : n < 0
  · simp [opCheckLockTimeVerify, hflag, hn, hneg, Except.throw_eq_error] at hop
  · refine ⟨by omega, ?_⟩
    by_contra hcheck
    simp [opCheckLockTimeVerify, hflag, hn, hneg, hcheck] at hop

/-- A passed `OP_CHECKSEQUENCEVERIFY` under its flag, for a lock whose disable bit is clear: a
lock that is not negative and that the checker accepts. -/
theorem opCheckSequenceVerify_eq_ok
    (hflag : hasFlag ctx.flags SCRIPT_VERIFY_CHECKSEQUENCEVERIFY = true)
    (hop : opCheckSequenceVerify ctx (top :: rest) = .ok ())
    (hn : scriptNum top (hasFlag ctx.flags SCRIPT_VERIFY_MINIMALDATA) 5 = .ok n)
    (hdisable : n.toNat.testBit SEQUENCE_LOCKTIME_DISABLE_BIT = false) :
    0 ≤ n ∧ ctx.checker.CheckSequence n = true := by
  by_cases hneg : n < 0
  · simp [opCheckSequenceVerify, hflag, hn, hneg, Except.throw_eq_error] at hop
  · refine ⟨by omega, ?_⟩
    by_contra hcheck
    simp [opCheckSequenceVerify, hflag, hn, hneg, hdisable, hcheck] at hop

end Opcodes

/-! ## The chain's side of the locks -/

section ChainLocks

/-- What a final transaction is: no lock time, a lock time already passed, or every input
final. -/
theorem IsFinalTx_eq_true {tx : CTransaction} {nBlockHeight nBlockTime : ℤ}
    (h : IsFinalTx tx nBlockHeight nBlockTime = true) :
    tx.nLockTime = 0 ∨
      (tx.nLockTime.toNat : ℤ) <
        (if (tx.nLockTime.toNat : ℤ) < LOCKTIME_THRESHOLD then nBlockHeight else nBlockTime) ∨
      ∀ txin ∈ tx.vin, txin.nSequence = CTxIn.SEQUENCE_FINAL := by
  unfold IsFinalTx at h
  by_cases hzero : tx.nLockTime = 0
  · exact .inl hzero
  by_cases hpast : (tx.nLockTime.toNat : ℤ) <
      (if (tx.nLockTime.toNat : ℤ) < LOCKTIME_THRESHOLD then nBlockHeight else nBlockTime)
  · exact .inr (.inl hpast)
  rw [if_neg hzero, if_neg hpast, List.all_eq_true] at h
  exact .inr (.inr fun txin hin => beq_iff_eq.mp (h txin hin))

variable {block : List CBlockIndex} {txin : CTxIn} {nCoinHeight : ℤ} {lock : ℤ × ℤ}

/-- One input only raises the lock pair. -/
theorem sequenceLockStep_mono {r : (ℤ × ℤ) × ℤ}
    (h : sequenceLockStep block txin nCoinHeight lock = .ok r) :
    lock.1 ≤ r.1.1 ∧ lock.2 ≤ r.1.2 := by
  unfold sequenceLockStep at h
  split_ifs at h
  · cases h
    exact ⟨le_rfl, le_rfl⟩
  · split at h
    · cases h
    · cases h
      exact ⟨le_rfl, le_max_left _ _⟩
  · cases h
    exact ⟨le_max_left _ _, le_rfl⟩

/-- An input with its relative lock on raises the lock pair to its own lock: the coin's height
plus the count, or the median time past before the coin plus the count in units of 512
seconds, less one. -/
theorem sequenceLockStep_bound {r : (ℤ × ℤ) × ℤ}
    (h : sequenceLockStep block txin nCoinHeight lock = .ok r)
    (hon : txin.nSequence &&& CTxIn.SEQUENCE_LOCKTIME_DISABLE_FLAG = 0) :
    (txin.nSequence &&& CTxIn.SEQUENCE_LOCKTIME_TYPE_FLAG = 0 →
      nCoinHeight + (txin.nSequence &&& CTxIn.SEQUENCE_LOCKTIME_MASK).toNat - 1 ≤ r.1.1) ∧
    (txin.nSequence &&& CTxIn.SEQUENCE_LOCKTIME_TYPE_FLAG ≠ 0 →
      GetMedianTimePast (GetAncestor block (max (nCoinHeight - 1) 0)) +
        ((txin.nSequence &&& CTxIn.SEQUENCE_LOCKTIME_MASK) <<<
          CTxIn.SEQUENCE_LOCKTIME_GRANULARITY).toNat - 1 ≤ r.1.2) := by
  unfold sequenceLockStep at h
  rw [hon] at h
  split_ifs at h with hoff htype
  · simp at hoff
  · -- a time lock, read off the median time past before the coin
    refine ⟨fun h0 => absurd h0 (by simpa using htype), fun _ => ?_⟩
    split at h
    · cases h
    · rename_i pancestor _ hanc
      cases h
      rw [hanc]
      exact le_max_right _ _
  · -- a height lock
    refine ⟨fun _ => ?_, fun h0 => absurd (by simpa using htype) h0⟩
    cases h
    exact le_max_right _ _

/-- The loop only raises the lock pair. -/
theorem sequenceLocksLoop_mono :
    ∀ (inputs : List (CTxIn × ℤ)) (lock : ℤ × ℤ) (r : (ℤ × ℤ) × List ℤ),
      sequenceLocksLoop block inputs lock = .ok r → lock.1 ≤ r.1.1 ∧ lock.2 ≤ r.1.2
  | [], _, _, hloop => by
    cases hloop
    exact ⟨le_rfl, le_rfl⟩
  | (txin, nCoinHeight) :: rest, lock, r, hloop => by
    obtain ⟨⟨lock', nHeight⟩, hstep, hrest⟩ := Except.bind_eq_ok.mp hloop
    dsimp only at hrest
    obtain ⟨⟨lock'', prevHeights⟩, hrest', hpure⟩ := Except.bind_eq_ok.mp hrest
    cases hpure
    have h₁ := sequenceLockStep_mono hstep
    have h₂ := sequenceLocksLoop_mono rest lock' _ hrest'
    exact ⟨h₁.1.trans h₂.1, h₁.2.trans h₂.2⟩

/-- The lock pair of the loop is at least the lock of every input with its relative lock on. -/
theorem sequenceLocksLoop_bound :
    ∀ (inputs : List (CTxIn × ℤ)) (lock : ℤ × ℤ) (r : (ℤ × ℤ) × List ℤ),
      sequenceLocksLoop block inputs lock = .ok r → (txin, nCoinHeight) ∈ inputs →
      txin.nSequence &&& CTxIn.SEQUENCE_LOCKTIME_DISABLE_FLAG = 0 →
      (txin.nSequence &&& CTxIn.SEQUENCE_LOCKTIME_TYPE_FLAG = 0 →
        nCoinHeight + (txin.nSequence &&& CTxIn.SEQUENCE_LOCKTIME_MASK).toNat - 1 ≤ r.1.1) ∧
      (txin.nSequence &&& CTxIn.SEQUENCE_LOCKTIME_TYPE_FLAG ≠ 0 →
        GetMedianTimePast (GetAncestor block (max (nCoinHeight - 1) 0)) +
          ((txin.nSequence &&& CTxIn.SEQUENCE_LOCKTIME_MASK) <<<
            CTxIn.SEQUENCE_LOCKTIME_GRANULARITY).toNat - 1 ≤ r.1.2)
  | [], _, _, _, hmem, _ => absurd hmem List.not_mem_nil
  | (txin', nCoinHeight') :: rest, lock, r, hloop, hmem, hon => by
    obtain ⟨⟨lock', nHeight⟩, hstep, hrest⟩ := Except.bind_eq_ok.mp hloop
    dsimp only at hrest
    obtain ⟨⟨lock'', prevHeights⟩, hrest', hpure⟩ := Except.bind_eq_ok.mp hrest
    cases hpure
    rcases List.mem_cons.mp hmem with heq | hmem
    · -- the input itself, then the rest of the loop raises its lock further
      cases heq
      have hb := sequenceLockStep_bound hstep hon
      have hm := sequenceLocksLoop_mono rest lock' _ hrest'
      exact ⟨fun h0 => (hb.1 h0).trans hm.1, fun h0 => (hb.2 h0).trans hm.2⟩
    · exact sequenceLocksLoop_bound rest lock' (lock'', prevHeights) hrest' hmem hon

/-- Sequence locks that hold at a block: the lock pair, enforced, is below the block's height
and its parent's median time past. -/
theorem SequenceLocks_eq_ok_true {tx : CTransaction} {flags : UInt32} {prevHeights : List ℤ}
    {b : CBlockIndex} {pprev : List CBlockIndex}
    (hversion : 2 ≤ tx.nVersion.toUInt32) (hbip68 : flags &&& LOCKTIME_VERIFY_SEQUENCE ≠ 0)
    (h : SequenceLocks tx flags prevHeights (b :: pprev) = .ok true) :
    prevHeights.length = tx.vin.length ∧
      ∃ r, sequenceLocksLoop (b :: pprev) (tx.vin.zip prevHeights) (-1, -1) = .ok r ∧
        r.1.1 < b.nHeight ∧ r.1.2 < GetMedianTimePast pprev := by
  obtain ⟨⟨lockPair, prevHeights'⟩, hcalc, heval⟩ := Except.bind_eq_ok.mp h
  dsimp only at heval
  unfold CalculateSequenceLocks at hcalc
  split_ifs at hcalc with hlen
  have henforce : (tx.nVersion.toUInt32 ≥ 2 && flags &&& LOCKTIME_VERIFY_SEQUENCE != 0) = true := by
    simpa [hversion] using hbip68
  simp only [henforce, Bool.not_true, Bool.false_eq_true, if_false] at hcalc
  cases pprev with
  | nil => cases heval
  | cons p rest =>
    rw [EvaluateSequenceLocks_cons (List.cons_ne_nil p rest)] at heval
    simp only [Except.ok.injEq, Bool.not_eq_eq_eq_not, Bool.not_true, Bool.or_eq_false_iff,
      decide_eq_false_iff_not, not_le] at heval
    exact ⟨not_not.mp hlen, _, hcalc, heval⟩

end ChainLocks

/-! ## The script's locks are binding -/

section Soundness

variable (c : TransactionSignatureChecker) {ctx : ScriptContext} {top : valtype}
  {rest : List valtype} {n : ℤ}

/-- **`OP_CHECKLOCKTIMEVERIFY` is sound.** If the opcode passed for the lock `n` with the
transaction's checker, the transaction is final only at a block past `n`: a height above `n` for
a height lock, a time after `n` for a time lock. The block's height is above zero, as every
block's but the genesis block's is. -/
theorem opCheckLockTimeVerify_sound (hchecker : ctx.checker.CheckLockTime = c.CheckLockTime)
    (hflag : hasFlag ctx.flags SCRIPT_VERIFY_CHECKLOCKTIMEVERIFY = true)
    (hop : opCheckLockTimeVerify ctx (top :: rest) = .ok ())
    (hn : scriptNum top (hasFlag ctx.flags SCRIPT_VERIFY_MINIMALDATA) 5 = .ok n)
    {nBlockHeight nBlockTime : ℤ} (hheight : 0 < nBlockHeight)
    (hfinal : IsFinalTx c.txTo nBlockHeight nBlockTime = true) :
    n < if n < LOCKTIME_THRESHOLD then nBlockHeight else nBlockTime := by
  obtain ⟨hpos, hcheck⟩ := opCheckLockTimeVerify_eq_ok hflag hop hn
  rw [hchecker] at hcheck
  obtain ⟨hkind, hle, hnotfinal⟩ := TransactionSignatureChecker.CheckLockTime_eq_true hcheck
  rcases IsFinalTx_eq_true hfinal with hzero | hpast | hall
  · -- no lock time on the transaction: the script's lock is the height zero
    rw [hzero, UInt32.toNat_zero, Nat.cast_zero] at hle
    rw [if_pos (by unfold LOCKTIME_THRESHOLD; omega)]
    omega
  · -- the transaction's lock has passed, and the script's is of its kind and no later
    by_cases hk : n < LOCKTIME_THRESHOLD
    · rw [if_pos (hkind.mp hk)] at hpast
      rw [if_pos hk]
      omega
    · rw [if_neg (mt hkind.mpr hk)] at hpast
      rw [if_neg hk]
      omega
  · -- every input final: not the one whose script runs
    exact absurd (hall _ c.txin_mem) hnotfinal

/-- A transaction locked until height 100, whose only input is not final. -/
def lockedTx : CTransaction := ⟨2, [⟨⟨⟨List.replicate 32 1, rfl⟩, 0⟩, [], 7, []⟩], [], 100⟩

/-- The checker for the input of `lockedTx`. -/
def lockedTxChecker : TransactionSignatureChecker := ⟨lockedTx, 0, by decide⟩

/-- The script context of the input of `lockedTx` with the lock-time opcodes on. -/
def lockedTxContext : ScriptContext :=
  ⟨⟨id, id, id, fun _ => true⟩, lockedTxChecker.toBase fun _ _ _ _ => false,
    SCRIPT_VERIFY_CHECKLOCKTIMEVERIFY ||| SCRIPT_VERIFY_CHECKSEQUENCEVERIFY, .SIGVERSION_BASE⟩

theorem opCheckLockTimeVerify_sound_at_height_90 :
    (90 : ℤ) < if (90 : ℤ) < LOCKTIME_THRESHOLD then 101 else 0 :=
  @opCheckLockTimeVerify_sound lockedTxChecker lockedTxContext [90] [] 90
    (by simp only [lockedTxContext, TransactionSignatureChecker.toBase]) (by decide) (by decide)
    (by decide) 101 0 (by decide) (by decide)

/-- **`OP_CHECKSEQUENCEVERIFY` is sound.** If the opcode passed for the lock `n` with the
transaction's checker, and its disable bit is clear, then in a block where the transaction's
sequence locks hold with BIP68 enforced, the spent coin is old enough: a height lock of `k` blocks
puts the block at least `k` above the coin, a time lock of `k` units puts the parent's median time
past at least `512 k` seconds after the median time past before the coin. -/
theorem opCheckSequenceVerify_sound (hchecker : ctx.checker.CheckSequence = c.CheckSequence)
    (hflag : hasFlag ctx.flags SCRIPT_VERIFY_CHECKSEQUENCEVERIFY = true)
    (hop : opCheckSequenceVerify ctx (top :: rest) = .ok ())
    (hn : scriptNum top (hasFlag ctx.flags SCRIPT_VERIFY_MINIMALDATA) 5 = .ok n)
    (hdisable : n.toNat.testBit SEQUENCE_LOCKTIME_DISABLE_BIT = false)
    {flags : UInt32} (hbip68 : flags &&& LOCKTIME_VERIFY_SEQUENCE ≠ 0)
    {prevHeights : List ℤ} {b : CBlockIndex} {pprev : List CBlockIndex}
    (hlocks : SequenceLocks c.txTo flags prevHeights (b :: pprev) = .ok true) :
    if Int.land n CTxIn.SEQUENCE_LOCKTIME_TYPE_FLAG.toNat = 0 then
      prevHeights.getD c.nIn 0 + Int.land n CTxIn.SEQUENCE_LOCKTIME_MASK.toNat ≤ b.nHeight
    else
      GetMedianTimePast (GetAncestor (b :: pprev) (max (prevHeights.getD c.nIn 0 - 1) 0)) +
          Int.land n CTxIn.SEQUENCE_LOCKTIME_MASK.toNat * 2 ^ 9 ≤ GetMedianTimePast pprev := by
  obtain ⟨hpos, hcheck⟩ := opCheckSequenceVerify_eq_ok hflag hop hn hdisable
  rw [hchecker] at hcheck
  obtain ⟨N, rfl⟩ : ∃ N : ℕ, n = N := ⟨n.toNat, by omega⟩
  obtain ⟨hversion, hon, htype, hcount⟩ := TransactionSignatureChecker.CheckSequence_eq_true hcheck
  obtain ⟨hlen, r, hloop, hheight, htime⟩ := SequenceLocks_eq_ok_true hversion hbip68 hlocks
  -- the input's entry of the loop, with its relative lock on
  have hmem : (c.txin, prevHeights.getD c.nIn 0) ∈ c.txTo.vin.zip prevHeights := by
    have hlt : c.nIn < prevHeights.length := hlen ▸ c.nIn_lt
    rw [List.mem_iff_getElem]
    refine ⟨c.nIn, by simp [hlen, c.nIn_lt], ?_⟩
    simp [TransactionSignatureChecker.txin, List.getElem?_eq_getElem hlt]
  have hon' : c.txin.nSequence &&& CTxIn.SEQUENCE_LOCKTIME_DISABLE_FLAG = 0 := by
    rw [← UInt32.toNat_inj, UInt32.toNat_and, toNat_SEQUENCE_LOCKTIME_DISABLE_FLAG, hon,
      UInt32.toNat_zero]
  obtain ⟨hbh, hbt⟩ := sequenceLocksLoop_bound _ _ _ hloop hmem hon'
  -- type bits and counts of both sequence numbers
  have htypeS : (c.txin.nSequence &&& CTxIn.SEQUENCE_LOCKTIME_TYPE_FLAG).toNat =
      c.txin.nSequence.toNat / 2 ^ 22 % 2 * 2 ^ 22 := by
    rw [UInt32.toNat_and, toNat_SEQUENCE_LOCKTIME_TYPE_FLAG, land_typeFlag_eq]
  have hcountS : (c.txin.nSequence &&& CTxIn.SEQUENCE_LOCKTIME_MASK).toNat =
      c.txin.nSequence.toNat % 2 ^ 16 := by
    rw [UInt32.toNat_and, toNat_SEQUENCE_LOCKTIME_MASK, Nat.and_two_pow_sub_one_eq_mod]
  rw [land_natCast, land_natCast, toNat_SEQUENCE_LOCKTIME_TYPE_FLAG, toNat_SEQUENCE_LOCKTIME_MASK,
    land_typeFlag_eq, Nat.and_two_pow_sub_one_eq_mod]
  split_ifs with h0
  · -- a height lock, so is the input's
    have hS : c.txin.nSequence &&& CTxIn.SEQUENCE_LOCKTIME_TYPE_FLAG = 0 := by
      rw [← UInt32.toNat_inj, htypeS, UInt32.toNat_zero]
      omega
    have hb := hbh hS
    rw [hcountS] at hb
    omega
  · -- a time lock, so is the input's
    have hS : c.txin.nSequence &&& CTxIn.SEQUENCE_LOCKTIME_TYPE_FLAG ≠ 0 := by
      rw [Ne, ← UInt32.toNat_inj, htypeS, UInt32.toNat_zero]
      omega
    have hb := hbt hS
    rw [toNat_mask_shiftLeft_granularity] at hb
    omega

/-- The parent of a block at height 20 and the block, with the coin of `lockedTx` at height 3. -/
theorem opCheckSequenceVerify_sound_five_blocks :
    if Int.land 5 CTxIn.SEQUENCE_LOCKTIME_TYPE_FLAG.toNat = 0 then
      [3].getD 0 0 + Int.land 5 CTxIn.SEQUENCE_LOCKTIME_MASK.toNat ≤ (20 : ℤ)
    else
      GetMedianTimePast (GetAncestor [⟨20, 1000, 0, 0⟩, ⟨19, 900, 0, 0⟩] (max ([3].getD 0 0 - 1) 0)) +
          Int.land 5 CTxIn.SEQUENCE_LOCKTIME_MASK.toNat * 2 ^ 9 ≤
        GetMedianTimePast [⟨19, 900, 0, 0⟩] :=
  @opCheckSequenceVerify_sound lockedTxChecker lockedTxContext [5] [] 5
    (by simp only [lockedTxContext, TransactionSignatureChecker.toBase]) (by decide) (by decide)
    (by decide) (by decide) LOCKTIME_VERIFY_SEQUENCE (by decide) [3] ⟨20, 1000, 0, 0⟩
    [⟨19, 900, 0, 0⟩] (by decide)

end Soundness

end LightningCash
