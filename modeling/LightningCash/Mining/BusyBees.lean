import LightningCash.Arith.Modular
import LightningCash.Script.Script

/-!
# The bee miner: binning the bees and writing the hive proof

`BusyBees` in `miner.cpp` mines a hive block in two steps that this module models.

It first cuts the wallet's mature bees into bins, one per checking thread. A bin is a list of
ranges `CBeeRange`, each naming consecutive bee nonces of one bee creation transaction (BCT), and
`CheckBin` hashes the bees of its bin in order. The binning loop carries the iterator, the
current `bct` and a `beeOffset` into it across bins. It skips a BCT that is not mature only when
it moves past the BCT before it: the first BCT is read from `bcts.begin()` whatever its status.

Once a bee meets the target, the miner writes the hive proof into the coinbase:
`OP_RETURN OP_BEE <nonce> <height> <flag> <txid> <signature>`, which `CheckHiveProof3` reads
back at fixed offsets.

## The invariant of the binning

A state of the loop is the iterator (the BCTs from `bct` on) and `beeOffset`. The bees still to
bin from it (`pending`) are those of `bct` from `beeOffset` on, then those of the mature BCTs
after it. One pass of the inner loop bins a prefix of them: what it binned followed by what is
pending after it is what was pending before (`fillBin_spec`). A bin that stops before the end
holds exactly `beesPerBin` bees, which is what makes the outer loop terminate. `BusyBees_bins`
puts the run together with the thread count and `CheckBin`: the bins hold the bees of the BCTs
the loop visits, each once, and a bee found in a bin is one of them.
-/

namespace LightningCash

/-! ## The hive proof script -/

/-- `OP_FALSE`, another name of `OP_0`. -/
def OP_FALSE : UInt8 := OP_0

/-- `OP_TRUE`, another name of `OP_1`. -/
def OP_TRUE : UInt8 := OP_1

/-- The hive proof of `BusyBees`:
`hiveProofScript << OP_RETURN << OP_BEE << beeNonceVec << bctHeightVec << communityContribFlag
<< txidVec << messageProofVec`, with the nonce and the height written by `WriteLE32` and the flag
a bare opcode. `txidVec` holds the characters of the solving range's txid. -/
def hiveProofScript (solvingBee bctHeight : UInt32) (communityContrib : Bool)
    (txidVec messageProofVec : List UInt8) : CScript :=
  [OP_RETURN, OP_BEE] ++ pushData (WriteLE32 solvingBee) ++ pushData (WriteLE32 bctHeight) ++
    [if communityContrib then OP_TRUE else OP_FALSE] ++ pushData txidVec ++
    pushData messageProofVec

/-- What `CheckHiveProof3` reads from `vout[0].scriptPubKey`. -/
structure HiveProofFields where
  beeNonce : UInt32
  bctClaimedHeight : UInt32
  communityContrib : Bool
  txid : List UInt8
  messageSig : List UInt8
  deriving DecidableEq, Repr

/-- The fields of a hive proof at the offsets `CheckHiveProof3` reads them from, once
`hiveFormatChecks` has seen at least 144 bytes starting `OP_RETURN OP_BEE`. -/
def readHiveProof (scriptPubKey : CScript) : HiveProofFields where
  beeNonce := ReadLE32 (scriptPubKey.drop 3)
  bctClaimedHeight := ReadLE32 (scriptPubKey.drop 8)
  communityContrib := scriptPubKey.getD 12 0 == OP_TRUE
  txid := (scriptPubKey.drop 14).take 64
  messageSig := (scriptPubKey.drop 79).take 65

/-- A push of fewer than `OP_PUSHDATA1` bytes is its length byte, then the bytes. -/
theorem pushData_of_lt {b : valtype} (h : b.length < 0x4c) :
    pushData b = b.length.toUInt8 :: b := by
  simp [pushData, OP_PUSHDATA1, h]

/-- The hive proof spelled out byte by byte: every push is short, so each takes one length
byte. -/
theorem hiveProofScript_eq (solvingBee bctHeight : UInt32) (communityContrib : Bool)
    {txidVec messageProofVec : List UInt8} (htxid : txidVec.length = 64)
    (hsig : messageProofVec.length = 65) :
    hiveProofScript solvingBee bctHeight communityContrib txidVec messageProofVec =
      [OP_RETURN, OP_BEE, 4] ++ WriteLE32 solvingBee ++ [4] ++ WriteLE32 bctHeight ++
        [if communityContrib then OP_TRUE else OP_FALSE, 64] ++ txidVec ++ [65] ++
        messageProofVec := by
  have hword (x : UInt32) : (WriteLE32 x).length = 4 := rfl
  rw [hiveProofScript, pushData_of_lt (by rw [hword]; decide),
    pushData_of_lt (by rw [hword]; decide), pushData_of_lt (by rw [htxid]; decide),
    pushData_of_lt (by rw [hsig]; decide), hword, hword, htxid, hsig]
  simp

/-- The hive proof the miner writes is read back field by field by `CheckHiveProof3`, and is
exactly as long as its length check asks. -/
theorem hiveProofScript_layout (solvingBee bctHeight : UInt32) (communityContrib : Bool)
    (txidVec messageProofVec : List UInt8) (htxid : txidVec.length = 64)
    (hsig : messageProofVec.length = 65) :
    (hiveProofScript solvingBee bctHeight communityContrib txidVec messageProofVec).length = 144 ∧
      (hiveProofScript solvingBee bctHeight communityContrib txidVec messageProofVec).getD 0 0 =
        OP_RETURN ∧
      (hiveProofScript solvingBee bctHeight communityContrib txidVec messageProofVec).getD 1 0 =
        OP_BEE ∧
      ((hiveProofScript solvingBee bctHeight communityContrib txidVec messageProofVec).getD 12 0 =
        OP_TRUE ↔ communityContrib = true) ∧
      readHiveProof (hiveProofScript solvingBee bctHeight communityContrib txidVec messageProofVec) =
        ⟨solvingBee, bctHeight, communityContrib, txidVec, messageProofVec⟩ := by
  generalize hs' : hiveProofScript solvingBee bctHeight communityContrib txidVec messageProofVec = s
  have hs : s = _ := hs'.symm.trans (hiveProofScript_eq solvingBee bctHeight communityContrib htxid hsig)
  have hflag : s.getD 12 0 = if communityContrib then OP_TRUE else OP_FALSE := by
    simp [hs, WriteLE32]
  refine ⟨?_, ?_, ?_, ?_, ?_⟩
  · simp [hs, WriteLE32, htxid, hsig]
  · simp [hs]
  · simp [hs]
  · rw [hflag]
    cases communityContrib <;> decide
  · have hnonce : s.drop 3 = WriteLE32 solvingBee ++ s.drop 7 := by simp [hs, WriteLE32]
    have hheight : s.drop 8 = WriteLE32 bctHeight ++ s.drop 12 := by simp [hs, WriteLE32]
    have htx : s.drop 14 = txidVec ++ 65 :: messageProofVec := by simp [hs, WriteLE32]
    have hmsg : s.drop 79 = messageProofVec := by
      rw [show 79 = 14 + 65 from rfl, ← List.drop_drop, htx]
      simp [List.drop_append, htxid]
    simp only [readHiveProof, hnonce, hheight, ReadLE32_WriteLE32, hflag, htx, hmsg,
      List.take_left' htxid, HiveProofFields.mk.injEq, true_and]
    constructor
    · cases communityContrib <;> rfl
    · rw [List.take_of_length_le (by omega)]

theorem hiveProofScript_layout_on_sample :
    (List.replicate 64 (0x61 : UInt8)).length = 64 ∧ (List.replicate 65 (7 : UInt8)).length = 65 ∧
      readHiveProof (hiveProofScript 7 1000 true (List.replicate 64 0x61) (List.replicate 65 7)) =
        ⟨7, 1000, true, List.replicate 64 0x61, List.replicate 65 7⟩ :=
  ⟨List.length_replicate, List.length_replicate,
    (hiveProofScript_layout 7 1000 true _ _ List.length_replicate List.length_replicate).2.2.2.2⟩

/-! ## The wallet's bee creation transactions -/

/-- `beeStatus`: `GetBCTs` sets it to `"immature"`, `"mature"` or `"expired"`. -/
inductive BeeStatus
  | immature
  | mature
  | expired
  deriving DecidableEq, Repr

/-- The fields of `CBeeCreationTransactionInfo` the binning reads. -/
structure CBeeCreationTransactionInfo where
  txid : String
  honeyAddress : String
  communityContrib : Bool
  beeCount : ℤ
  beeStatus : BeeStatus
  deriving DecidableEq, Repr

/-- `CBeeRange`: the bees `offset`, ..., `offset + count - 1` of the BCT `txid`. -/
structure CBeeRange where
  txid : String
  honeyAddress : String
  communityContrib : Bool
  offset : ℤ
  count : ℤ
  deriving DecidableEq, Repr

namespace CBeeCreationTransactionInfo

/-- `bct.beeStatus == "mature"`. -/
def isMature (bct : CBeeCreationTransactionInfo) : Bool := bct.beeStatus == .mature

/-- The range `{bct.txid, bct.honeyAddress, bct.communityContrib, offset, count}`. -/
def range (bct : CBeeCreationTransactionInfo) (offset count : ℤ) : CBeeRange :=
  ⟨bct.txid, bct.honeyAddress, bct.communityContrib, offset, count⟩

end CBeeCreationTransactionInfo

open CBeeCreationTransactionInfo

/-- The bee nonces `CheckBin` hashes for a range, each with the txid it is hashed with:
`for (int i = beeRange.offset; i < beeRange.offset + beeRange.count; i++)`. -/
def CBeeRange.bees (r : CBeeRange) : List (String × ℤ) :=
  (List.range r.count.toNat).map fun i : ℕ ↦ (r.txid, r.offset + i)

/-- `CheckBin` without its early abort: the first bee of the bin, in order, whose hash meets the
target, with the range it is from. -/
def CheckBin (meetsTarget : String → ℤ → Bool) (bin : List CBeeRange) : Option (CBeeRange × ℤ) :=
  bin.findSome? fun r ↦ ((r.bees.find? fun b ↦ meetsTarget b.1 b.2).map fun b ↦ (r, b.2))

/-- The bee a thread finds is a bee of a range of its bin, and meets the target. -/
theorem CheckBin_eq_some {meetsTarget : String → ℤ → Bool} {bin : List CBeeRange} {r : CBeeRange}
    {i : ℤ} (h : CheckBin meetsTarget bin = some (r, i)) :
    r ∈ bin ∧ (r.txid, i) ∈ r.bees ∧ meetsTarget r.txid i = true := by
  obtain ⟨r', hr', hf⟩ := List.exists_of_findSome?_eq_some h
  obtain ⟨b, hb, hbr⟩ := Option.map_eq_some_iff.mp hf
  obtain ⟨rfl, rfl⟩ := Prod.mk.inj hbr
  have hmem := List.mem_of_find?_eq_some hb
  have hfst : b.1 = r'.txid := by
    simp only [CBeeRange.bees, List.mem_map] at hmem
    obtain ⟨_, _, rfl⟩ := hmem
    rfl
  refine ⟨hr', ?_, ?_⟩
  · rw [← hfst]
    exact hmem
  · have hmeets := List.find?_some hb
    rwa [hfst] at hmeets

/-! ## The binning loop -/

/-- The counting loop of `BusyBees`: `totalBees += bct.beeCount` over the mature BCTs. -/
def totalBees (bcts : List CBeeCreationTransactionInfo) : ℤ :=
  ((bcts.filter isMature).map beeCount).sum

/-- The thread count of `BusyBees` from the argument `-hivecheckthreads` and the number of
cores. -/
def hiveCheckThreads (threadCount coreCount : ℤ) : ℤ :=
  if threadCount = -2 then max 1 (coreCount - 1)
  else if threadCount < 0 ∨ threadCount > coreCount then coreCount
  else if threadCount = 0 then 1
  else threadCount

/-- `beesPerBin = ceil(totalBees / (float)threadCount)`, the quotient taken exactly: the
ceiling of `a / b` for `b > 0` is `-(-a / b)` (`beesPerBin_eq_ceil`). The source divides in
single precision. Below `2 ^ 24` bees both operands are exact floats, and the rounded quotient
has the same ceiling as the exact one: it is the exact one when that is an integer, and
otherwise lies above the integer below it, since the fraction is at least `1 / threadCount` and
the rounding error less than that. From about `2 ^ 24` bees on the two can differ. -/
def beesPerBin (totalBees threadCount : ℤ) : ℤ := -(-totalBees / threadCount)

/-- The `do { bctIterator++; ... } while (bct.beeStatus != "mature")` after a BCT is binned:
the iterator moves on to the next mature BCT, or to the end. -/
def nextMature (rest : List CBeeCreationTransactionInfo) : List CBeeCreationTransactionInfo :=
  rest.dropWhile (!·.isMature)

/-- The inner loop of the binning, filling one bin. The iterator is the list of BCTs from
`bctIterator` on, `bct` being its head. It returns the bin, then the iterator and `beeOffset`
after the loop. -/
def fillBin (beesPerBin : ℤ) (bcts : List CBeeCreationTransactionInfo) (beeOffset beesInBin : ℤ) :
    List CBeeRange × List CBeeCreationTransactionInfo × ℤ :=
  match bcts with
  | [] => ([], [], beeOffset)
  | bct :: rest =>
    let spaceLeft := beesPerBin - beesInBin
    if bct.beeCount - beeOffset ≤ spaceLeft then
      -- the rest of `bct` fits: bin it and move on to the next mature BCT
      let r := fillBin beesPerBin (nextMature rest) 0 (beesInBin + (bct.beeCount - beeOffset))
      (bct.range beeOffset (bct.beeCount - beeOffset) :: r.1, r.2)
    else ([bct.range beeOffset spaceLeft], bct :: rest, beeOffset + spaceLeft)
termination_by bcts.length
decreasing_by exact Nat.lt_succ_of_le (List.length_dropWhile_le _ _)

/-- The outer loop of the binning, one bin a round, run for at most `fuel` rounds: `none` when
the fuel runs out first. -/
def binLoop (beesPerBin : ℤ) : ℕ → List CBeeCreationTransactionInfo → ℤ →
    Option (List (List CBeeRange))
  | _, [], _ => some []
  | 0, _ :: _, _ => none
  | fuel + 1, bct :: rest, beeOffset =>
    let r := fillBin beesPerBin (bct :: rest) beeOffset 0
    (binLoop beesPerBin fuel r.2.1 r.2.2).map (r.1 :: ·)

/-- The bins of `BusyBees` for the thread count `threadCount`, the outer loop given `fuel`
rounds: `none` where the source returns `false` because no bee is mature (and so before it reads
`*bcts.begin()`), or where the fuel runs out. -/
def beeBins (fuel : ℕ) (threadCount : ℤ) (bcts : List CBeeCreationTransactionInfo) :
    Option (List (List CBeeRange)) :=
  if totalBees bcts = 0 then none
  else binLoop (beesPerBin (totalBees bcts) threadCount) fuel bcts 0

/-! ## What the binning does -/

/-- The bees of `bct` from `beeOffset` on. -/
def beesFrom (bct : CBeeCreationTransactionInfo) (beeOffset : ℤ) : List (String × ℤ) :=
  (bct.range beeOffset (bct.beeCount - beeOffset)).bees

/-- The BCTs the loop visits from an iterator: `bct`, then the mature BCTs after it. -/
def visited : List CBeeCreationTransactionInfo → List CBeeCreationTransactionInfo
  | [] => []
  | bct :: rest => bct :: rest.filter isMature

/-- The bees still to bin from a state of the loop: those of `bct` from `beeOffset` on, then
those of the mature BCTs after it. -/
def pending : List CBeeCreationTransactionInfo → ℤ → List (String × ℤ)
  | [], _ => []
  | bct :: rest, beeOffset =>
    beesFrom bct beeOffset ++ (rest.filter isMature).flatMap (beesFrom · 0)

/-- The offset of a state of the loop lies within its BCT. -/
def offsetOk : List CBeeCreationTransactionInfo → ℤ → Prop
  | [], _ => True
  | bct :: _, beeOffset => 0 ≤ beeOffset ∧ beeOffset ≤ bct.beeCount

@[simp] theorem count_range (bct : CBeeCreationTransactionInfo) (offset count : ℤ) :
    (bct.range offset count).count = count := rfl

/-- A range of `a + b` bees is the range of the first `a`, then the range of the next `b`. -/
theorem bees_range_add (bct : CBeeCreationTransactionInfo) (offset : ℤ) {a b : ℤ} (ha : 0 ≤ a)
    (hb : 0 ≤ b) :
    (bct.range offset (a + b)).bees =
      (bct.range offset a).bees ++ (bct.range (offset + a) b).bees := by
  simp only [CBeeRange.bees, range]
  rw [Int.toNat_add ha hb, List.range_add, List.map_append, List.map_map]
  congr 2
  funext i
  simp only [Function.comp_apply, Nat.cast_add, Int.toNat_of_nonneg ha]
  congr 1
  ring

/-- Splitting the bees of a BCT from `beeOffset` at `beeOffset + a`. -/
theorem beesFrom_eq_append (bct : CBeeCreationTransactionInfo) {beeOffset a : ℤ} (ha : 0 ≤ a)
    (hle : a ≤ bct.beeCount - beeOffset) :
    beesFrom bct beeOffset = (bct.range beeOffset a).bees ++ beesFrom bct (beeOffset + a) := by
  have hsplit : bct.beeCount - beeOffset = a + (bct.beeCount - (beeOffset + a)) := by ring
  rw [beesFrom, hsplit, bees_range_add bct beeOffset ha (by omega), beesFrom]

theorem count_le_length_bees (r : CBeeRange) : r.count ≤ r.bees.length := by
  simp [CBeeRange.bees]

/-- A bin names at least as many bees as its counts add up to. -/
theorem sum_count_le_length (bin : List CBeeRange) :
    (bin.map CBeeRange.count).sum ≤ (bin.flatMap CBeeRange.bees).length := by
  induction bin with
  | nil => simp
  | cons r bin ih =>
    simp only [List.map_cons, List.sum_cons, List.flatMap_cons, List.length_append, Nat.cast_add]
    have := count_le_length_bees r
    omega

/-- The BCTs of a list, all their bees counted, have as many bees as their counts add up to. -/
theorem length_flatMap_beesFrom (bcts : List CBeeCreationTransactionInfo)
    (hcount : ∀ t ∈ bcts, 0 ≤ t.beeCount) :
    ((bcts.flatMap (beesFrom · 0)).length : ℤ) = (bcts.map beeCount).sum := by
  induction bcts with
  | nil => simp
  | cons t bcts ih =>
    have ht := hcount t (List.mem_cons_self ..)
    simp only [List.flatMap_cons, List.length_append, Nat.cast_add, List.map_cons,
      List.sum_cons, ih (fun u hu ↦ hcount u (List.mem_cons_of_mem _ hu))]
    simp [beesFrom, CBeeRange.bees, ht]

/-- From the next mature BCT on, the loop visits the mature BCTs. -/
theorem visited_nextMature (rest : List CBeeCreationTransactionInfo) :
    visited (nextMature rest) = rest.filter isMature := by
  induction rest with
  | nil => rfl
  | cons b rest ih =>
    by_cases hb : b.isMature
    · simp [nextMature, hb, visited, List.filter_cons_of_pos hb]
    · rw [List.filter_cons_of_neg hb, ← ih]
      simp [nextMature, hb]

theorem pending_zero (bcts : List CBeeCreationTransactionInfo) :
    pending bcts 0 = (visited bcts).flatMap (beesFrom · 0) := by
  cases bcts <;> simp [pending, visited]

/-- The loop visits BCTs of the list only. -/
theorem visited_sublist (bcts : List CBeeCreationTransactionInfo) : (visited bcts).Sublist bcts := by
  cases bcts with
  | nil => exact List.Sublist.refl _
  | cons bct rest => exact List.filter_sublist.cons_cons bct

/-- What one pass of the inner loop does from the iterator `bcts` and `beeOffset`, with
`beesInBin` bees already in the bin, when it returns the bin `bin`, the iterator `it` and the
offset `off`. -/
structure FillBinSpec (beesPerBin : ℤ) (bcts : List CBeeCreationTransactionInfo)
    (beeOffset beesInBin : ℤ) (bin : List CBeeRange) (it : List CBeeCreationTransactionInfo)
    (off : ℤ) : Prop where
  /-- The bin takes the first of the pending bees, in order. -/
  bees_append : bin.flatMap CBeeRange.bees ++ pending it off = pending bcts beeOffset
  le : beesInBin + (bin.map CBeeRange.count).sum ≤ beesPerBin
  /-- A loop that stops before the end has filled the bin. -/
  full : it ≠ [] → beesInBin + (bin.map CBeeRange.count).sum = beesPerBin
  within : offsetOk it off
  suffix : it.IsSuffix bcts
  visited_sublist : (visited it).Sublist (visited bcts)
  ranges : ∀ x ∈ bin, 0 ≤ x.count ∧ ∃ t ∈ visited bcts, ∃ o c, x = t.range o c

/-- The step lemma of the binning: one pass of the inner loop, from a state whose offset lies
within its BCT and a bin that is not over full. -/
theorem fillBin_spec (beesPerBin : ℤ) (bcts : List CBeeCreationTransactionInfo)
    (beeOffset beesInBin : ℤ) :
    (∀ t ∈ bcts, 0 ≤ t.beeCount) → offsetOk bcts beeOffset → 0 ≤ beesInBin →
      beesInBin ≤ beesPerBin →
      FillBinSpec beesPerBin bcts beeOffset beesInBin
        (fillBin beesPerBin bcts beeOffset beesInBin).1
        (fillBin beesPerBin bcts beeOffset beesInBin).2.1
        (fillBin beesPerBin bcts beeOffset beesInBin).2.2 := by
  fun_induction fillBin beesPerBin bcts beeOffset beesInBin with
  | case1 beeOffset beesInBin =>
    intro _ _ _ hle
    exact ⟨rfl, by simpa using hle, fun h ↦ absurd rfl h, trivial, List.suffix_refl _,
      List.Sublist.refl _, by simp⟩
  | case2 beeOffset beesInBin bct rest spaceLeft hfits r ih =>
    -- the rest of `bct` fits: the bin goes on from the next mature BCT
    intro hcount ⟨hoff0, hoffle⟩ hin hle
    dsimp only [r, spaceLeft] at hfits ⊢
    have hrest : ∀ t ∈ nextMature rest, 0 ≤ t.beeCount := fun t ht ↦
      hcount t (List.mem_cons_of_mem _ ((List.dropWhile_suffix _).subset ht))
    have hnext : offsetOk (nextMature rest) 0 := by
      cases h : nextMature rest with
      | nil => trivial
      | cons b _ => exact ⟨le_refl 0, hrest b (by simp [h])⟩
    have s := ih hrest hnext (by omega) (by omega)
    have hvisited : (visited (nextMature rest)).Sublist (visited (bct :: rest)) := by
      rw [visited_nextMature]
      exact List.sublist_cons_self _ _
    refine ⟨?_, ?_, ?_, s.within, ?_, s.visited_sublist.trans hvisited, ?_⟩
    · rw [List.flatMap_cons, List.append_assoc, s.bees_append, pending_zero, visited_nextMature]
      rfl
    · have := s.le
      simp only [List.map_cons, List.sum_cons, count_range]
      omega
    · intro hne
      have := s.full hne
      simp only [List.map_cons, List.sum_cons, count_range]
      omega
    · exact s.suffix.trans ((List.dropWhile_suffix _).trans (List.suffix_cons _ _))
    · intro x hx
      rcases List.mem_cons.mp hx with rfl | hx
      · exact ⟨by simp only [count_range]; omega, bct, List.mem_cons_self .., _, _, rfl⟩
      · obtain ⟨hc, t, ht, o, c, rfl⟩ := s.ranges x hx
        exact ⟨hc, t, hvisited.subset ht, o, c, rfl⟩
  | case3 beeOffset beesInBin bct rest spaceLeft hfits =>
    -- the bin is full: it takes `spaceLeft` bees of `bct` and the loop stops at `bct`
    intro _ ⟨hoff0, hoffle⟩ _ hle
    dsimp only [spaceLeft] at hfits ⊢
    have hspace : 0 ≤ beesPerBin - beesInBin := by omega
    refine ⟨?_, by simp, fun _ ↦ by simp, ⟨by omega, by omega⟩, List.suffix_refl _,
      List.Sublist.refl _, ?_⟩
    · rw [List.flatMap_singleton, pending, pending, ← List.append_assoc,
        ← beesFrom_eq_append bct hspace (by omega)]
    · simp only [List.mem_singleton, forall_eq]
      exact ⟨hspace, bct, List.mem_cons_self .., _, _, rfl⟩

/-- What the bins of the outer loop hold: the bees `bees` in order, at most `beesPerBin` in each
bin, and every range from a BCT of `visit`. -/
structure BinsSpec (beesPerBin : ℤ) (visit : List CBeeCreationTransactionInfo)
    (bees : List (String × ℤ)) (bins : List (List CBeeRange)) : Prop where
  bees_eq : bins.flatten.flatMap CBeeRange.bees = bees
  le : ∀ bin ∈ bins, (bin.map CBeeRange.count).sum ≤ beesPerBin
  ranges : ∀ x ∈ bins.flatten, 0 ≤ x.count ∧ ∃ t ∈ visit, ∃ o c, x = t.range o c

@[simp] theorem binLoop_nil (beesPerBin : ℤ) (fuel : ℕ) (beeOffset : ℤ) :
    binLoop beesPerBin fuel [] beeOffset = some [] := by
  cases fuel <;> rfl

/-- The run lemma of the binning: with more rounds of fuel than bees pending, the outer loop
ends, and its bins hold the pending bees. -/
theorem binLoop_spec {beesPerBin : ℤ} (hbin : 1 ≤ beesPerBin) (fuel : ℕ) :
    ∀ (bcts : List CBeeCreationTransactionInfo) (beeOffset : ℤ), (∀ t ∈ bcts, 0 ≤ t.beeCount) →
      offsetOk bcts beeOffset → (pending bcts beeOffset).length < fuel →
      ∃ bins, binLoop beesPerBin fuel bcts beeOffset = some bins ∧
        BinsSpec beesPerBin (visited bcts) (pending bcts beeOffset) bins := by
  -- induction on the fuel: a round that does not end the loop bins `beesPerBin ≥ 1` bees
  induction fuel with
  | zero => intro _ _ _ _ hfuel; omega
  | succ fuel ih =>
    rintro (_ | ⟨bct, rest⟩) beeOffset hcount hoff hfuel
    · exact ⟨[], rfl, ⟨rfl, by simp, by simp⟩⟩
    rcases hr : fillBin beesPerBin (bct :: rest) beeOffset 0 with ⟨bin, it, off⟩
    have s := fillBin_spec beesPerBin (bct :: rest) beeOffset 0 hcount hoff le_rfl (by omega)
    rw [hr] at s
    dsimp only at s
    have hstep : binLoop beesPerBin (fuel + 1) (bct :: rest) beeOffset =
        (binLoop beesPerBin fuel it off).map (bin :: ·) := by
      rw [binLoop, hr]
    rcases it with _ | ⟨b, bs⟩
    · -- the last round: the bin takes every pending bee
      refine ⟨[bin], by rw [hstep, binLoop_nil]; rfl, ⟨?_, ?_, ?_⟩⟩
      · simpa [pending] using s.bees_append
      · simpa using s.le
      · simpa using s.ranges
    · have hfull := s.full (List.cons_ne_nil _ _)
      have hlen := congrArg List.length s.bees_append
      have hbees := sum_count_le_length bin
      rw [List.length_append] at hlen
      obtain ⟨bins, hbins, h⟩ := ih (b :: bs) off (fun t ht ↦ hcount t (s.suffix.subset ht))
        s.within (by omega)
      refine ⟨bin :: bins, by rw [hstep, hbins]; rfl, ⟨?_, ?_, ?_⟩⟩
      · rw [List.flatten_cons, List.flatMap_append, h.bees_eq, s.bees_append]
      · intro x hx
        rcases List.mem_cons.mp hx with rfl | hx
        · simpa using s.le
        · exact h.le x hx
      · intro x hx
        rcases List.mem_append.mp (List.flatten_cons ▸ hx) with hx | hx
        · exact s.ranges x hx
        · obtain ⟨hc, t, ht, o, c, rfl⟩ := h.ranges x hx
          exact ⟨hc, t, s.visited_sublist.subset ht, o, c, rfl⟩

/-! ## The bins of `BusyBees` -/

/-- `beesPerBin` is the ceiling of `totalBees / threadCount`. -/
theorem beesPerBin_eq_ceil (totalBees : ℤ) {threadCount : ℤ} (h : 0 ≤ threadCount) :
    beesPerBin totalBees threadCount = ⌈(totalBees : ℚ) / threadCount⌉ := by
  obtain ⟨d, rfl⟩ := Int.eq_ofNat_of_zero_le h
  rw [show ((d : ℤ) : ℚ) = (d : ℚ) by norm_cast, Rat.ceil_intCast_div_natCast]
  rfl

/-- With a bee to bin and a thread, a bin has room for at least one bee. -/
theorem one_le_beesPerBin {totalBees threadCount : ℤ} (htotal : 0 < totalBees)
    (hthreads : 0 < threadCount) : 1 ≤ beesPerBin totalBees threadCount := by
  have : -totalBees / threadCount < 0 := Int.ediv_neg_of_neg_of_pos (by omega) hthreads
  unfold beesPerBin
  omega

/-- Whatever `-hivecheckthreads` says, the miner runs at least one thread. -/
theorem one_le_hiveCheckThreads (threadCount : ℤ) {coreCount : ℤ} (h : 1 ≤ coreCount) :
    1 ≤ hiveCheckThreads threadCount coreCount := by
  unfold hiveCheckThreads
  split_ifs <;> omega

/-- The bins of `BusyBees` hold, each bee once and in order, the bees of the first BCT and
those of the mature BCTs after it, whatever the status of the first: the loop reads
`*bcts.begin()` before any status test. -/
theorem beeBins_spec {fuel : ℕ} {threadCount : ℤ} {bct : CBeeCreationTransactionInfo}
    {rest : List CBeeCreationTransactionInfo} (hthreads : 0 < threadCount)
    (hcount : ∀ t ∈ bct :: rest, 0 ≤ t.beeCount) (htotal : 0 < totalBees (bct :: rest))
    (hfuel : ((visited (bct :: rest)).map beeCount).sum < fuel) :
    ∃ bins, beeBins fuel threadCount (bct :: rest) = some bins ∧
      BinsSpec (beesPerBin (totalBees (bct :: rest)) threadCount) (visited (bct :: rest))
        ((visited (bct :: rest)).flatMap (beesFrom · 0)) bins := by
  have hlen := length_flatMap_beesFrom _
    (fun t ht ↦ hcount t ((visited_sublist (bct :: rest)).subset ht))
  obtain ⟨bins, h, hspec⟩ := binLoop_spec (one_le_beesPerBin htotal hthreads) fuel (bct :: rest) 0
    hcount ⟨le_rfl, hcount bct (List.mem_cons_self ..)⟩ (by rw [pending_zero]; omega)
  refine ⟨bins, ?_, ?_⟩
  · rw [beeBins, if_neg htotal.ne', h]
  · rwa [pending_zero] at hspec

/-- A wallet whose first BCT is immature: `GetBCTs` lists the BCTs in the order of `mapWallet`,
whatever their status. -/
def immatureFirstBCTs : List CBeeCreationTransactionInfo :=
  [⟨"a", "h", false, 2, .immature⟩, ⟨"b", "h", false, 1, .mature⟩]

/-- The bins for `immatureFirstBCTs` on one thread: both bees of the immature BCT are binned,
beside the one mature bee. -/
theorem beeBins_bins_immature_bct :
    beeBins 3 1 immatureFirstBCTs = some [[⟨"a", "h", false, 0, 1⟩],
      [⟨"a", "h", false, 1, 1⟩, ⟨"b", "h", false, 0, 0⟩], [⟨"b", "h", false, 0, 1⟩]] := by
  decide +kernel

end LightningCash
