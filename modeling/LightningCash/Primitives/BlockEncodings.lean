import LightningCash.Primitives.TransactionSerialize
import Mathlib.Data.List.Chain

/-!
# The `getblocktxn` request (blockencodings.h)

A `BlockTransactionsRequest` asks a peer for some transactions of a block by their positions.
The positions are `uint16_t` and travel as gaps: each is the distance from one past the position
before, a `CompactSize`. The reader takes the gaps in passes of at most a thousand, checks each
against 16 bits, and then rebuilds the positions with a running `uint16_t` offset.

The round trip holds for every strictly increasing list of positions. The positions the reader
builds are not always increasing, though: the offset after a position `65535` is `65535 + 1` in
a `uint16_t`, which is zero, so a gap read after it counts from zero again
(`applyOffsets_isChain`, `unserialize_wraps_after_max`).
-/

namespace LightningCash

open Codec

/-- `BlockTransactionsRequest`: a block and the positions of some of its transactions. -/
structure BlockTransactionsRequest where
  blockhash : Uint256
  indexes : List UInt16
  deriving DecidableEq

namespace BlockTransactionsRequest

/-- The gaps the writer sends, `indexes[i] - (i == 0 ? 0 : (indexes[i - 1] + 1))`: computed in
`int`, stored in a `uint64_t`. `prev` is the position before, if any. -/
def gaps (prev : Option UInt16) : List UInt16 → List UInt64
  | [] => []
  | index :: rest =>
    let base : ℤ := match prev with
      | none => 0
      | some p => p.toNat + 1
    UInt64.ofInt (index.toNat - base) :: gaps (some index) rest

/-- `SerializationOp` writing: the block hash, the number of positions, the gaps. -/
def serialize (req : BlockTransactionsRequest) : List WriteOp :=
  .write req.blockhash.data :: .compactSize req.indexes.length.toUInt64 ::
    (gaps none req.indexes).map .compactSize

/-- One slot filled: `READWRITE(COMPACTSIZE(index))` and the check against 16 bits. -/
def readGap : Reader UInt16 := do
  let index ← ReadCompactSize
  if index.toNat > 65535 then throw "index overflowed 16 bits"
  else pure index.toNat.toUInt16

/-- The loop `while (indexes.size() < indexes_size)`: each pass resizes by at most a thousand
slots and fills them; `remaining` slots are still to come. -/
def readChunks (remaining : ℕ) : Reader (List UInt16) :=
  if remaining = 0 then pure []
  else do
    let chunk ← readMany readGap (min 1000 remaining)
    let rest ← readChunks (remaining - min 1000 remaining)
    pure (chunk ++ rest)
termination_by remaining
decreasing_by omega

/-- The offset loop: `indexes[j] = indexes[j] + offset; offset = indexes[j] + 1`, with the
offset a `uint16_t`. -/
def applyOffsets (offset : UInt16) : List UInt16 → Except String (List UInt16)
  | [] => .ok []
  | index :: rest =>
    if index.toNat + offset.toNat > 65535 then .error "indexes overflowed 16 bits"
    else ((index + offset) :: ·) <$> applyOffsets (index + offset + 1) rest

/-- `SerializationOp` reading. -/
def unserialize : Reader BlockTransactionsRequest := do
  let blockhash ← readUint256
  let indexes_size ← ReadCompactSize
  let gaps ← readChunks indexes_size.toNat
  let indexes ← StateT.lift (applyOffsets 0 gaps)
  pure ⟨blockhash, indexes⟩

/-! ## Reading the gaps -/

/-- A gap up to `65535` reads back from its `CompactSize`. -/
theorem readGap_readsBack :
    ReadsBack (fun g : UInt16 ↦ WriteCompactSize g.toNat.toUInt64) readGap fun _ ↦ True := by
  intro g _ rest
  have hg : g.toNat.toUInt64.toNat = g.toNat := by
    have := g.toNat_lt
    rw [Nat.toUInt64_eq, UInt64.toNat_ofNat', Nat.mod_eq_of_lt (by omega)]
  have hsize : g.toNat.toUInt64.toNat ≤ MAX_SIZE := by
    have := g.toNat_lt
    rw [hg, show MAX_SIZE = 0x02000000 from rfl]
    omega
  rw [readGap, run_bind_of_ok (ReadCompactSize_WriteCompactSize hsize rest), hg,
    if_neg (by have := g.toNat_lt; omega)]
  simp

/-- The passes of at most a thousand slots read the gaps one after the other. The induction is
on the number of slots still to come. -/
theorem readChunks_readsBack (n : ℕ) :
    ∀ gs : List UInt16, gs.length = n → ∀ rest,
      (readChunks n).run (gs.flatMap (fun g ↦ WriteCompactSize g.toNat.toUInt64) ++ rest) =
        .ok (gs, rest) := by
  induction n using Nat.strong_induction_on with
  | _ n ih =>
    intro gs hlen rest
    rw [readChunks]
    split_ifs with h0
    · subst h0
      rw [List.length_eq_zero_iff.1 hlen]
      rfl
    -- one pass reads the first `min 1000 n` gaps, the passes after it the others
    have hpass := readMany_readsBack readGap_readsBack (gs.take (min 1000 n)) (by simp)
    rw [List.length_take_of_le (by omega)] at hpass
    have hrest := ih (n - min 1000 n) (by omega) (gs.drop (min 1000 n)) (by simp [hlen])
    rw [← List.take_append_drop (min 1000 n) gs, List.flatMap_append, List.append_assoc,
      run_bind_of_ok (hpass _), run_bind_of_ok (hrest rest), List.take_append_drop]
    rfl

/-! ## Gaps and offsets -/

theorem length_gaps (xs : List UInt16) : ∀ prev, (gaps prev xs).length = xs.length := by
  induction xs with
  | nil => intro _; rfl
  | cons x xs ih => intro prev; simp [gaps, ih]

/-- Every gap of increasing positions fits in 16 bits, and the offsets rebuild the positions.
The induction is on the positions after `p`, which is the one before them. -/
theorem applyOffsets_gaps (p : UInt16) :
    ∀ xs : List UInt16, (p :: xs).Pairwise (· < ·) →
      (∀ g ∈ gaps (some p) xs, g.toNat ≤ 65535) ∧
        applyOffsets (p + 1) ((gaps (some p) xs).map (·.toNat.toUInt16)) = .ok xs := by
  intro xs
  induction xs generalizing p with
  | nil => intro _; exact ⟨by simp [gaps], rfl⟩
  | cons x xs ih =>
    intro hpair
    have hpx : p < x := List.rel_of_pairwise_cons hpair List.mem_cons_self
    have hpx' : p.toNat < x.toNat := hpx
    have hx := x.toNat_lt
    obtain ⟨hgaps, happly⟩ := ih x (List.Pairwise.of_cons hpair)
    -- the gap `x - (p + 1)` is a natural number below `2 ^ 16`
    have hgap : (UInt64.ofInt (x.toNat - (p.toNat + 1 : ℤ))).toNat = x.toNat - (p.toNat + 1) := by
      rw [UInt64.ofInt, UInt64.toNat_ofNat', Int.emod_eq_of_lt (by omega) (by omega)]
      omega
    have hp1 : (p + 1).toNat = p.toNat + 1 := by rw [UInt16.toNat_add]; simp; omega
    have hsum : ((x.toNat - (p.toNat + 1)).toUInt16 + (p + 1)) = x := by
      apply UInt16.toNat_inj.1
      rw [UInt16.toNat_add, hp1, Nat.toUInt16_eq, UInt16.toNat_ofNat']
      omega
    refine ⟨?_, ?_⟩
    · intro g hg
      rw [gaps, List.mem_cons] at hg
      rcases hg with rfl | hg
      · rw [hgap]
        omega
      · exact hgaps g hg
    · simp only [gaps, List.map_cons, hgap]
      rw [applyOffsets, if_neg (by rw [hp1, Nat.toUInt16_eq, UInt16.toNat_ofNat']; omega), hsum,
        happly]
      rfl

/-- The offset loop on gaps of increasing positions gives the positions back. -/
theorem applyOffsets_gaps_none (xs : List UInt16) (hxs : xs.Pairwise (· < ·)) :
    (∀ g ∈ gaps none xs, g.toNat ≤ 65535) ∧
      applyOffsets 0 ((gaps none xs).map (·.toNat.toUInt16)) = .ok xs := by
  cases xs with
  | nil => exact ⟨by simp [gaps], rfl⟩
  | cons x xs =>
    obtain ⟨hgaps, happly⟩ := applyOffsets_gaps x xs hxs
    have hx := x.toNat_lt
    have hgap : (UInt64.ofInt (x.toNat - (0 : ℤ))).toNat = x.toNat := by
      rw [UInt64.ofInt, UInt64.toNat_ofNat', Int.emod_eq_of_lt (by omega) (by omega)]
      omega
    refine ⟨?_, ?_⟩
    · intro g hg
      rw [gaps, List.mem_cons] at hg
      rcases hg with rfl | hg
      · rw [hgap]
        omega
      · exact hgaps g hg
    · simp only [gaps, List.map_cons, hgap]
      rw [applyOffsets, if_neg (by simp; omega), Nat.toUInt16_eq, UInt16.ofNat_toNat, add_zero,
        happly]
      rfl

/-- The offset loop never goes below its offset, and each position it builds exceeds the one
before unless that one is `65535`, after which the offset wraps to zero. -/
theorem applyOffsets_isChain :
    ∀ (gs : List UInt16) (offset : UInt16) (out : List UInt16), applyOffsets offset gs = .ok out →
      (∀ a ∈ out.head?, offset ≤ a) ∧ out.IsChain fun a b ↦ a < b ∨ a = 65535 := by
  intro gs
  induction gs with
  | nil =>
    intro offset out h
    obtain rfl : out = [] := (Except.ok.inj h).symm
    exact ⟨by simp, .nil⟩
  | cons g gs ih =>
    intro offset out h
    rw [applyOffsets] at h
    split_ifs at h with hover
    obtain ⟨out', hrest, rfl⟩ : ∃ out', applyOffsets (g + offset + 1) gs = .ok out' ∧
        out = (g + offset) :: out' := by
      cases hr : applyOffsets (g + offset + 1) gs with
      | error e => rw [hr] at h; cases h
      | ok out' => rw [hr] at h; exact ⟨out', rfl, (Except.ok.inj h).symm⟩
    obtain ⟨hhead, hchain⟩ := ih _ out' hrest
    have hsum : (g + offset).toNat = g.toNat + offset.toNat := by
      rw [UInt16.toNat_add]
      omega
    refine ⟨?_, List.isChain_cons.2 ⟨fun b hb ↦ ?_, hchain⟩⟩
    · intro a ha
      obtain rfl := Option.some_inj.1 ha
      show offset.toNat ≤ (g + offset).toNat
      omega
    -- below `65535` the next offset is one more; at `65535` it wraps
    by_cases hmax : (g + offset).toNat = 65535
    · exact .inr (UInt16.toNat_inj.1 hmax)
    · left
      have hb' := hhead b hb
      have hnext : (g + offset + 1).toNat = (g + offset).toNat + 1 := by
        rw [UInt16.toNat_add]
        simp
        omega
      show (g + offset).toNat < b.toNat
      have : (g + offset + 1).toNat ≤ b.toNat := hb'
      omega

/-- Increasing positions of 16 bits are at most `65536`, well within `MAX_SIZE`. -/
theorem length_le_of_pairwise {xs : List UInt16} (h : xs.Pairwise (· < ·)) : xs.length ≤ 65536 := by
  have hnodup : (xs.map UInt16.toFin).Nodup := by
    refine List.pairwise_map.2 (h.imp fun {a b} hab heq ↦ ?_)
    have hlt : a.toNat < b.toNat := hab
    have : a.toNat = b.toNat := congrArg Fin.val heq
    omega
  simpa using hnodup.length_le_card

/-- The gaps of increasing positions, written as `uint64_t`, are those read back as `uint16_t`. -/
theorem gaps_eq_map (xs : List UInt16) (hgaps : ∀ g ∈ gaps none xs, g.toNat ≤ 65535) :
    gaps none xs = ((gaps none xs).map (·.toNat.toUInt16)).map (·.toNat.toUInt64) := by
  rw [List.map_map]
  refine (List.map_id' _).symm.trans (List.map_congr_left fun g hg ↦ ?_)
  have hg' := hgaps g hg
  apply UInt64.toNat_inj.1
  simp only [Function.comp, Nat.toUInt64_eq, UInt64.toNat_ofNat', Nat.toUInt16_eq,
    UInt16.toNat_ofNat']
  omega

/-- Every strictly increasing list of positions reads back from its serialization; every list of
positions the reader builds increases, except directly after a `65535`. -/
theorem unserialize_serialize_indexes :
    (∀ req : BlockTransactionsRequest, req.indexes.Pairwise (· < ·) → ∀ rest,
        unserialize.run (CDataStream.written req.serialize ++ rest) = .ok (req, rest)) ∧
    (∀ s req rest, unserialize.run s = .ok (req, rest) →
        req.indexes.IsChain fun a b ↦ a < b ∨ a = 65535) := by
  constructor
  · rintro ⟨blockhash, xs⟩ hxs rest
    obtain ⟨hgaps, happly⟩ := applyOffsets_gaps_none xs hxs
    have hlen : xs.length ≤ MAX_SIZE :=
      (length_le_of_pairwise hxs).trans (by rw [show MAX_SIZE = 0x02000000 from rfl]; omega)
    have hsize := toNat_toUInt64_of_le_MAX_SIZE hlen
    -- the gaps on the wire, as the reader's slots see them
    have hwire : CDataStream.written ((gaps none xs).map .compactSize) =
        ((gaps none xs).map (·.toNat.toUInt16)).flatMap
          (fun g ↦ WriteCompactSize g.toNat.toUInt64) := by
      rw [CDataStream.written, List.flatMap_map]
      conv_lhs => rw [gaps_eq_map xs hgaps]
      rw [List.flatMap_map]
      rfl
    have hchunks := readChunks_readsBack _ ((gaps none xs).map (·.toNat.toUInt16))
      (by simp only [List.length_map]; exact (length_gaps xs none).trans hsize.symm) rest
    simp only [serialize, CDataStream.written_cons, WriteOp.bytes, List.append_assoc]
    rw [unserialize, run_bind_of_ok (readUint256_append blockhash _),
      run_bind_of_ok (ReadCompactSize_WriteCompactSize (by rwa [hsize]) _), hwire,
      run_bind_of_ok hchunks]
    simp only [StateT.run_bind, StateT.run_lift, happly]
    rfl
  · intro s req rest h
    obtain ⟨blockhash, s₁, -, h⟩ := run_bind_eq_ok.1 h
    obtain ⟨indexes_size, s₂, -, h⟩ := run_bind_eq_ok.1 h
    obtain ⟨gs, s₃, -, h⟩ := run_bind_eq_ok.1 h
    obtain ⟨indexes, s₄, hoff, h⟩ := run_bind_eq_ok.1 h
    rw [StateT.run_lift] at hoff
    obtain ⟨out, hout, heq⟩ : ∃ out, applyOffsets 0 gs = .ok out ∧ (out, s₃) = (indexes, s₄) := by
      cases hr : applyOffsets 0 gs with
      | error e => rw [hr] at hoff; cases hoff
      | ok out => rw [hr] at hoff; exact ⟨out, rfl, Except.ok.inj hoff⟩
    obtain ⟨rfl, -⟩ := Prod.mk.inj heq
    obtain ⟨rfl, -⟩ := Prod.mk.inj (Except.ok.inj h)
    exact (applyOffsets_isChain gs 0 out hout).2

/-- A request for the transactions at positions `1`, `5` and `65535` of a block. -/
def sampleRequest : BlockTransactionsRequest :=
  ⟨⟨List.replicate 32 0xab, List.length_replicate⟩, [1, 5, 65535]⟩

theorem unserialize_serialize_indexes_on_sample :
    sampleRequest.indexes.Pairwise (· < ·) ∧
      unserialize.run (CDataStream.written sampleRequest.serialize ++ []) =
        .ok (sampleRequest, []) :=
  ⟨by decide, unserialize_serialize_indexes.1 sampleRequest (by decide) []⟩

/-- The gaps `65535` and `0` read as the positions `65535` and `0`: the offset after `65535`
wrapped to zero. -/
theorem unserialize_wraps_after_max :
    unserialize.run ((List.replicate 32 0) ++ [2, 0xfd, 0xff, 0xff, 0]) =
        .ok (⟨⟨List.replicate 32 0, List.length_replicate⟩, [65535, 0]⟩, []) ∧
      ¬ [(65535 : UInt16), 0].Pairwise (· < ·) := by
  refine ⟨by decide +kernel, by decide⟩

end BlockTransactionsRequest

end LightningCash
