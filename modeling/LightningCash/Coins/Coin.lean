import LightningCash.Serialize.Compressor

/-!
# Coins and their database record

`Coin` of `coins.h`: an unspent output with the height of the block that created it and whether
it came from a coinbase. The record in the UTXO database is the height and the coinbase flag as
one `VarInt` (`nHeight * 2 + fCoinBase`), then the output through `CTxOutCompressor`. Reading it
back goes through three codecs stacked on one stream; each was shown to read back its own
encoding from the front of any stream, so the record does.
-/

namespace LightningCash

structure Coin where
  out : CTxOut
  fCoinBase : Bool
  /-- A 31-bit field. -/
  nHeight : ℕ
  deriving DecidableEq

namespace Coin

def IsSpent (c : Coin) : Bool := c.out.IsNull

def Serialize (prims : PubKeyPrimitives) (c : Coin) : Except String (List UInt8) :=
  if c.IsSpent then .error "assertion failed: !IsSpent()"
  else
    let code := (c.nHeight * 2 + if c.fCoinBase then 1 else 0) % 2 ^ 32
    .ok (WriteVarInt code ++ CTxOutCompressor.Serialize prims c.out)

/-- `Unserialize` into the coin `c`; the bit fields keep the low bits of what is stored. -/
def Unserialize (prims : PubKeyPrimitives) (c : Coin) : Reader Coin := do
  let code ← ReadVarInt 32
  let out ← CTxOutCompressor.Unserialize prims c.out
  pure { out, fCoinBase := code &&& 1 != 0, nHeight := (code >>> 1) % 2 ^ 31 }

/-- The height and the flag come back out of their code. -/
theorem code_fields (nHeight : ℕ) (fCoinBase : Bool) (h : nHeight < 2 ^ 31) :
    ((nHeight * 2 + if fCoinBase then 1 else 0) &&& 1 != 0) = fCoinBase ∧
      (nHeight * 2 + if fCoinBase then 1 else 0) >>> 1 % 2 ^ 31 = nHeight := by
  have hand : ∀ x : ℕ, x &&& 1 = x % 2 := fun x ↦ Nat.and_two_pow_sub_one_eq_mod x 1
  rw [hand, Nat.shiftRight_eq_div_pow, pow_one]
  cases fCoinBase
  · refine ⟨by simp, ?_⟩
    rw [if_neg Bool.false_ne_true, Nat.mod_eq_of_lt (by omega)]
    omega
  · refine ⟨by simp, ?_⟩
    rw [if_pos rfl, Nat.mod_eq_of_lt (by omega)]
    omega

end Coin

/-- The UTXO record reads back every unspent coin of a height below `2 ^ 31`, an amount up to
`MAX_MONEY` and a script up to `MAX_SCRIPT_SIZE`, whatever the coin read into held, and takes
exactly its bytes, provided `CPubKey::Decompress` inverts the key compression. -/
theorem Coin_roundtrip {prims : PubKeyPrimitives} (hprims : DecompressInverts prims) (c : Coin)
    (hheight : c.nHeight < 2 ^ 31) (hv0 : 0 ≤ c.out.nValue) (hv : c.out.nValue ≤ MAX_MONEY)
    (hlen : c.out.scriptPubKey.length ≤ MAX_SCRIPT_SIZE) (c₀ : Coin) (rest : List UInt8) :
    ∃ bytes, c.Serialize prims = .ok bytes ∧
      (Coin.Unserialize prims c₀).run (bytes ++ rest) = .ok (c, rest) := by
  obtain ⟨out, fCoinBase, nHeight⟩ := c
  dsimp only at hheight hv0 hv hlen
  have hunspent : out.IsNull = false := by
    simp only [CTxOut.IsNull, beq_eq_false_iff_ne, ne_eq]
    omega
  have hcode : (nHeight * 2 + if fCoinBase then 1 else 0) % 2 ^ 32 =
      nHeight * 2 + if fCoinBase then 1 else 0 :=
    Nat.mod_eq_of_lt (by split_ifs <;> omega)
  obtain ⟨hflag, hheight'⟩ := Coin.code_fields nHeight fCoinBase hheight
  refine ⟨_, by rw [Coin.Serialize, Coin.IsSpent, hunspent, if_neg Bool.false_ne_true], ?_⟩
  dsimp only
  rw [hcode, List.append_assoc, Coin.Unserialize,
    Codec.run_bind_of_ok (ReadVarInt_WriteVarInt (by split_ifs <;> omega) _),
    Codec.run_bind_of_ok (CTxOutCompressor.Unserialize_Serialize hprims hv0 hv hlen _ rest), hflag,
    hheight']
  rfl

/-- Key primitives under which no key is fully valid: pay-to-key scripts of uncompressed keys
are then stored raw. -/
def noValidKeys : PubKeyPrimitives := ⟨fun _ ↦ false, fun _ ↦ none⟩

theorem noValidKeys_decompressInverts : DecompressInverts noValidKeys :=
  fun _ _ _ hvalid ↦ nomatch hvalid

theorem Coin_roundtrip_at_height_five :
    ∃ bytes, Coin.Serialize noValidKeys ⟨⟨100, [OP_1]⟩, true, 5⟩ = .ok bytes ∧
      (Coin.Unserialize noValidKeys ⟨⟨-1, []⟩, false, 0⟩).run (bytes ++ []) =
        .ok (⟨⟨100, [OP_1]⟩, true, 5⟩, []) :=
  Coin_roundtrip noValidKeys_decompressInverts ⟨⟨100, [OP_1]⟩, true, 5⟩ (by decide) (by decide)
    (by decide) (by decide) ⟨⟨-1, []⟩, false, 0⟩ []

end LightningCash
