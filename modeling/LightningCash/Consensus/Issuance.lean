import LightningCash.Lib.Halving
import LightningCash.Validation.HiveProof

/-!
# The money supply

`GetBlockSubsidy` pays a premine of `10000000 * COIN` at heights 1 to 7, and otherwise
`125000000` shifted right once per `nSubsidyHalvingInterval` blocks, a part of it during a slow
start, and nothing from the sixty-fourth halving on. Added up over the heights of a chain, that
stays below `MAX_MONEY`.

Each subsidy is bounded by the premine of its height plus the unreduced halved subsidy
(`GetBlockSubsidy_le`); the premine is paid seven times, and the halved subsidies are bounded by
grouping the heights into halving epochs (`Halving.sum_div_le`) and summing the floor-halving
series (`Halving.sum_div_two_pow_le`). The subsidy is defined at every height from zero: the
shift `nSubsidy >>= halvings`, which the model faults on an amount out of range, only ever sees
amounts below 64.
-/

namespace LightningCash

open Finset

/-- The subsidies of the blocks at heights `0, ..., n - 1` added up. -/
def subsidySum (params : ConsensusParams) : ℕ → Except String ℤ
  | 0 => return 0
  | n + 1 => do return (← subsidySum params n) + (← GetBlockSubsidy n params)

/-- The premine paid at height `h`, `10000000 * COIN` at heights 1 to 7. -/
def premine (h : ℕ) : ℕ := if 1 ≤ h ∧ h ≤ 7 then 1000000000000000 else 0

/-- `int halvings = nHeight / nSubsidyHalvingInterval` at a height of a chain. -/
theorem tdiv_natCast (h : ℕ) {I : ℤ} (hI : 0 < I) : (h : ℤ).tdiv I = ((h / I.toNat : ℕ) : ℤ) := by
  obtain ⟨d, rfl⟩ := Int.eq_ofNat_of_zero_le hI.le
  rw [Int.tdiv_eq_ediv_of_nonneg (Int.natCast_nonneg h), Int.toNat_natCast, Int.natCast_ediv]

theorem shiftRightAmount_of_lt (x : ℤ) {k : ℕ} (hk : k < 64) :
    shiftRightAmount x k = .ok (x / 2 ^ k) := by
  rw [shiftRightAmount, if_neg (by omega), Int.toNat_natCast, Int.shiftRight_eq_div_pow]
  rfl

/-- The slow start pays `blocksSinceFork` increments of `nSubsidy / slowStartBlocks`, at most
`nSubsidy`. -/
theorem slowStart_le {b x S : ℤ} (hb : 0 < b) (hbS : b < S) (hx : 0 ≤ x) :
    0 ≤ b * x.tdiv S ∧ b * x.tdiv S ≤ x := by
  rw [Int.tdiv_eq_ediv_of_nonneg hx]
  have hq : 0 ≤ x / S := Int.ediv_nonneg hx (by omega)
  have hmul : x / S * S ≤ x := Int.ediv_mul_le x (by omega)
  constructor
  · positivity
  · nlinarith

/-- The step lemma: at every height of a chain the subsidy is defined, nonnegative, and at most
the premine plus the halved subsidy of the height's epoch. -/
theorem GetBlockSubsidy_le {params : ConsensusParams} (hI : 0 < params.nSubsidyHalvingInterval)
    (h : ℕ) : ∃ s, GetBlockSubsidy h params = .ok s ∧ 0 ≤ s ∧
      s ≤ premine h + (125000000 / 2 ^ (h / params.nSubsidyHalvingInterval.toNat) : ℕ) := by
  set k := h / params.nSubsidyHalvingInterval.toNat
  have hk : (h : ℤ).tdiv params.nSubsidyHalvingInterval = k := tdiv_natCast h hI
  simp only [GetBlockSubsidy, hI.ne', if_false, hk]
  by_cases h64 : (k : ℤ) ≥ 64
  · refine ⟨0, by simp [h64], le_rfl, by positivity⟩
  rw [if_neg h64]
  have hk64 : k < 64 := by omega
  by_cases hpre : 1 ≤ (h : ℤ) ∧ (h : ℤ) ≤ 7
  · -- the premine
    have hpremine : premine h = 1000000000000000 := if_pos (by omega)
    refine ⟨10000000 * COIN, by rw [if_pos hpre]; rfl, by decide, ?_⟩
    have := Int.natCast_nonneg (125000000 / 2 ^ k)
    rw [hpremine, COIN]
    omega
  have hpremine : premine h = 0 := if_neg (by omega)
  have hbase : (125000000 : ℤ) / 2 ^ k = ((125000000 / 2 ^ k : ℕ) : ℤ) := by
    rw [Int.natCast_ediv, Nat.cast_pow, Nat.cast_ofNat, Nat.cast_ofNat]
  have hx : 0 ≤ (125000000 : ℤ) / 2 ^ k := by rw [hbase]; positivity
  rw [if_neg hpre, shiftRightAmount_of_lt _ hk64, hpremine, Nat.cast_zero, zero_add, ← hbase]
  split_ifs with hslow
  · -- the slow start pays a part of the subsidy
    obtain ⟨h0, hle⟩ := slowStart_le hslow.1 hslow.2 hx
    exact ⟨_, rfl, h0, hle⟩
  · exact ⟨_, rfl, hx, le_rfl⟩

theorem premine_le (h : ℕ) : premine h ≤ 1000000000000000 := by
  unfold premine
  split_ifs <;> omega

/-- The premine is paid seven times. -/
theorem sum_premine_le (n : ℕ) : ∑ h ∈ range n, premine h ≤ 7000000000000000 := by
  have hafter : ∀ j ∈ range n, premine (8 + j) = 0 := fun j _ ↦ if_neg (by omega)
  calc ∑ h ∈ range n, premine h
      ≤ ∑ h ∈ range (8 + n), premine h := sum_le_sum_of_subset (range_subset_range.mpr (by omega))
    _ = 7000000000000000 := by
      rw [sum_range_add, sum_eq_zero hafter, Nat.add_zero]
      simp [sum_range_succ, premine]

/-- The run lemma: the sum to any height is defined, and bounded by the bounds of its terms. -/
theorem subsidySum_le {params : ConsensusParams} (hI : 0 < params.nSubsidyHalvingInterval)
    (n : ℕ) : ∃ total, subsidySum params n = .ok total ∧
      total ≤ ((∑ h ∈ range n,
        (premine h + 125000000 / 2 ^ (h / params.nSubsidyHalvingInterval.toNat)) : ℕ) : ℤ) := by
  induction n with
  | zero => exact ⟨0, rfl, by simp⟩
  | succ n ih =>
    obtain ⟨total, htotal, hle⟩ := ih
    obtain ⟨s, hs, -, hsle⟩ := GetBlockSubsidy_le hI n
    refine ⟨total + s, by rw [subsidySum, htotal, hs]; rfl, ?_⟩
    rw [sum_range_succ, Nat.cast_add, Nat.cast_add]
    omega

/-- Under every halving interval up to the main network's (the built-in ones are `8400000`,
`1050000` and `150`), and whatever the slow start, every subsidy lies in `[0, MAX_MONEY]` and so
does the sum of the subsidies up to any height. -/
theorem GetBlockSubsidy_total_le_MAX_MONEY {params : ConsensusParams}
    (hI : 0 < params.nSubsidyHalvingInterval) (hI' : params.nSubsidyHalvingInterval ≤ 8400000) :
    (∀ h : ℕ, ∃ s, GetBlockSubsidy h params = .ok s ∧ 0 ≤ s ∧ s ≤ MAX_MONEY) ∧
      ∀ n : ℕ, ∃ total, subsidySum params n = .ok total ∧ total ≤ MAX_MONEY := by
  have hIpos : 0 < params.nSubsidyHalvingInterval.toNat := by omega
  have hIle : params.nSubsidyHalvingInterval.toNat ≤ 8400000 := by omega
  refine ⟨fun h ↦ ?_, fun n ↦ ?_⟩
  · obtain ⟨s, hs, h0, hle⟩ := GetBlockSubsidy_le hI h
    have hpre := premine_le h
    have hbase := Nat.div_le_self 125000000 (2 ^ (h / params.nSubsidyHalvingInterval.toNat))
    refine ⟨s, hs, h0, ?_⟩
    rw [MAX_MONEY, COIN]
    omega
  · obtain ⟨total, htotal, hle⟩ := subsidySum_le hI n
    -- the regular subsidies: `I` blocks an epoch, the epochs' subsidies halving
    have hregular : ∑ h ∈ range n, 125000000 / 2 ^ (h / params.nSubsidyHalvingInterval.toNat) ≤
        params.nSubsidyHalvingInterval.toNat * (2 * 125000000) :=
      (Halving.sum_div_le (fun k ↦ 125000000 / 2 ^ k) hIpos n).trans
        (Nat.mul_le_mul_left _ (Halving.sum_div_two_pow_le 125000000 _))
    have hsum : ∑ h ∈ range n,
        (premine h + 125000000 / 2 ^ (h / params.nSubsidyHalvingInterval.toNat)) ≤
        7000000000000000 + 8400000 * (2 * 125000000) := by
      rw [sum_add_distrib]
      exact Nat.add_le_add (sum_premine_le n)
        (hregular.trans (Nat.mul_le_mul_right _ hIle))
    refine ⟨total, htotal, ?_⟩
    rw [MAX_MONEY, COIN]
    have := (Nat.cast_le (α := ℤ)).mpr hsum
    omega

theorem GetBlockSubsidy_total_le_MAX_MONEY_on_main :
    0 < mainParams.nSubsidyHalvingInterval ∧ mainParams.nSubsidyHalvingInterval ≤ 8400000 ∧
      (∀ h : ℕ, ∃ s, GetBlockSubsidy h mainParams = .ok s ∧ 0 ≤ s ∧ s ≤ MAX_MONEY) ∧
        ∀ n : ℕ, ∃ total, subsidySum mainParams n = .ok total ∧ total ≤ MAX_MONEY :=
  ⟨by decide, by decide, GetBlockSubsidy_total_le_MAX_MONEY (by decide) (by decide)⟩

end LightningCash
