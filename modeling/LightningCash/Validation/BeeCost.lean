import LightningCash.Consensus.Issuance

/-!
# The cost of a bee and the bee count of a hive proof

`GetBeeCost` divides the block reward by `beeCostFactor` and then, whatever the tip, divides
`10000000` by that quotient; the hive checks divide the value of the bee creation transaction
by the cost of one bee, which `CheckHiveProof` takes from `GetBeeCost` and `CheckHiveProof3`
computes as `0.0004` of the subsidy at the parent's height. Both quotients are zero once the
subsidy is below `beeCostFactor`, and the subsidy halves until it is: on the main network
that is the sixteenth halving, at height `16 * 8400000`, where `125000000 / 2 ^ 16 = 1907`.

`0.0004 * subsidy` is a `double` converted to `CAmount`. The double nearest `0.0004` is above
it by less than one part in `10 ^ 16`, and the fractional part of `0.0004 * subsidy` is a
multiple of `0.0004` when it is not zero, so for every subsidy up to `10 ^ 15` (the premine,
the largest) the conversion gives `4 * subsidy / 10000`, which the model computes.
-/

namespace LightningCash

/-- `beeCost` in `CheckHiveProof3`: `0.0004 * GetBlockSubsidy(pindexPrev->nHeight, params)`,
converted to `CAmount`. -/
def hive3BeeCost (prevHeight : ℤ) (params : ConsensusParams) : Except String ℤ := do
  let nSubsidy ← GetBlockSubsidy prevHeight params
  return (4 * nSubsidy).tdiv 10000

/-- The bee count the hive checks compute from the BCT's value and the cost of one bee:
`if (bctValue < minBeeCost) return false; if (bctValue < beeCost) return false;
unsigned int beeCount = bctValue / beeCost;`. `none` is either `return false`. -/
def beeCountOf (params : ConsensusParams) (bctValue beeCost : ℤ) : Except String (Option ℤ) :=
  if bctValue < params.minBeeCost then .ok none
  else if bctValue < beeCost then .ok none
  else (amountDiv bctValue beeCost).map fun q ↦ some (q % 2 ^ 32)

/-- The bee count of `CheckHiveProof`, whose bee cost is `GetBeeCost(bctFoundHeight, params)`. -/
def hiveProofBeeCount (st : NodeState) (params : ConsensusParams) (bctFoundHeight bctValue : ℤ) :
    Except String (Option ℤ) := do
  let beeCost ← GetBeeCost st bctFoundHeight params
  beeCountOf params bctValue beeCost

/-- The bee count of `CheckHiveProof3`, at the parent's height. -/
def hiveProof3BeeCount (params : ConsensusParams) (prevHeight bctValue : ℤ) :
    Except String (Option ℤ) := do
  let beeCost ← hive3BeeCost prevHeight params
  beeCountOf params bctValue beeCost

/-! ## The divisions, for any parameters -/

/-- A positive bee cost never faults the bee count. -/
theorem beeCountOf_of_pos (params : ConsensusParams) (bctValue : ℤ) {beeCost : ℤ}
    (hb : 0 < beeCost) :
    ∃ r, beeCountOf params bctValue beeCost = .ok r := by
  unfold beeCountOf
  split_ifs
  · exact ⟨_, rfl⟩
  · exact ⟨_, rfl⟩
  · exact ⟨_, by simp [amountDiv, hb.ne']; rfl⟩

/-- A zero bee cost faults it for every value that passes the check against `minBeeCost`, as
long as `minBeeCost` is not negative. -/
theorem beeCountOf_zero {params : ConsensusParams} {bctValue : ℤ}
    (hmin : 0 ≤ params.minBeeCost) (hv : params.minBeeCost ≤ bctValue) :
    beeCountOf params bctValue 0 = .error "integer division by zero" := by
  rw [beeCountOf, if_neg (by omega), if_neg (by omega)]
  rfl

/-- Whatever `GetBeeCost` returns is at least `minBeeCost`: each of its returns is either that
or a cost raised to it. -/
theorem GetBeeCost_ge_minBeeCost {st : NodeState} {nHeight : ℤ} {params : ConsensusParams}
    {c : ℤ} (h : GetBeeCost st nHeight params = .ok c) : params.minBeeCost ≤ c := by
  unfold GetBeeCost at h
  split_ifs at h with hwindow
  · cases h
    exact le_rfl
  obtain ⟨s, -, h⟩ := Except.bind_eq_ok.mp h
  obtain ⟨beeCost, -, h⟩ := Except.bind_eq_ok.mp h
  -- Some lifespan always applies, so the join point is reached through `some`.
  obtain ⟨l, hl⟩ := Option.isSome_iff_exists.mp (isSome_beeLifespanAt params st.tipHeight)
  simp only [hl] at h
  obtain ⟨_, -, h⟩ := Except.bind_eq_ok.mp h
  obtain ⟨_, -, h⟩ := Except.bind_eq_ok.mp h
  obtain ⟨_, -, h⟩ := Except.bind_eq_ok.mp h
  -- Each return raises its cost to `minBeeCost`.
  split_ifs at h <;> (cases h; omega)

/-- Outside the heights where it returns `minBeeCost` at once, `GetBeeCost` divides `10000000`
by the block reward over `beeCostFactor`, whatever the tip and the mature bees: it faults
exactly when that quotient is zero. -/
theorem GetBeeCost_of_subsidy (st : NodeState) {nHeight : ℤ} {params : ConsensusParams} {s : ℤ}
    (hwindow : ¬(nHeight ≥ params.totalMoneySupplyHeight ∧ nHeight < nHiveRepairFork))
    (hs : GetBlockSubsidy nHeight params = .ok s) (hfactor : params.beeCostFactor ≠ 0)
    (hspacing : params.hiveBlockSpacingTarget ≠ 0) :
    (s.tdiv params.beeCostFactor = 0 →
        GetBeeCost st nHeight params = .error "integer division by zero") ∧
      (s.tdiv params.beeCostFactor ≠ 0 → ∃ c, GetBeeCost st nHeight params = .ok c) := by
  have hbee : amountDiv s params.beeCostFactor = .ok (s.tdiv params.beeCostFactor) :=
    if_neg hfactor
  obtain ⟨l, hl⟩ := Option.isSome_iff_exists.mp (isSome_beeLifespanAt params st.tipHeight)
  have hlife : amountDiv (l * s) params.hiveBlockSpacingTarget =
      .ok ((l * s).tdiv params.hiveBlockSpacingTarget) := if_neg hspacing
  unfold GetBeeCost
  simp only [if_neg hwindow, hs, hbee, hl, hlife, Except.ok_bind]
  constructor
  · intro h0
    simp only [amountDiv, h0, if_true, Except.error_bind]
  · intro h0
    simp only [amountDiv, h0, if_false, Except.ok_bind]
    split_ifs <;> exact ⟨_, rfl⟩

/-- The bee count of `CheckHiveProof` divides by what `GetBeeCost` returns, which is at least
`minBeeCost`: with a positive `minBeeCost` it faults only where `GetBeeCost` does. -/
theorem hiveProofBeeCount_isOk_iff {st : NodeState} {params : ConsensusParams}
    {bctFoundHeight bctValue : ℤ} (hmin : 0 < params.minBeeCost) :
    (∃ r, hiveProofBeeCount st params bctFoundHeight bctValue = .ok r) ↔
      ∃ c, GetBeeCost st bctFoundHeight params = .ok c := by
  constructor
  · rintro ⟨r, hr⟩
    obtain ⟨c, hc, -⟩ := Except.bind_eq_ok.mp hr
    exact ⟨c, hc⟩
  · rintro ⟨c, hc⟩
    have hpos : 0 < c := lt_of_lt_of_le hmin (GetBeeCost_ge_minBeeCost hc)
    obtain ⟨r, hr⟩ := beeCountOf_of_pos params bctValue hpos
    exact ⟨r, by rw [hiveProofBeeCount, hc, Except.ok_bind, hr]⟩

/-- The bee cost of `CheckHiveProof3` is the subsidy over `2500`, the main network's
`beeCostFactor`. -/
theorem hive3BeeCost_eq {prevHeight : ℤ} {params : ConsensusParams} {s : ℤ}
    (hs : GetBlockSubsidy prevHeight params = .ok s) (h0 : 0 ≤ s) :
    hive3BeeCost prevHeight params = .ok (s.tdiv 2500) := by
  rw [hive3BeeCost, hs, Except.ok_bind, Int.tdiv_eq_ediv_of_nonneg (by omega),
    Int.tdiv_eq_ediv_of_nonneg h0, show (10000 : ℤ) = 4 * 2500 by norm_num,
    Int.mul_ediv_mul_of_pos _ _ (by norm_num)]
  rfl

/-! ## The main network -/

/-- The halved subsidy falls below `2500` at the sixteenth halving:
`125000000 / 2 ^ 15 = 3814` and `125000000 / 2 ^ 16 = 1907`. -/
theorem halvedSubsidy_lt_iff (k : ℕ) : 125000000 / 2 ^ k < 2500 ↔ 16 ≤ k := by
  constructor
  · intro hlt
    by_contra hk
    have hle : 125000000 / 2 ^ 15 ≤ 125000000 / 2 ^ k :=
      Nat.div_le_div_left (Nat.pow_le_pow_right Nat.zero_lt_two (by omega)) (by positivity)
    norm_num at hle
    omega
  · intro hk
    have hle : 125000000 / 2 ^ k ≤ 125000000 / 2 ^ 16 :=
      Nat.div_le_div_left (Nat.pow_le_pow_right Nat.zero_lt_two hk) (by positivity)
    norm_num at hle
    omega

/-- On the main network the subsidy at height `h` is below `beeCostFactor` exactly from the
sixteenth halving on: before, it is the premine or `125000000` halved at most fifteen times;
after, `125000000` halved sixteen times or more, or nothing from the sixty-fourth halving. -/
theorem GetBlockSubsidy_main_tdiv (h : ℕ) :
    ∃ s, GetBlockSubsidy h mainParams = .ok s ∧ 0 ≤ s ∧
      (s.tdiv 2500 = 0 ↔ 16 * 8400000 ≤ h) := by
  set k := h / 8400000 with hkdef
  have hk : (h : ℤ).tdiv mainParams.nSubsidyHalvingInterval = k := tdiv_natCast h (by decide)
  have hepoch : 16 ≤ k ↔ 16 * 8400000 ≤ h := Nat.le_div_iff_mul_le (by norm_num)
  -- Every subsidy is nonnegative, so its quotient is the floor quotient.
  suffices ∃ s, GetBlockSubsidy h mainParams = .ok s ∧ 0 ≤ s ∧
      (s / 2500 = 0 ↔ 16 ≤ k) by
    obtain ⟨s, hs, h0, hiff⟩ := this
    exact ⟨s, hs, h0, by rw [Int.tdiv_eq_ediv_of_nonneg h0, hiff, hepoch]⟩
  simp only [GetBlockSubsidy, show mainParams.nSubsidyHalvingInterval ≠ 0 by decide, if_false,
    hk]
  by_cases h64 : (k : ℤ) ≥ 64
  · -- nothing from the sixty-fourth halving on
    exact ⟨0, by rw [if_pos h64]; rfl, le_rfl, by simp; omega⟩
  rw [if_neg h64]
  by_cases hpre : 1 ≤ (h : ℤ) ∧ (h : ℤ) ≤ 7
  · -- the premine, paid before the first halving
    refine ⟨10000000 * COIN, by rw [if_pos hpre]; rfl, by decide, ?_⟩
    have : k = 0 := Nat.div_eq_of_lt (by omega)
    simp only [COIN, this]
    omega
  -- the halved subsidy, with no slow start: `slowStartBlocks` is zero
  have hbase : (125000000 : ℤ) / 2 ^ k = ((125000000 / 2 ^ k : ℕ) : ℤ) := by
    rw [Int.natCast_ediv, Nat.cast_pow, Nat.cast_ofNat, Nat.cast_ofNat]
  have hslow : ¬((h : ℤ) - mainParams.lastScryptBlock > 0 ∧
      (h : ℤ) - mainParams.lastScryptBlock < mainParams.slowStartBlocks) := by
    simp only [mainParams]
    omega
  rw [if_neg hpre, shiftRightAmount_of_lt _ (by omega), hbase, Except.ok_bind, if_neg hslow]
  refine ⟨_, rfl, Int.natCast_nonneg _, ?_⟩
  rw [← halvedSubsidy_lt_iff]
  generalize 125000000 / 2 ^ k = m
  omega

/-- On the main network, for every tip and every height: `GetBeeCost` returns exactly below the
sixteenth halving and from there on divides by zero; what it returns is at least `minBeeCost`,
so the bee count of `CheckHiveProof` faults only where `GetBeeCost` does; and the bee cost of
`CheckHiveProof3` is positive exactly below the sixteenth halving, its bee count dividing by
zero from there on for every BCT value that passes the `minBeeCost` check. -/
theorem GetBeeCost_divides_by_zero_from_sixteenth_halving (st : NodeState) (nHeight : ℕ) :
    ((∃ c, GetBeeCost st nHeight mainParams = .ok c) ↔ nHeight < 16 * 8400000) ∧
    (16 * 8400000 ≤ nHeight →
      GetBeeCost st nHeight mainParams = .error "integer division by zero") ∧
    (∀ c, GetBeeCost st nHeight mainParams = .ok c → mainParams.minBeeCost ≤ c) ∧
    (∀ bctValue : ℤ, (∃ r, hiveProofBeeCount st mainParams nHeight bctValue = .ok r) ↔
      nHeight < 16 * 8400000) ∧
    (∃ beeCost, hive3BeeCost nHeight mainParams = .ok beeCost ∧
      (0 < beeCost ↔ nHeight < 16 * 8400000)) ∧
    ∀ bctValue : ℤ, mainParams.minBeeCost ≤ bctValue →
      (hiveProof3BeeCount mainParams nHeight bctValue = .error "integer division by zero" ↔
        16 * 8400000 ≤ nHeight) := by
  obtain ⟨s, hs, h0, hiff⟩ := GetBlockSubsidy_main_tdiv nHeight
  -- `totalMoneySupplyHeight` is above `nHiveRepairFork`: the early return never applies.
  have hwindow : ¬((nHeight : ℤ) ≥ mainParams.totalMoneySupplyHeight ∧
      (nHeight : ℤ) < nHiveRepairFork) := by
    simp only [mainParams, nHiveRepairFork]
    omega
  obtain ⟨hzero, hok⟩ := GetBeeCost_of_subsidy st hwindow hs (by decide) (by decide)
  have hfactor : mainParams.beeCostFactor = 2500 := rfl
  rw [hfactor] at hzero hok
  have hbee : (∃ c, GetBeeCost st nHeight mainParams = .ok c) ↔ nHeight < 16 * 8400000 := by
    constructor
    · rintro ⟨c, hc⟩
      by_contra hlate
      rw [hzero (hiff.mpr (by omega))] at hc
      cases hc
    · intro hearly
      exact hok (fun h ↦ by omega)
  have hcost := hive3BeeCost_eq hs h0
  have hq : 0 ≤ s.tdiv 2500 := Int.tdiv_nonneg h0 (by norm_num)
  refine ⟨hbee, fun hlate ↦ hzero (hiff.mpr hlate), fun c hc ↦ GetBeeCost_ge_minBeeCost hc,
    fun bctValue ↦ (hiveProofBeeCount_isOk_iff (by decide)).trans hbee,
    ⟨_, hcost, by omega⟩, fun bctValue hv ↦ ?_⟩
  rw [hiveProof3BeeCount, hcost, Except.ok_bind]
  by_cases hlate : 16 * 8400000 ≤ nHeight
  · rw [hiff.mpr hlate]
    exact iff_of_true (beeCountOf_zero (by decide) hv) hlate
  · obtain ⟨r, hr⟩ := beeCountOf_of_pos mainParams bctValue
      (show 0 < s.tdiv 2500 by omega)
    rw [hr]
    exact iff_of_false (by simp) hlate

/-- A node at the sixteenth halving: `GetBeeCost` and the bee count of `CheckHiveProof3` both
divide by zero, the latter for a BCT worth `minBeeCost`. -/
theorem GetBeeCost_divides_by_zero_at_sixteenth_halving :
    GetBeeCost ⟨⟨[], List.nodup_nil⟩, 0, 0, fun _ ↦ none⟩ (134400000 : ℕ) mainParams =
        .error "integer division by zero" ∧
      hiveProof3BeeCount mainParams (134400000 : ℕ) 10000 = .error "integer division by zero" :=
  ⟨(GetBeeCost_divides_by_zero_from_sixteenth_halving ⟨⟨[], List.nodup_nil⟩, 0, 0, fun _ ↦ none⟩
      134400000).2.1 le_rfl,
    ((GetBeeCost_divides_by_zero_from_sixteenth_halving ⟨⟨[], List.nodup_nil⟩, 0, 0, fun _ ↦ none⟩
      134400000).2.2.2.2.2 10000 (by decide)).mpr le_rfl⟩

end LightningCash
