import Mathlib.Algebra.BigOperators.Group.Finset.Basic
import Mathlib.Algebra.Order.BigOperators.Group.Finset
import Mathlib.Algebra.Group.Action.Defs

/-!
# Halving schedules

A reward paid at step `h` that depends on the epoch `h / I` only, the epochs being `I` steps
long, and that halves from one epoch to the next by a floor division. Its sum over any number of
steps is bounded in two moves, each a lemma here.

* Grouping the steps by epoch: the sum of `f (h / I)` over `h < n` is at most `I` times the sum of
  `f` over the epochs that meet `[0, n)` (`sum_div_le`).
* The floor-halving series: `c / 2 ^ k` summed over any number of epochs is at most `2 * c`
  (`sum_div_two_pow_le`), each floor quotient being the one before halved.
-/

namespace Halving

open Finset

/-- The steps of `K` whole epochs of `I` steps: each epoch pays `I` times its reward. -/
theorem sum_range_mul_div (f : ℕ → ℕ) {I : ℕ} (hI : 0 < I) (K : ℕ) :
    ∑ h ∈ range (I * K), f (h / I) = I * ∑ k ∈ range K, f k := by
  induction K with
  | zero => simp
  | succ K ih =>
    have hepoch : ∀ j ∈ range I, f ((I * K + j) / I) = f K := by
      intro j hj
      rw [Nat.add_comm, Nat.add_mul_div_left _ _ hI, Nat.div_eq_of_lt (mem_range.mp hj),
        Nat.zero_add]
    rw [Nat.mul_succ, sum_range_add, ih, sum_congr rfl hepoch, sum_const, card_range,
      smul_eq_mul, sum_range_succ, Nat.mul_add]

/-- The sum of `f (h / I)` over `h < n` is at most `I` times the sum of `f` over the epochs
`0, ..., n / I`. -/
theorem sum_div_le (f : ℕ → ℕ) {I : ℕ} (hI : 0 < I) (n : ℕ) :
    ∑ h ∈ range n, f (h / I) ≤ I * ∑ k ∈ range (n / I + 1), f k := by
  have hn : n ≤ I * (n / I + 1) := by
    rw [Nat.mul_succ]
    have := Nat.lt_div_mul_add hI (a := n)
    rw [Nat.mul_comm] at this
    omega
  calc ∑ h ∈ range n, f (h / I)
      ≤ ∑ h ∈ range (I * (n / I + 1)), f (h / I) :=
        sum_le_sum_of_subset (range_subset_range.mpr hn)
    _ = I * ∑ k ∈ range (n / I + 1), f k := sum_range_mul_div f hI _

/-- The floor-halving series: `c / 2 ^ k` over `k < K` adds up to at most `2 * c`. -/
theorem sum_div_two_pow_le (c K : ℕ) : ∑ k ∈ range K, c / 2 ^ k ≤ 2 * c := by
  induction K generalizing c with
  | zero => simp
  | succ K ih =>
    -- the terms after the first are the series of `c / 2`
    have hshift : ∑ k ∈ range K, c / 2 ^ (k + 1) = ∑ k ∈ range K, c / 2 / 2 ^ k := by
      refine sum_congr rfl fun k _ ↦ ?_
      rw [Nat.div_div_eq_div_mul, pow_succ']
    have hhalf := ih (c / 2)
    rw [sum_range_succ', hshift, pow_zero, Nat.div_one]
    omega

end Halving
