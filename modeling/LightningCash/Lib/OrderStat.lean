import Mathlib.Data.List.GetD
import Mathlib.Data.List.Sort
import Mathlib.Order.Basic
import Mathlib.Tactic.Set

/-!
# Order statistics of a list

`sortedAt d l k` is the element at position `k` of `l` sorted in ascending order, computed with
`List.insertionSort`, which is structurally recursive and so evaluates in the kernel (`d` past the
end). It is pinned down by counting: at most `k` elements of `l`
lie strictly below it, and any value with at most `k` elements of `l` strictly below it is at
most it. Neither fact depends on the order of `l`.

Together they say when a middle element of a sliding window can only grow: when the window
loses some of its elements and gains elements that are not below the old middle one, the number
of elements below that old value does not grow, and the new middle position is not earlier.
-/

namespace OrderStat

variable {α : Type*} [LinearOrder α]

/-- The element at position `k` of `l` sorted in ascending order, or `d` past the end. -/
def sortedAt (d : α) (l : List α) (k : ℕ) : α :=
  (l.insertionSort (· ≤ ·)).getD k d

/-- The number of elements of `l` strictly below `m`. -/
def countBelow (m : α) (l : List α) : ℕ :=
  l.countP fun x ↦ decide (x < m)

theorem countBelow_le_length (m : α) (l : List α) : countBelow m l ≤ l.length :=
  List.countP_le_length

theorem countBelow_insertionSort (m : α) (l : List α) :
    countBelow m (l.insertionSort (· ≤ ·)) = countBelow m l :=
  (List.perm_insertionSort _ l).countP_eq _

@[simp] theorem countBelow_reverse (m : α) (l : List α) :
    countBelow m l.reverse = countBelow m l :=
  List.countP_reverse

theorem countBelow_cons_of_le {m x : α} (hx : m ≤ x) (l : List α) :
    countBelow m (x :: l) = countBelow m l := by
  simp [countBelow, not_lt.mpr hx]

theorem Sublist.countBelow_le {l l' : List α} (h : l.Sublist l') (m : α) :
    countBelow m l ≤ countBelow m l' :=
  h.countP_le

/-- A list sorted by `insertionSort` is ascending at every pair of positions. -/
theorem insertionSort_getElem_le (l : List α) {i j : ℕ} (hij : i ≤ j)
    (hj : j < (l.insertionSort (· ≤ ·)).length) :
    (l.insertionSort (· ≤ ·))[i] ≤ (l.insertionSort (· ≤ ·))[j] := by
  have hsorted := List.pairwise_insertionSort (· ≤ ·) l
  rcases Nat.lt_or_eq_of_le hij with hlt | rfl
  · exact List.pairwise_iff_getElem.mp hsorted i j (by omega) hj hlt
  · exact le_rfl

/-- At most `k` elements lie strictly below the element at position `k`: the ones after it in
sorted order are not below it. -/
theorem countBelow_sortedAt_le {l : List α} {k : ℕ} (hk : k < l.length) (d : α) :
    countBelow (sortedAt d l k) l ≤ k := by
  set s := l.insertionSort (· ≤ ·) with hs
  have hks : k < s.length := by rw [hs, List.length_insertionSort]; exact hk
  have hm : sortedAt d l k = s[k] := List.getD_eq_getElem _ _ hks
  have hdrop : countBelow s[k] (s.drop k) = 0 := by
    refine List.countP_eq_zero.mpr fun x hx ↦ ?_
    obtain ⟨i, hi, rfl⟩ := List.mem_iff_getElem.mp hx
    have hki : k + i < s.length := by
      rw [List.length_drop] at hi
      omega
    rw [List.getElem_drop]
    simpa using insertionSort_getElem_le l (Nat.le_add_right k i) hki
  calc countBelow (sortedAt d l k) l
      = countBelow s[k] (s.take k) + countBelow s[k] (s.drop k) := by
        rw [hm, ← countBelow_insertionSort, ← hs, countBelow, countBelow, countBelow,
          ← List.countP_append, List.take_append_drop]
    _ ≤ k := by
        rw [hdrop, Nat.add_zero]
        exact Nat.le_trans (countBelow_le_length _ _) (List.length_take_le k s)

/-- A value with at most `k` elements of `l` strictly below it is at most the element at
position `k`: otherwise the first `k + 1` sorted elements would all be below it. -/
theorem le_sortedAt_of_countBelow_le {l : List α} {k : ℕ} (hk : k < l.length) {m : α}
    (h : countBelow m l ≤ k) (d : α) : m ≤ sortedAt d l k := by
  set s := l.insertionSort (· ≤ ·) with hs
  have hks : k < s.length := by rw [hs, List.length_insertionSort]; exact hk
  rw [sortedAt, List.getD_eq_getElem _ _ hks]
  by_contra hlt
  rw [not_le] at hlt
  have hbelow : countBelow m (s.take (k + 1)) = k + 1 := by
    have hlen : (s.take (k + 1)).length = k + 1 := by
      rw [List.length_take]
      omega
    rw [countBelow, List.countP_eq_length.mpr, hlen]
    intro x hx
    obtain ⟨i, hi, rfl⟩ := List.mem_iff_getElem.mp hx
    simp only [List.length_take] at hi
    rw [List.getElem_take, decide_eq_true_eq]
    exact lt_of_le_of_lt (insertionSort_getElem_le l (by omega) hks) hlt
  have hle := Sublist.countBelow_le (List.take_sublist (k + 1) s) m
  rw [hbelow, hs, countBelow_insertionSort] at hle
  omega

end OrderStat
