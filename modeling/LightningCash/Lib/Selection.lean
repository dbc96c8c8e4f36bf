import Mathlib.Algebra.Order.BigOperators.Group.List

/-!
# Subsets of a list chosen by a vector of flags

A search over the subsets of a list `xs` that keeps its candidate as a vector of flags, one per
element, reads the candidate back as `chosen xs vf`: the elements whose flag is set, in order.
What such a search needs is how its updates act on the chosen elements: all flags set choose
`xs`, none choose nothing, and setting a flag that was clear adds exactly that one element to a
sum over them. Since the chosen elements form a sublist, whatever holds of a sublist (no
duplicates, a smaller sum of nonnegative terms) holds of them.
-/

namespace Selection

variable {α : Type*}

/-- The elements of `xs` whose flag in `vf` is set; elements past the end of `vf` are not
chosen. -/
def chosen : List α → List Bool → List α
  | x :: xs, b :: vf => if b then x :: chosen xs vf else chosen xs vf
  | _, _ => []

@[simp] theorem chosen_nil_left (vf : List Bool) : chosen ([] : List α) vf = [] := by
  cases vf <;> rfl

@[simp] theorem chosen_nil_right (xs : List α) : chosen xs [] = [] := by
  cases xs <;> rfl

@[simp] theorem chosen_cons_cons (x : α) (xs : List α) (b : Bool) (vf : List Bool) :
    chosen (x :: xs) (b :: vf) = if b then x :: chosen xs vf else chosen xs vf := rfl

theorem chosen_sublist (xs : List α) (vf : List Bool) : (chosen xs vf).Sublist xs := by
  induction xs generalizing vf with
  | nil => simp
  | cons x xs ih =>
    cases vf with
    | nil => simp
    | cons b vf =>
      cases b
      · exact (ih vf).cons x
      · exact (ih vf).cons_cons x

@[simp] theorem chosen_replicate_true (xs : List α) :
    chosen xs (List.replicate xs.length true) = xs := by
  induction xs with
  | nil => rfl
  | cons x xs ih => simp [List.replicate_succ, ih]

@[simp] theorem chosen_replicate_false (xs : List α) (n : ℕ) :
    chosen xs (List.replicate n false) = [] := by
  induction xs generalizing n with
  | nil => simp
  | cons x xs ih => cases n <;> simp [List.replicate_succ, ih]

/-- Setting a flag that was clear adds its element to a sum over the chosen elements. The
induction walks down `xs` and `vf` together to position `i`. -/
theorem sum_chosen_set_true {M : Type*} [AddCommMonoid M] (f : α → M) (xs : List α)
    (vf : List Bool) (i : ℕ) (hi : i < xs.length) (hvf : i < vf.length)
    (hclear : vf.getD i false = false) :
    ((chosen xs (vf.set i true)).map f).sum = ((chosen xs vf).map f).sum + f xs[i] := by
  induction xs generalizing vf i with
  | nil => simp at hi
  | cons x xs ih =>
    cases vf with
    | nil => simp at hvf
    | cons b vf =>
      cases i with
      | zero =>
        simp only [List.getD_cons_zero] at hclear
        subst hclear
        simp [add_comm]
      | succ i =>
        have hrest := ih vf i (by simpa using hi) (by simpa using hvf) (by simpa using hclear)
        cases b <;> simp [hrest, add_assoc]

end Selection
