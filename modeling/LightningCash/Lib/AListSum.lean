import Mathlib.Data.List.AList
import Mathlib.Algebra.BigOperators.Group.List.Basic

/-!
# Sums over association lists

A quantity summed over the entries of an association list, such as the memory the values of a
map use, and how `erase` and `insert` change it: erasing a key takes away what its entry
contributed, and inserting replaces it. A counter kept beside the map is then exact as long as
every update subtracts the old entry's part and adds the new one's.

What a key contributes is its entry's part, or zero without an entry (`lookupSum`). The lemmas
add it on the left-hand side, so that they hold in any commutative monoid, without subtraction.
-/

namespace List

variable {α : Type*} {β : α → Type*} [DecidableEq α] {M : Type*} [AddCommMonoid M]

/-- Removing the first entry of a key takes its part out of the sum. -/
theorem sum_map_kerase_add (f : Sigma β → M) (a : α) (l : List (Sigma β)) :
    ((l.kerase a).map f).sum + ((l.dlookup a).map fun b => f ⟨a, b⟩).getD 0 = (l.map f).sum := by
  induction l with
  | nil => simp
  | cons s l ih =>
    obtain ⟨a', b'⟩ := s
    by_cases h : a = a'
    · subst h
      rw [kerase_cons_eq (s := ⟨a, b'⟩) rfl, dlookup_cons_eq, map_cons, sum_cons, Option.map_some,
        Option.getD_some, add_comm]
    · rw [kerase_cons_ne h, dlookup_cons_ne l ⟨a', b'⟩ h, map_cons, sum_cons, map_cons, sum_cons,
        add_assoc, ih]

end List

namespace AList

variable {α : Type*} {β : α → Type*} [DecidableEq α] {M : Type*} [AddCommMonoid M]

/-- The part the entry at `a` contributes to a sum over the entries: zero without one. -/
def lookupSum (f : Sigma β → M) (s : AList β) (a : α) : M :=
  ((s.lookup a).map fun b => f ⟨a, b⟩).getD 0

variable (f : Sigma β → M) (s : AList β) (a : α)

theorem lookupSum_of_lookup {b : β a} (h : s.lookup a = some b) : lookupSum f s a = f ⟨a, b⟩ := by
  rw [lookupSum, h, Option.map_some, Option.getD_some]

theorem lookupSum_of_lookup_none (h : s.lookup a = none) : lookupSum f s a = 0 := by
  rw [lookupSum, h, Option.map_none, Option.getD_none]

/-- Erasing a key takes its entry's part out of the sum. -/
theorem sum_map_erase_add :
    ((s.erase a).entries.map f).sum + lookupSum f s a = (s.entries.map f).sum :=
  List.sum_map_kerase_add f a s.entries

/-- Inserting at a key replaces its entry's part in the sum by the new one's. -/
theorem sum_map_insert_add (b : β a) :
    ((s.insert a b).entries.map f).sum + lookupSum f s a = (s.entries.map f).sum + f ⟨a, b⟩ := by
  rw [entries_insert, List.map_cons, List.sum_cons, ← sum_map_erase_add f s a]
  -- the entries of `s.erase a` are `kerase a s.entries`
  rw [add_comm (f ⟨a, b⟩), add_right_comm]
  rfl

end AList
