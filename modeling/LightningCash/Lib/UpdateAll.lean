import Mathlib.Logic.Function.Basic
import Mathlib.Data.List.Nodup

/-!
# Updates at a list of keys

A store changed at a list of keys, one after the other (`updateAll`), read back at a key: the
value of the last update there, or the old value if the list has no such key. With distinct keys
this is the value listed at the key. These two facts are all that is needed to see that undoing
a batch of updates, by writing back the values they overwrote, restores the store, in whatever
order the writes are made; and that the batch, written again over a store that holds any part
of it, gives what it gave the first time.
-/

namespace Function

variable {α β : Type*} [DecidableEq α]

/-- `f` updated at each key of `l` in turn. -/
def updateAll (f : α → β) (l : List (α × β)) : α → β :=
  l.foldl (fun f kv => Function.update f kv.1 kv.2) f

variable {f : α → β} {l : List (α × β)} {a : α}

@[simp] theorem updateAll_nil (f : α → β) : updateAll f [] = f := rfl

@[simp] theorem updateAll_cons (f : α → β) (kv : α × β) (l : List (α × β)) :
    updateAll f (kv :: l) = updateAll (Function.update f kv.1 kv.2) l := rfl

theorem updateAll_append (f : α → β) (l₁ l₂ : List (α × β)) :
    updateAll f (l₁ ++ l₂) = updateAll (updateAll f l₁) l₂ :=
  List.foldl_append

/-- Batches written one after the other are their concatenation written at once. -/
theorem updateAll_flatMap {γ : Type*} (g : γ → List (α × β)) (xs : List γ) (f : α → β) :
    updateAll f (xs.flatMap g) = xs.foldl (fun f x => updateAll f (g x)) f := by
  induction xs generalizing f with
  | nil => rfl
  | cons x xs ih => rw [List.flatMap_cons, updateAll_append, ih, List.foldl_cons]

/-- A key the list does not name keeps its value. -/
theorem updateAll_of_notMem (h : a ∉ l.map Prod.fst) : updateAll f l a = f a := by
  induction l generalizing f with
  | nil => rfl
  | cons kv l ih =>
    rw [List.map_cons, List.mem_cons, not_or] at h
    rw [updateAll_cons, ih h.2, Function.update_of_ne h.1]

/-- With distinct keys, a key the list names has the value listed with it. -/
theorem updateAll_of_mem (hnd : (l.map Prod.fst).Nodup) {b : β} (h : (a, b) ∈ l) :
    updateAll f l a = b := by
  induction l generalizing f with
  | nil => cases h
  | cons kv l ih =>
    rw [List.map_cons, List.nodup_cons] at hnd
    rcases List.mem_cons.mp h with rfl | h
    · rw [updateAll_cons, updateAll_of_notMem hnd.1, Function.update_self]
    · exact ih hnd.2 h

/-- A key the list names ends with the value the list gives it, whatever the store held. -/
theorem updateAll_eq_of_mem_keys (g : α → β) (h : a ∈ l.map Prod.fst) :
    updateAll f l a = updateAll g l a := by
  induction l generalizing f g with
  | nil => cases h
  | cons kv l ih =>
    rw [updateAll_cons, updateAll_cons]
    by_cases ha : a ∈ l.map Prod.fst
    · exact ih _ ha
    · -- the head is the last update of `a`
      have hkv : a = kv.1 := by simpa [ha] using h
      rw [updateAll_of_notMem ha, updateAll_of_notMem ha, hkv, Function.update_self,
        Function.update_self]

/-- Stores that agree off the list's keys agree once updated. -/
theorem updateAll_congr_of_notMem {g : α → β} (h : ∀ a ∉ l.map Prod.fst, f a = g a) :
    updateAll f l = updateAll g l := by
  funext a
  by_cases ha : a ∈ l.map Prod.fst
  · exact updateAll_eq_of_mem_keys g ha
  · rw [updateAll_of_notMem ha, updateAll_of_notMem ha, h a ha]

/-- **Replaying a batch over a partial write.** A store that holds at each key either the old
value or the value after the batch, as one left by a batch written in part, becomes under the
whole batch what the old store becomes. -/
theorem updateAll_of_mixed {g : α → β} (h : ∀ a, g a = f a ∨ g a = updateAll f l a) :
    updateAll g l = updateAll f l := by
  refine (updateAll_congr_of_notMem fun a ha => ?_).symm
  -- off the batch's keys, the value after the batch is the old one
  rcases h a with h | h
  · exact h.symm
  · rw [h, updateAll_of_notMem ha]

/-- **Undoing a batch of updates.** Updates at some keys are undone by a second batch at
distinct keys, naming at least those, each writing back the key's old value. -/
theorem updateAll_updateAll_eq_self {l₁ l₂ : List (α × β)}
    (hsub : ∀ k ∈ l₁.map Prod.fst, k ∈ l₂.map Prod.fst) (hnd : (l₂.map Prod.fst).Nodup)
    (hval : ∀ kv ∈ l₂, kv.2 = f kv.1) : updateAll (updateAll f l₁) l₂ = f := by
  funext a
  by_cases ha : a ∈ l₂.map Prod.fst
  · -- the second batch writes back the old value
    obtain ⟨kv, hkv, rfl⟩ := List.mem_map.mp ha
    rw [updateAll_of_mem hnd hkv, hval kv hkv]
  · rw [updateAll_of_notMem ha, updateAll_of_notMem (fun h => ha (hsub a h))]

end Function
