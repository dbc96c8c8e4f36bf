import Mathlib.Data.Option.Basic
import Mathlib.Order.Basic

/-!
# Ancestors in a forest given by a parent function

A partial function `parent : ι → Option ι` makes a forest: `ancestor parent k x` is the entry `k`
parent steps above `x`, if the chain is that long. `IsAncestor c x` says `c` is `x` or above it,
and `IsDeepestCommonAncestor c a b` that `c` is above both and below every entry above both.

With a height that grows by one from parent to child (`Graded`), the entries above `x` form a
chain in which each height occurs at most once, so an ancestor is determined by its height. Two
entries of one height then share exactly the common ancestors of their ancestors `k` steps up as
long as those two still differ (`commonAncestor_iff_of_ne`): the step of any search for a
deepest common ancestor that climbs both sides in lock step.
-/

namespace Ancestors

variable {ι : Type*} (parent : ι → Option ι)

/-- The entry `k` parent steps above `x`. -/
def ancestor : ℕ → ι → Option ι
  | 0, x => some x
  | k + 1, x => (parent x).bind (ancestor k)

/-- `c` is `x` or above it. -/
def IsAncestor (c x : ι) : Prop := ∃ k, ancestor parent k x = some c

/-- `c` is above `a` and `b`, and below every entry above both. -/
def IsDeepestCommonAncestor (c a b : ι) : Prop :=
  IsAncestor parent c a ∧ IsAncestor parent c b ∧
    ∀ d, IsAncestor parent d a → IsAncestor parent d b → IsAncestor parent d c

variable {parent}

@[simp] theorem ancestor_zero (x : ι) : ancestor parent 0 x = some x := rfl

theorem ancestor_succ (k : ℕ) (x : ι) :
    ancestor parent (k + 1) x = (parent x).bind (ancestor parent k) := rfl

/-- `j + k` steps are `j` steps, then `k`. -/
theorem ancestor_add (j k : ℕ) (x : ι) :
    ancestor parent (j + k) x = (ancestor parent j x).bind (ancestor parent k) := by
  induction j generalizing x with
  | zero => simp
  | succ j ih =>
    rw [Nat.add_right_comm, ancestor_succ, ancestor_succ, Option.bind_assoc]
    simp only [ih]

theorem ancestor_one (x : ι) : ancestor parent 1 x = parent x := by
  rw [ancestor_succ]
  cases parent x <;> rfl

theorem IsAncestor.refl (x : ι) : IsAncestor parent x x := ⟨0, rfl⟩

theorem IsAncestor.trans {c d x : ι} (hcd : IsAncestor parent c d) (hdx : IsAncestor parent d x) :
    IsAncestor parent c x := by
  obtain ⟨j, hj⟩ := hdx
  obtain ⟨k, hk⟩ := hcd
  exact ⟨j + k, by rw [ancestor_add, hj, Option.bind_some, hk]⟩

theorem isAncestor_of_parent {x p : ι} (h : parent x = some p) : IsAncestor parent p x :=
  ⟨1, by rw [ancestor_one, h]⟩

/-- Two pairs with the same common ancestors have the same deepest one. -/
theorem IsDeepestCommonAncestor.of_common_iff {a b a' b' c : ι}
    (hiff : ∀ d, IsAncestor parent d a ∧ IsAncestor parent d b ↔
      IsAncestor parent d a' ∧ IsAncestor parent d b')
    (h : IsDeepestCommonAncestor parent c a' b') : IsDeepestCommonAncestor parent c a b := by
  obtain ⟨hca, hcb, hdeep⟩ := h
  obtain ⟨hca', hcb'⟩ := (hiff c).2 ⟨hca, hcb⟩
  exact ⟨hca', hcb', fun d hda hdb ↦ hdeep d ((hiff d).1 ⟨hda, hdb⟩).1 ((hiff d).1 ⟨hda, hdb⟩).2⟩

theorem isDeepestCommonAncestor_self (a : ι) : IsDeepestCommonAncestor parent a a a :=
  ⟨.refl a, .refl a, fun _ hd _ ↦ hd⟩

/-! ## Graded forests -/

section Graded

variable {height : ι → ℕ} (hgr : ∀ x p, parent x = some p → height x = height p + 1)
include hgr

/-- `k` steps up lose `k` of height. -/
theorem height_of_ancestor {k : ℕ} {x y : ι} (h : ancestor parent k x = some y) :
    height y + k = height x := by
  induction k generalizing x with
  | zero => cases h; rfl
  | succ k ih =>
    rw [ancestor_succ] at h
    cases hp : parent x with
    | none => rw [hp] at h; cases h
    | some p =>
      rw [hp, Option.bind_some] at h
      rw [hgr x p hp, ← ih h]
      omega

theorem height_le_of_isAncestor {c x : ι} (h : IsAncestor parent c x) : height c ≤ height x := by
  obtain ⟨k, hk⟩ := h
  have := height_of_ancestor hgr hk
  omega

/-- An ancestor is the one at the difference of the heights. -/
theorem ancestor_of_isAncestor {c x : ι} (h : IsAncestor parent c x) :
    ancestor parent (height x - height c) x = some c := by
  obtain ⟨k, hk⟩ := h
  have hk' : height x - height c = k := by
    have := height_of_ancestor hgr hk
    omega
  rw [hk', hk]

/-- Each height occurs once above an entry. -/
theorem eq_of_isAncestor_of_height_eq {c c' x : ι} (hc : IsAncestor parent c x)
    (hc' : IsAncestor parent c' x) (hh : height c = height c') : c = c' := by
  have h := ancestor_of_isAncestor hgr hc
  rw [hh, ancestor_of_isAncestor hgr hc'] at h
  exact (Option.some_inj.1 h).symm

/-- The entries above `x` form a chain: of two, the higher is above the lower. -/
theorem isAncestor_of_height_le {c y x : ι} (hc : IsAncestor parent c x)
    (hy : IsAncestor parent y x) (hle : height c ≤ height y) : IsAncestor parent c y := by
  have hcx := ancestor_of_isAncestor hgr hc
  have hyx := ancestor_of_isAncestor hgr hy
  have hyle := height_le_of_isAncestor hgr hy
  refine ⟨height y - height c, ?_⟩
  have hsplit : height x - height c = (height x - height y) + (height y - height c) := by omega
  rw [hsplit, ancestor_add, hyx, Option.bind_some] at hcx
  exact hcx

/-- Climbing both sides of one height `k` steps keeps the common ancestors, as long as none of
them lies below the entries reached. -/
theorem commonAncestor_iff_of_height_le {k : ℕ} {a b a' b' : ι} (hab : height a = height b)
    (ha : ancestor parent k a = some a') (hb : ancestor parent k b = some b')
    (hbelow : ∀ d, IsAncestor parent d a → IsAncestor parent d b → height d ≤ height a')
    (d : ι) :
    IsAncestor parent d a ∧ IsAncestor parent d b ↔
      IsAncestor parent d a' ∧ IsAncestor parent d b' := by
  have ha' : IsAncestor parent a' a := ⟨k, ha⟩
  have hb' : IsAncestor parent b' b := ⟨k, hb⟩
  have hheight : height a' = height b' := by
    have := height_of_ancestor hgr ha
    have := height_of_ancestor hgr hb
    omega
  constructor
  · rintro ⟨hda, hdb⟩
    have hle := hbelow d hda hdb
    exact ⟨isAncestor_of_height_le hgr hda ha' hle,
      isAncestor_of_height_le hgr hdb hb' (hheight ▸ hle)⟩
  · rintro ⟨hda, hdb⟩
    exact ⟨hda.trans ha', hdb.trans hb'⟩

/-- Two entries of one height: their common ancestors are those of their ancestors `k` steps
up, as long as these still differ. -/
theorem commonAncestor_iff_of_ne {k : ℕ} {a b a' b' : ι} (hab : height a = height b)
    (ha : ancestor parent k a = some a') (hb : ancestor parent k b = some b') (hne : a' ≠ b')
    (d : ι) :
    IsAncestor parent d a ∧ IsAncestor parent d b ↔
      IsAncestor parent d a' ∧ IsAncestor parent d b' := by
  refine commonAncestor_iff_of_height_le hgr hab ha hb (fun d hda hdb ↦ ?_) d
  -- a common ancestor below the level of `a'` would make both sides meet at it first
  by_contra hlt
  have hka := height_of_ancestor hgr ha
  have hdle := height_le_of_isAncestor hgr hda
  have hda' := ancestor_of_isAncestor hgr hda
  have hdb' : ancestor parent (height a - height d) b = some d := by
    rw [hab]
    exact ancestor_of_isAncestor hgr hdb
  -- both sides reach `d` after `j < k` steps, and `a'` and `b'` after `k - j` more
  have hsplit : k = (height a - height d) + (k - (height a - height d)) := by omega
  rw [hsplit, ancestor_add, hda', Option.bind_some] at ha
  rw [hsplit, ancestor_add, hdb', Option.bind_some] at hb
  exact hne (Option.some_inj.1 (ha.symm.trans hb))

/-- Replacing an entry by its ancestor at the height of another keeps their common ancestors. -/
theorem commonAncestor_iff_of_height_eq {a b c : ι} (hca : IsAncestor parent c a)
    (hcb : height c = height b) (d : ι) :
    IsAncestor parent d a ∧ IsAncestor parent d b ↔
      IsAncestor parent d c ∧ IsAncestor parent d b := by
  constructor
  · rintro ⟨hda, hdb⟩
    exact ⟨isAncestor_of_height_le hgr hda hca (hcb ▸ height_le_of_isAncestor hgr hdb), hdb⟩
  · rintro ⟨hdc, hdb⟩
    exact ⟨hdc.trans hca, hdb⟩

/-- Below two distinct entries of one height, a common ancestor lies strictly lower. -/
theorem height_lt_of_commonAncestor {a b d : ι} (hab : a ≠ b) (hh : height a = height b)
    (hda : IsAncestor parent d a) (hdb : IsAncestor parent d b) : height d < height a := by
  refine Nat.lt_of_le_of_ne (height_le_of_isAncestor hgr hda) fun heq ↦ hab ?_
  -- at the height of `a` and `b`, the common ancestor is each of them
  calc a = d := eq_of_isAncestor_of_height_eq hgr (.refl a) hda heq.symm
    _ = b := eq_of_isAncestor_of_height_eq hgr hdb (.refl b) (heq.trans hh)

/-- Two distinct entries of one height above a common ancestor both have parents, and share
their common ancestors with them: one step of a lock-step climb. -/
theorem commonAncestor_iff_parent (hroot : ∀ x, parent x = none → height x = 0) {a b d₀ : ι}
    (hab : a ≠ b) (hh : height a = height b) (hda : IsAncestor parent d₀ a)
    (hdb : IsAncestor parent d₀ b) :
    ∃ a' b', parent a = some a' ∧ parent b = some b' ∧
      ∀ d, (IsAncestor parent d a ∧ IsAncestor parent d b ↔
        IsAncestor parent d a' ∧ IsAncestor parent d b') := by
  have hlt := height_lt_of_commonAncestor hgr hab hh hda hdb
  -- neither is a root, standing above a common ancestor
  obtain ⟨a', ha'⟩ := Option.ne_none_iff_exists'.1 fun hn ↦ by have := hroot a hn; omega
  obtain ⟨b', hb'⟩ := Option.ne_none_iff_exists'.1 fun hn ↦ by have := hroot b hn; omega
  refine ⟨a', b', ha', hb', commonAncestor_iff_of_height_le hgr hh (k := 1)
    (by rw [ancestor_one, ha']) (by rw [ancestor_one, hb']) fun d hda hdb ↦ ?_⟩
  have hd := height_lt_of_commonAncestor hgr hab hh hda hdb
  have ha := hgr a a' ha'
  omega

end Graded

end Ancestors
