import Mathlib.Data.List.Forall2
import Mathlib.Data.List.NodupEquivFin
import Mathlib.Order.Hom.Basic

/-!
# Matching a list into another in order

`OrderedMatch r xs ys`: every element of `xs` can be given an element of `ys` it is related to,
by a strictly increasing map of positions, so that the chosen elements keep the order of `xs`
and no element of `ys` serves twice. It is the same as `xs` matching, pointwise, some sublist of
`ys`.

`greedyMatch` decides it by one pass over `ys`: the first element of `xs` takes the first element
of `ys` it is related to, and the rest of `xs` is matched into what comes after. Taking the
earliest possible partner never hurts, whatever the relation: a partner further on leaves
fewer elements for the rest.
-/

namespace Matching

variable {α β : Type*}

/-- A strictly increasing map from the positions of `xs` to those of `ys` whose every pair is
related by `r`. -/
def OrderedMatch (r : α → β → Prop) (xs : List α) (ys : List β) : Prop :=
  ∃ f : Fin xs.length → Fin ys.length, StrictMono f ∧ ∀ i, r (xs.get i) (ys.get (f i))

/-- The greedy matching of `xs` into `ys`. -/
def greedyMatch (r : α → β → Bool) : List α → List β → Bool
  | [], _ => true
  | _ :: _, [] => false
  | x :: xs, y :: ys => if r x y then greedyMatch r xs ys else greedyMatch r (x :: xs) ys

@[simp] theorem greedyMatch_nil_left (r : α → β → Bool) (ys : List β) :
    greedyMatch r [] ys = true := by
  cases ys <;> rfl

theorem greedyMatch_cons_nil (r : α → β → Bool) (x : α) (xs : List α) :
    greedyMatch r (x :: xs) [] = false := rfl

theorem greedyMatch_cons_cons (r : α → β → Bool) (x : α) (xs : List α) (y : β) (ys : List β) :
    greedyMatch r (x :: xs) (y :: ys) =
      if r x y then greedyMatch r xs ys else greedyMatch r (x :: xs) ys := rfl

/-- Matching the pointwise related elements of a sublist of `ys`: the first element of `xs` is
matched somewhere in `ys`, and the rest of `xs` after it. Dropping the first element of `xs`
keeps a match, into the same `ys`. -/
theorem sublist_match_tail {r : α → β → Prop} {x : α} {xs : List α} {ys : List β}
    (h : ∃ zs, zs.Sublist ys ∧ List.Forall₂ r (x :: xs) zs) :
    ∃ zs, zs.Sublist ys ∧ List.Forall₂ r xs zs := by
  obtain ⟨zs, hsub, hall⟩ := h
  cases hall with
  | cons _ hrest => exact ⟨_, (List.sublist_cons_self _ _).trans hsub, hrest⟩

/-- The greedy pass succeeds exactly when `xs` matches, pointwise, some sublist of `ys`. The
induction is on `ys`; where the first element of `xs` is not related to the head of `ys`, no
match can use that head for it. -/
theorem greedyMatch_iff_sublist (r : α → β → Bool) :
    ∀ (xs : List α) (ys : List β),
      greedyMatch r xs ys = true ↔
        ∃ zs, zs.Sublist ys ∧ List.Forall₂ (fun x y ↦ r x y = true) xs zs
  | [], ys => by
    simp only [greedyMatch_nil_left, true_iff]
    exact ⟨[], List.nil_sublist ys, List.Forall₂.nil⟩
  | x :: xs, [] => by
    simp only [greedyMatch_cons_nil, Bool.false_eq_true, false_iff, not_exists, not_and,
      List.sublist_nil]
    rintro zs rfl hall
    cases hall
  | x :: xs, y :: ys => by
    rw [greedyMatch_cons_cons]
    by_cases hxy : r x y = true
    · -- `x` takes `y`
      rw [if_pos hxy, greedyMatch_iff_sublist r xs ys]
      constructor
      · rintro ⟨zs, hsub, hall⟩
        exact ⟨y :: zs, hsub.cons_cons y, List.Forall₂.cons hxy hall⟩
      · rintro ⟨zs, hsub, hall⟩
        rcases List.sublist_cons_iff.1 hsub with hskip | ⟨zs', rfl, hsub'⟩
        · -- a match that skips `y` also matches the rest of `xs` into `ys`
          exact sublist_match_tail ⟨zs, hskip, hall⟩
        · exact ⟨zs', hsub', (List.forall₂_cons.1 hall).2⟩
    · -- no match gives `y` to `x`
      rw [if_neg hxy, greedyMatch_iff_sublist r (x :: xs) ys]
      constructor
      · rintro ⟨zs, hsub, hall⟩
        exact ⟨zs, hsub.cons y, hall⟩
      · rintro ⟨zs, hsub, hall⟩
        rcases List.sublist_cons_iff.1 hsub with hskip | ⟨zs', rfl, -⟩
        · exact ⟨zs, hskip, hall⟩
        · exact absurd (List.forall₂_cons.1 hall).1 hxy

/-- A match into a sublist is a strictly increasing map of positions, and back. -/
theorem orderedMatch_iff_sublist (r : α → β → Prop) (xs : List α) (ys : List β) :
    OrderedMatch r xs ys ↔ ∃ zs, zs.Sublist ys ∧ List.Forall₂ r xs zs := by
  constructor
  · rintro ⟨f, hmono, hrel⟩
    -- the chosen elements of `ys`, in the order of `xs`
    refine ⟨List.ofFn fun i ↦ ys.get (f i), ?_, ?_⟩
    · rw [List.sublist_iff_exists_fin_orderEmbedding_get_eq]
      refine ⟨(Fin.castOrderIso List.length_ofFn).toOrderEmbedding.trans
        (OrderEmbedding.ofStrictMono f hmono), fun ix ↦ ?_⟩
      simp only [List.get_eq_getElem, List.getElem_ofFn, RelEmbedding.coe_trans,
        Function.comp_apply, OrderEmbedding.coe_ofStrictMono]
      rfl
    · rw [List.forall₂_iff_get]
      refine ⟨(List.length_ofFn).symm, fun i h₁ h₂ ↦ ?_⟩
      simpa using hrel ⟨i, h₁⟩
  · rintro ⟨zs, hsub, hall⟩
    obtain ⟨g, hg⟩ := List.sublist_iff_exists_fin_orderEmbedding_get_eq.1 hsub
    have hlen := hall.length_eq
    refine ⟨fun i ↦ g (Fin.cast hlen i), fun i j hij ↦ g.strictMono (by simpa using hij), ?_⟩
    intro i
    rw [← hg]
    exact (List.forall₂_iff_get.1 hall).2 i i.isLt (hlen ▸ i.isLt)

/-- The greedy pass decides ordered matching. -/
theorem greedyMatch_iff (r : α → β → Bool) (xs : List α) (ys : List β) :
    greedyMatch r xs ys = true ↔ OrderedMatch (fun x y ↦ r x y = true) xs ys := by
  rw [greedyMatch_iff_sublist, orderedMatch_iff_sublist]

/-- More elements to place than places: the greedy pass fails. -/
theorem greedyMatch_eq_false_of_length_lt {r : α → β → Bool} {xs : List α} {ys : List β}
    (h : ys.length < xs.length) : greedyMatch r xs ys = false := by
  by_contra hne
  obtain ⟨zs, hsub, hall⟩ := (greedyMatch_iff_sublist r xs ys).1 (Bool.not_eq_false _ ▸ hne)
  have hlen : xs.length ≤ ys.length := hall.length_eq ▸ hsub.length_le
  omega

end Matching
