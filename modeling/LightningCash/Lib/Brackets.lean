import Mathlib.Data.Nat.Notation
import Mathlib.Data.Option.Basic

/-!
# Well-nested brackets with separators

Words over four letters: an opening bracket, a separator, a closing bracket, and anything else.
`Nested false w` is the grammar of well-nested words in which a separator may only stand
directly inside some open bracket; `Nested true` is the grammar of what may stand between an
opening and its closing bracket, where separators are allowed at the top.

`depthAfter` reads a word with a counter of the open brackets and fails on a separator or a
closing with nothing open. The two agree: a word is well nested exactly when it is read from
depth zero back to depth zero (`balanced_iff_nested`). The counter is what an implementation
keeps; the grammar is what "well nested" means.

## Proof

From the grammar to the counter is an induction on the derivation, through the reading of an
append. Back, a word read from depth `d` to zero is cut at its `d` unmatched closings
(`ClosesFrom`); every letter put in front of such a word keeps a cut of the same kind.
-/

namespace Brackets

/-- The letters of a bracket word. -/
inductive Bracket where
  | opening
  | separator
  | closing
  | other
  deriving DecidableEq, Repr

open Bracket

/-- The number of open brackets after reading a word from `d` open ones, or `none` where a
separator or a closing meets no open bracket. -/
def depthAfter : ℕ → List Bracket → Option ℕ
  | d, [] => some d
  | d, opening :: w => depthAfter (d + 1) w
  | 0, separator :: _ => none
  | d + 1, separator :: w => depthAfter (d + 1) w
  | 0, closing :: _ => none
  | d + 1, closing :: w => depthAfter d w
  | d, other :: w => depthAfter d w

/-- Read from depth zero back to depth zero. -/
def Balanced (w : List Bracket) : Prop := depthAfter 0 w = some 0

instance (w : List Bracket) : Decidable (Balanced w) :=
  inferInstanceAs (Decidable (depthAfter 0 w = some 0))

/-- Well-nested words; with `inside`, separators are allowed at the top level. -/
inductive Nested : Bool → List Bracket → Prop
  | nil (inside : Bool) : Nested inside []
  | other {inside : Bool} {w : List Bracket} : Nested inside w → Nested inside (other :: w)
  | separator {w : List Bracket} : Nested true w → Nested true (separator :: w)
  | group {inside : Bool} {body w : List Bracket} :
      Nested true body → Nested inside w → Nested inside (opening :: body ++ closing :: w)

/-! ## Reading a word -/

@[simp] theorem depthAfter_nil (d : ℕ) : depthAfter d [] = some d := by
  cases d <;> rfl

@[simp] theorem depthAfter_opening (d : ℕ) (w : List Bracket) :
    depthAfter d (opening :: w) = depthAfter (d + 1) w := by
  cases d <;> rfl

@[simp] theorem depthAfter_other (d : ℕ) (w : List Bracket) :
    depthAfter d (other :: w) = depthAfter d w := by
  cases d <;> rfl

@[simp] theorem depthAfter_separator_succ (d : ℕ) (w : List Bracket) :
    depthAfter (d + 1) (separator :: w) = depthAfter (d + 1) w := rfl

@[simp] theorem depthAfter_closing_succ (d : ℕ) (w : List Bracket) :
    depthAfter (d + 1) (closing :: w) = depthAfter d w := rfl

@[simp] theorem depthAfter_separator_zero (w : List Bracket) :
    depthAfter 0 (separator :: w) = none := rfl

@[simp] theorem depthAfter_closing_zero (w : List Bracket) :
    depthAfter 0 (closing :: w) = none := rfl

/-- Reading `u ++ v` is reading `u`, then `v` from where `u` ended. -/
theorem depthAfter_append (u v : List Bracket) :
    ∀ d, depthAfter d (u ++ v) = (depthAfter d u).bind fun e ↦ depthAfter e v := by
  induction u with
  | nil => intro d; simp
  | cons b u ih =>
    intro d
    cases b <;> cases d <;> simp [ih]

/-! ## From the grammar to the counter -/

/-- A well-nested word leaves the depth as it found it; one with separators at the top needs
an open bracket to start from. -/
theorem depthAfter_of_nested {inside : Bool} {w : List Bracket} (h : Nested inside w) :
    ∀ d, (inside = true → 0 < d) → depthAfter d w = some d := by
  induction h with
  | nil => intro d _; simp
  | other _ ih => intro d hd; simpa using ih d hd
  | separator _ ih =>
    intro d hd
    obtain ⟨d, rfl⟩ := Nat.exists_eq_add_one_of_ne_zero (Nat.pos_iff_ne_zero.1 (hd rfl))
    simpa using ih (d + 1) (fun _ ↦ d.succ_pos)
  | group _ _ ihbody ihw =>
    intro d hd
    rw [List.cons_append, depthAfter_opening, depthAfter_append,
      ihbody (d + 1) (fun _ ↦ d.succ_pos)]
    simpa using ihw d hd

/-! ## From the counter to the grammar -/

/-- The word closes `d` brackets opened before it: it is `d` bodies, each followed by its
closing, then a well-nested word. -/
def ClosesFrom : ℕ → List Bracket → Prop
  | 0, w => Nested false w
  | d + 1, w => ∃ body rest, w = body ++ closing :: rest ∧ Nested true body ∧ ClosesFrom d rest

/-- A letter that keeps both grammars keeps a cut: it joins the first body, or the final word. -/
theorem ClosesFrom.cons {b : Bracket} (hin : ∀ {w}, Nested true w → Nested true (b :: w))
    (hout : ∀ {w}, Nested false w → Nested false (b :: w)) :
    ∀ {d w}, ClosesFrom d w → ClosesFrom d (b :: w)
  | 0, _, h => hout h
  | _ + 1, _, ⟨body, rest, rfl, hbody, hrest⟩ => ⟨b :: body, rest, rfl, hin hbody, hrest⟩

/-- A separator keeps a cut that has a bracket to close. -/
theorem ClosesFrom.separator {d : ℕ} {w : List Bracket} (h : ClosesFrom (d + 1) w) :
    ClosesFrom (d + 1) (separator :: w) := by
  obtain ⟨body, rest, rfl, hbody, hrest⟩ := h
  exact ⟨Bracket.separator :: body, rest, rfl, .separator hbody, hrest⟩

/-- An opening followed by a word closing one more bracket: the group it starts ends at the
first unmatched closing, and joins the first body or the final word. -/
theorem ClosesFrom.opening {d : ℕ} {w : List Bracket} (h : ClosesFrom (d + 1) w) :
    ClosesFrom d (opening :: w) := by
  obtain ⟨body, rest, rfl, hbody, hrest⟩ := h
  cases d with
  | zero => exact .group hbody hrest
  | succ d =>
    obtain ⟨body₂, rest₂, rfl, hbody₂, hrest₂⟩ := hrest
    exact ⟨Bracket.opening :: body ++ closing :: body₂, rest₂, by simp, .group hbody hbody₂, hrest₂⟩

/-- A word read from depth `d` to depth zero closes the `d` brackets open before it. The
induction is on the word, the depth generalised. -/
theorem closesFrom_of_depthAfter (w : List Bracket) :
    ∀ d, depthAfter d w = some 0 → ClosesFrom d w := by
  induction w with
  | nil =>
    intro d h
    obtain rfl : d = 0 := by simpa using h
    exact .nil false
  | cons b w ih =>
    intro d h
    cases b with
    | opening => exact (ih (d + 1) (by simpa using h)).opening
    | other => exact (ih d (by simpa using h)).cons .other .other
    | separator =>
      cases d with
      | zero => simp at h
      | succ d => exact (ih (d + 1) (by simpa using h)).separator
    | closing =>
      cases d with
      | zero => simp at h
      | succ d => exact ⟨[], w, rfl, .nil true, ih d (by simpa using h)⟩

/-- The counter decides the grammar. -/
theorem balanced_iff_nested (w : List Bracket) : Balanced w ↔ Nested false w :=
  ⟨closesFrom_of_depthAfter w 0, fun h ↦ depthAfter_of_nested h 0 (by simp)⟩

end Brackets
