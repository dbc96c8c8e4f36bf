import LightningCash.Lib.Ancestors
import Mathlib.Data.Fin.VecNotation
import Mathlib.Data.Nat.Bitwise

/-!
# The skip list of the block index (chain.cpp)

Every `CBlockIndex` has, besides `pprev`, a pointer `pskip` that `BuildSkip` sets to its ancestor
at `GetSkipHeight(nHeight)`. `GetAncestor` walks down from an entry by `pskip` where that does not
overshoot and by `pprev` otherwise; `LastCommonAncestor` first brings two entries to one height
and then climbs both sides in lock step, by `pskip` while the skip targets differ.

The block index is modelled as pointers: an arbitrary type of entries `ι` with maps for
`nHeight`, `pprev` and `pskip` (`none` is the null pointer). `GetAncestor`'s loop carries its own
`heightWalk` as the source does and terminates on it; `LastCommonAncestor`'s loop reads heights
only through the pointers, so it is given a number of passes, two more than the height of its
first argument: each pass climbs at least one level, and the last finds both sides equal, or both
null below two roots.

## Main results

* `ancestorWalk_spec`: wherever the skip pointers met so far point at the ancestor at their skip
  height, the walk lands on the ancestor at the height asked for and never takes a null `pprev`.
  The jump test only matters for speed: correctness needs only that a jump does not overshoot.
* `skipCorrect_of_wellFormed`: in an index whose skip pointers `BuildSkip` set, every skip
  pointer is right, by induction on the height: `BuildSkip` asks `GetAncestor` of the parent,
  whose own skip pointers are lower.
* `lcaLoop_spec`: the lock-step climb keeps the common ancestors (`Lib.Ancestors`) and ends on
  the deepest one.
-/

namespace LightningCash

open Ancestors

/-! ## Skip heights -/

/-- `InvertLowestOne(n)`: `n` with its lowest set bit cleared. -/
def InvertLowestOne (n : ℕ) : ℕ := n &&& (n - 1)

/-- `GetSkipHeight(height)`: the height an entry's `pskip` points to. Heights here are never
negative; the source's `0` below two covers negative ones as well. -/
def GetSkipHeight (height : ℕ) : ℕ :=
  if height < 2 then 0
  else if height &&& 1 ≠ 0 then InvertLowestOne (InvertLowestOne (height - 1)) + 1
  else InvertLowestOne height

theorem InvertLowestOne_le (n : ℕ) : InvertLowestOne n ≤ n - 1 := Nat.and_le_right

/-- A skip pointer points strictly lower. -/
theorem GetSkipHeight_lt {height : ℕ} (h : 0 < height) : GetSkipHeight height < height := by
  unfold GetSkipHeight
  split_ifs with h2 hodd
  · exact h
  · have h₁ := InvertLowestOne_le (height - 1)
    have h₂ := InvertLowestOne_le (InvertLowestOne (height - 1))
    omega
  · have := InvertLowestOne_le height
    omega

/-! ## The block index as pointers -/

/-- The block index over entries `ι`: each entry's `nHeight`, `pprev` and `pskip`. -/
structure BlockIndexGraph (ι : Type*) where
  nHeight : ι → ℤ
  pprev : ι → Option ι
  pskip : ι → Option ι

namespace BlockIndexGraph

variable {ι : Type*} (T : BlockIndexGraph ι)

/-- The `while (heightWalk > height)` loop of `GetAncestor(height)`: `heightWalk` is the height the
walk believes `pindexWalk` to be at. A `pprev` that is null fails the `assert`. -/
def ancestorWalk (height : ℕ) (pindexWalk : ι) (heightWalk : ℕ) : Except String ι :=
  if height < heightWalk then
    let heightSkip := GetSkipHeight heightWalk
    let heightSkipPrev := GetSkipHeight (heightWalk - 1)
    let stepBack : Except String ι :=
      match T.pprev pindexWalk with
      | none => .error "assert(pindexWalk->pprev)"
      | some pprev => ancestorWalk height pprev (heightWalk - 1)
    match T.pskip pindexWalk with
    | some pskip =>
      if heightSkip = height ∨ (heightSkip > height ∧
          ¬((heightSkipPrev : ℤ) < heightSkip - 2 ∧ heightSkipPrev ≥ height)) then
        ancestorWalk height pskip heightSkip
      else stepBack
    | none => stepBack
  else .ok pindexWalk
termination_by heightWalk
decreasing_by
  · omega
  · exact GetSkipHeight_lt (by omega)

/-- `CBlockIndex::GetAncestor(height)`: null outside `0 ≤ height ≤ nHeight`. -/
def GetAncestor (x : ι) (height : ℤ) : Except String (Option ι) :=
  if height > T.nHeight x ∨ height < 0 then .ok none
  else some <$> T.ancestorWalk height.toNat x (T.nHeight x).toNat

/-- The `pskip` an entry has after `BuildSkip()`: its parent's ancestor at the skip height, or,
without a parent, the null pointer it was constructed with. -/
def BuildSkip (x : ι) : Except String (Option ι) :=
  match T.pprev x with
  | some pprev => T.GetAncestor pprev (GetSkipHeight (T.nHeight x).toNat)
  | none => .ok none

section LastCommonAncestor

variable [DecidableEq ι]

/-- The first lines of `LastCommonAncestor`: the higher of the two entries is replaced by its
ancestor at the height of the other. -/
def sameHeight (pa pb : ι) : Except String (Option ι × Option ι) :=
  if T.nHeight pa > T.nHeight pb then (·, some pb) <$> T.GetAncestor pa (T.nHeight pb)
  else if T.nHeight pb > T.nHeight pa then (some pa, ·) <$> T.GetAncestor pb (T.nHeight pa)
  else .ok (some pa, some pb)

/-- The loop `while (pa != pb && pa && pb)` of `LastCommonAncestor`, for at most `fuel` passes;
`none` when they run out. -/
def lcaLoop : ℕ → Option ι → Option ι → Option (Option ι × Option ι)
  | 0, _, _ => none
  | fuel + 1, some a, some b =>
    if a = b then some (some a, some b)
    else match T.pskip a, T.pskip b with
      | some sa, some sb =>
        if sa ≠ sb then lcaLoop fuel (some sa) (some sb)
        else lcaLoop fuel (T.pprev a) (T.pprev b)
      | _, _ => lcaLoop fuel (T.pprev a) (T.pprev b)
  | _ + 1, pa, pb => some (pa, pb)

/-- `LastCommonAncestor(pa, pb)`. -/
def LastCommonAncestor (pa pb : ι) : Except String (Option ι) := do
  let (pa', pb') ← T.sameHeight pa pb
  match T.lcaLoop ((T.nHeight pa).toNat + 2) pa' pb' with
  | none => throw "loop without end"
  | some (pa'', pb'') => if pa'' = pb'' then pure pa'' else throw "assert(pa == pb)"

end LastCommonAncestor

/-! ## Well-formed indexes -/

/-- An entry's height as a natural number; a well-formed index has no negative ones. -/
def height (x : ι) : ℕ := (T.nHeight x).toNat

/-- The skip pointer of `x`, where set, points at its ancestor at `GetSkipHeight`. -/
def SkipCorrect (x : ι) : Prop :=
  ∀ s, T.pskip x = some s → IsAncestor T.pprev s x ∧ T.height s = GetSkipHeight (T.height x)

/-- What `AddToBlockIndex` leaves in the block index: an entry one above its parent, a genesis
entry at height zero, no negative heights, and each skip pointer as `BuildSkip` set it. -/
structure WellFormed : Prop where
  nHeight_pprev : ∀ x p, T.pprev x = some p → T.nHeight x = T.nHeight p + 1
  nHeight_root : ∀ x, T.pprev x = none → T.nHeight x = 0
  nHeight_nonneg : ∀ x, 0 ≤ T.nHeight x
  pskip_built : ∀ x, T.BuildSkip x = .ok (T.pskip x)

theorem BuildSkip_of_pprev {x p : ι} (h : T.pprev x = some p) :
    T.BuildSkip x = T.GetAncestor p (GetSkipHeight (T.height x)) := by
  rw [BuildSkip, h]
  rfl

theorem BuildSkip_of_root {x : ι} (h : T.pprev x = none) : T.BuildSkip x = .ok none := by
  rw [BuildSkip, h]

/-! ## The walk of `GetAncestor` -/

/-- The jump test never overshoots. -/
theorem le_of_jump {height heightSkip heightSkipPrev : ℕ}
    (h : heightSkip = height ∨ (heightSkip > height ∧
      ¬((heightSkipPrev : ℤ) < heightSkip - 2 ∧ heightSkipPrev ≥ height))) :
    height ≤ heightSkip := by
  rcases h with heq | ⟨hgt, -⟩ <;> omega

/-- One pass of the walk from above the target: a jump along `pskip` that does not overshoot, a
step along `pprev`, or the failed `assert` where there is none. -/
theorem ancestorWalk_step {h hw : ℕ} {w : ι} (hlt : h < hw) :
    (∃ s, T.pskip w = some s ∧ h ≤ GetSkipHeight hw ∧
      T.ancestorWalk h w hw = T.ancestorWalk h s (GetSkipHeight hw)) ∨
    (∃ p, T.pprev w = some p ∧ T.ancestorWalk h w hw = T.ancestorWalk h p (hw - 1)) ∨
    (T.pprev w = none ∧ T.ancestorWalk h w hw = .error "assert(pindexWalk->pprev)") := by
  rw [ancestorWalk, if_pos hlt]
  rcases hs : T.pskip w with _ | s <;> dsimp only
  -- a set pointer that passes the test jumps
  on_goal 2 =>
    split_ifs with hjump
    on_goal 1 => exact .inl ⟨s, rfl, le_of_jump hjump, rfl⟩
  -- otherwise the walk steps back, by a `pprev` that the `assert` requires
  all_goals
    cases hp : T.pprev w with
    | none => exact .inr (.inr ⟨rfl, rfl⟩)
    | some p => exact .inr (.inl ⟨p, rfl, rfl⟩)

/-- One pass of the lock-step loop over two distinct entries: a jump where both skip pointers are
set and differ, a step back otherwise. -/
theorem lcaLoop_succ_cases [DecidableEq ι] {fuel : ℕ} {a b : ι} (hab : a ≠ b) :
    (∃ sa sb, T.pskip a = some sa ∧ T.pskip b = some sb ∧ sa ≠ sb ∧
      T.lcaLoop (fuel + 1) (some a) (some b) = T.lcaLoop fuel (some sa) (some sb)) ∨
    T.lcaLoop (fuel + 1) (some a) (some b) = T.lcaLoop fuel (T.pprev a) (T.pprev b) := by
  rw [lcaLoop, if_neg hab]
  rcases hsa : T.pskip a with _ | sa <;> rcases hsb : T.pskip b with _ | sb <;> dsimp only
  on_goal 4 =>
    split_ifs with hne
    on_goal 1 => exact .inl ⟨sa, sb, rfl, rfl, hne, rfl⟩
  all_goals exact .inr rfl

/-! ## Correctness in a well-formed index -/

section WellFormed

variable {T}
variable (hT : T.WellFormed)
include hT

theorem WellFormed.graded : ∀ x p, T.pprev x = some p → T.height x = T.height p + 1 := by
  intro x p hp
  have hnn := hT.nHeight_nonneg p
  rw [height, height, hT.nHeight_pprev x p hp]
  omega

theorem WellFormed.height_root : ∀ x, T.pprev x = none → T.height x = 0 := by
  intro x hx
  rw [height, hT.nHeight_root x hx]
  rfl

theorem WellFormed.nHeight_eq (x : ι) : T.nHeight x = T.height x :=
  (Int.toNat_of_nonneg (hT.nHeight_nonneg x)).symm

/-- The walk from `w` at its own height reaches its ancestor at the target, if the skip pointers
at and above `w` are right. The induction is on the height walked from: a jump and a step back
both land lower, on an ancestor of `w`. -/
theorem ancestorWalk_spec {h : ℕ} (hw : ℕ) :
    ∀ w, T.height w = hw → h ≤ hw → (∀ y, IsAncestor T.pprev y w → T.SkipCorrect y) →
      ∃ c, T.ancestorWalk h w hw = .ok c ∧ IsAncestor T.pprev c w ∧ T.height c = h := by
  induction hw using Nat.strong_induction_on with
  | _ hw ih =>
    intro w hhw hle hskip
    rcases Nat.lt_or_eq_of_le hle with hlt | rfl
    · rcases T.ancestorWalk_step hlt with ⟨s, hs, hsle, heq⟩ | ⟨p, hp, heq⟩ | ⟨hp, -⟩
      · -- a jump lands on the ancestor at the skip height
        obtain ⟨hsw, hsh⟩ := hskip w (.refl w) s hs
        obtain ⟨c, hc, hcs, hch⟩ := ih _ (GetSkipHeight_lt (by omega)) s (by rw [hsh, hhw]) hsle
          (fun y hy ↦ hskip y (hy.trans hsw))
        exact ⟨c, heq ▸ hc, hcs.trans hsw, hch⟩
      · -- a step back lands on the parent, one lower
        have hpw := isAncestor_of_parent hp
        have hph := hT.graded w p hp
        obtain ⟨c, hc, hcp, hch⟩ := ih (hw - 1) (by omega) p (by omega) (by omega)
          (fun y hy ↦ hskip y (hy.trans hpw))
        exact ⟨c, heq ▸ hc, hcp.trans hpw, hch⟩
      · -- a genesis entry is at height zero, not above the target
        have := hT.height_root w hp
        omega
    · rw [ancestorWalk, if_neg (lt_irrefl _)]
      exact ⟨w, rfl, .refl w, hhw⟩

/-- `GetAncestor` in range returns the ancestor at the height asked for, if the skip pointers at
and above `x` are right. -/
theorem GetAncestor_of_le {x : ι} {h : ℤ} (h0 : 0 ≤ h) (hle : h ≤ T.nHeight x)
    (hskip : ∀ y, IsAncestor T.pprev y x → T.SkipCorrect y) :
    ∃ c, T.GetAncestor x h = .ok (some c) ∧ IsAncestor T.pprev c x ∧ T.nHeight c = h := by
  have hx := hT.nHeight_eq x
  obtain ⟨c, hc, hcx, hch⟩ := ancestorWalk_spec hT (h := h.toNat) (T.height x) x rfl (by omega) hskip
  refine ⟨c, ?_, hcx, by rw [hT.nHeight_eq c, hch]; omega⟩
  rw [GetAncestor, if_neg (by omega)]
  show some <$> T.ancestorWalk h.toNat x (T.height x) = _
  rw [hc]
  rfl

/-- Every skip pointer of a well-formed index is right. The induction is on the height: the
pointer of `x` is what `GetAncestor` of its parent returned, and that walk reads only the
pointers of lower entries. -/
theorem skipCorrect_of_wellFormed (x : ι) : T.SkipCorrect x := by
  suffices ∀ n x, T.height x = n → T.SkipCorrect x from this _ x rfl
  intro n
  induction n using Nat.strong_induction_on with
  | _ n ih =>
    intro x hxn s hs
    have hbuilt := hT.pskip_built x
    cases hp : T.pprev x with
    | none =>
      rw [T.BuildSkip_of_root hp, hs] at hbuilt
      cases hbuilt
    | some p =>
      rw [T.BuildSkip_of_pprev hp, hs] at hbuilt
      have hph := hT.graded x p hp
      have hlow : ∀ y, IsAncestor T.pprev y p → T.SkipCorrect y := fun y hy ↦
        ih _ (by have := height_le_of_isAncestor hT.graded hy; omega) y rfl
      have hskipLt : GetSkipHeight (T.height x) < T.height x := GetSkipHeight_lt (by omega)
      obtain ⟨c, hc, hcp, hch⟩ := GetAncestor_of_le hT (h := GetSkipHeight (T.height x))
        (by omega) (by rw [hT.nHeight_eq p]; omega) hlow
      obtain rfl : c = s := by
        rw [hc] at hbuilt
        cases hbuilt
        rfl
      refine ⟨hcp.trans (isAncestor_of_parent hp), ?_⟩
      rw [height, hch]
      rfl

/-! ### `LastCommonAncestor` -/

/-- `sameHeight` brings both entries to the lower of their heights, keeping their common
ancestors. -/
theorem sameHeight_spec (a b : ι) :
    ∃ a' b', T.sameHeight a b = .ok (some a', some b') ∧ T.height a' = T.height b' ∧
      T.height a' ≤ T.height a ∧
      ∀ d, (IsAncestor T.pprev d a ∧ IsAncestor T.pprev d b ↔
        IsAncestor T.pprev d a' ∧ IsAncestor T.pprev d b') := by
  have ha := hT.nHeight_eq a
  have hb := hT.nHeight_eq b
  have hskip : ∀ y, T.SkipCorrect y := skipCorrect_of_wellFormed hT
  unfold sameHeight
  split_ifs with hab hba
  · -- `a` is higher: it is replaced by its ancestor at the height of `b`
    obtain ⟨c, hc, hca, hch⟩ := GetAncestor_of_le hT (x := a) (hT.nHeight_nonneg b) (Int.le_of_lt hab)
      (fun y _ ↦ hskip y)
    have hcb : T.height c = T.height b := by rw [height, hch]; rfl
    rw [hc]
    exact ⟨c, b, rfl, hcb, by omega, commonAncestor_iff_of_height_eq hT.graded hca hcb⟩
  · -- `b` is higher
    obtain ⟨c, hc, hcb, hch⟩ := GetAncestor_of_le hT (x := b) (hT.nHeight_nonneg a) (Int.le_of_lt hba)
      (fun y _ ↦ hskip y)
    have hca : T.height c = T.height a := by rw [height, hch]; rfl
    rw [hc]
    refine ⟨a, c, rfl, hca.symm, le_rfl, fun d ↦ ?_⟩
    rw [and_comm, commonAncestor_iff_of_height_eq hT.graded hcb hca d, and_comm]
  · exact ⟨a, b, rfl, by omega, le_rfl, fun d ↦ Iff.rfl⟩

variable [DecidableEq ι]

/-- One pass of the loop over two distinct entries of one height above a common ancestor: it
lands on two entries of one lower height with the same common ancestors. A jump is taken only
where the skip targets differ, so it passes no common ancestor; otherwise both sides step back. -/
theorem lcaLoop_succ_of_ne (fuel : ℕ) {a b d₀ : ι} (hab : a ≠ b) (hh : T.height a = T.height b)
    (hda : IsAncestor T.pprev d₀ a) (hdb : IsAncestor T.pprev d₀ b) :
    ∃ a' b', T.lcaLoop (fuel + 1) (some a) (some b) = T.lcaLoop fuel (some a') (some b') ∧
      T.height a' = T.height b' ∧ T.height a' < T.height a ∧
      ∀ d, (IsAncestor T.pprev d a ∧ IsAncestor T.pprev d b ↔
        IsAncestor T.pprev d a' ∧ IsAncestor T.pprev d b') := by
  have hlt := height_lt_of_commonAncestor hT.graded hab hh hda hdb
  rcases T.lcaLoop_succ_cases hab with ⟨sa, sb, hsa, hsb, hne, hstep⟩ | hstep
  · -- the jump: both land at the skip height of their common height, on distinct entries
    obtain ⟨hsa', hsah⟩ := skipCorrect_of_wellFormed hT a sa hsa
    obtain ⟨hsb', hsbh⟩ := skipCorrect_of_wellFormed hT b sb hsb
    have hka := ancestor_of_isAncestor hT.graded hsa'
    have hkb := ancestor_of_isAncestor hT.graded hsb'
    rw [hsbh, ← hh, ← hsah] at hkb
    rw [← hh] at hsbh
    have hskipLt : GetSkipHeight (T.height a) < T.height a := GetSkipHeight_lt (by omega)
    exact ⟨sa, sb, hstep, by omega, by omega,
      commonAncestor_iff_of_ne hT.graded hh hka (hh ▸ hkb) hne⟩
  · -- the step back: neither is a root, as a common ancestor lies lower
    obtain ⟨a', b', ha', hb', hiff⟩ :=
      commonAncestor_iff_parent hT.graded hT.height_root hab hh hda hdb
    have := hT.graded a a' ha'
    have := hT.graded b b' hb'
    exact ⟨a', b', by rw [hstep, ha', hb'], by omega, by omega, hiff⟩

/-- The loop from two entries of one height above a common ancestor ends, with passes left
over, on both sides at their deepest common ancestor. The induction is on the passes left; each
pass lands lower with the same common ancestors. -/
theorem lcaLoop_spec (fuel : ℕ) :
    ∀ a b, T.height a = T.height b → T.height a < fuel →
      (∃ d, IsAncestor T.pprev d a ∧ IsAncestor T.pprev d b) →
      ∃ c, T.lcaLoop fuel (some a) (some b) = some (some c, some c) ∧
        IsDeepestCommonAncestor T.pprev c a b := by
  induction fuel with
  | zero =>
    intro a b _ hfuel
    omega
  | succ fuel ih =>
    intro a b hh hfuel hcommon
    by_cases hab : a = b
    · subst hab
      rw [lcaLoop, if_pos rfl]
      exact ⟨a, rfl, isDeepestCommonAncestor_self a⟩
    · obtain ⟨d₀, hda, hdb⟩ := hcommon
      obtain ⟨a', b', heq, hh', hlt, hiff⟩ := T.lcaLoop_succ_of_ne hT fuel hab hh hda hdb
      obtain ⟨c, hc, hdeep⟩ := ih a' b' hh' (by omega) ⟨d₀, (hiff d₀).1 ⟨hda, hdb⟩⟩
      exact ⟨c, heq ▸ hc, hdeep.of_common_iff hiff⟩

/-- `LastCommonAncestor` of two entries of one tree returns their deepest common ancestor, and
no `assert` fails. -/
theorem LastCommonAncestor_spec (a b : ι)
    (hcommon : ∃ d, IsAncestor T.pprev d a ∧ IsAncestor T.pprev d b) :
    ∃ c, T.LastCommonAncestor a b = .ok (some c) ∧ IsDeepestCommonAncestor T.pprev c a b := by
  obtain ⟨a', b', hsame, hh, hle, hiff⟩ := T.sameHeight_spec hT a b
  obtain ⟨d₀, hd⟩ := hcommon
  obtain ⟨c, hloop, hdeep⟩ := T.lcaLoop_spec hT ((T.nHeight a).toNat + 2) a' b' hh
    (show T.height a' < T.height a + 2 by omega) ⟨d₀, (hiff d₀).1 hd⟩
  refine ⟨c, ?_, hdeep.of_common_iff hiff⟩
  rw [LastCommonAncestor, hsame]
  dsimp only [bind, Except.bind]
  rw [hloop]
  dsimp only
  rw [if_pos rfl]
  rfl

end WellFormed

/-- In a well-formed index, `GetAncestor` returns null out of range and otherwise the entry the
height difference of `pprev` steps up, never failing its `assert`; `LastCommonAncestor` of two
entries of one tree returns their deepest common ancestor. -/
theorem GetAncestor_LastCommonAncestor_spec [DecidableEq ι] (hT : T.WellFormed) :
    (∀ x h, (h > T.nHeight x ∨ h < 0 → T.GetAncestor x h = .ok none) ∧
      (0 ≤ h → h ≤ T.nHeight x → ∃ c, ancestor T.pprev (T.nHeight x - h).toNat x = some c ∧
        T.GetAncestor x h = .ok (some c))) ∧
    ∀ a b, (∃ d, IsAncestor T.pprev d a ∧ IsAncestor T.pprev d b) →
      ∃ c, T.LastCommonAncestor a b = .ok (some c) ∧ IsDeepestCommonAncestor T.pprev c a b := by
  refine ⟨fun x h ↦ ⟨fun hout ↦ by rw [GetAncestor, if_pos hout], fun h0 hle ↦ ?_⟩,
    fun a b hcommon ↦ T.LastCommonAncestor_spec hT a b hcommon⟩
  obtain ⟨c, hc, hcx, hch⟩ :=
    GetAncestor_of_le hT h0 hle (fun y _ ↦ skipCorrect_of_wellFormed hT y)
  -- the entry found lies the height difference of steps up
  have hk : (T.nHeight x - h).toNat = T.height x - T.height c := by
    have := hT.nHeight_eq x
    have := hT.nHeight_eq c
    omega
  rw [hk]
  exact ⟨c, ancestor_of_isAncestor hT.graded hcx, hc⟩

/-- A genesis entry recorded at height one: nothing in `CBlockIndex` forbids it, and only
`AddToBlockIndex` puts genesis at height zero. -/
def highRoot : BlockIndexGraph Unit where
  nHeight := fun _ ↦ 1
  pprev := fun _ ↦ none
  pskip := fun _ ↦ none

/-- Heights that step by one from parent to child and skip pointers set by `BuildSkip` are not
enough: below a genesis entry at height one, `GetAncestor(0)` walks back off the chain. -/
theorem GetAncestor_asserts_below_high_root :
    (∀ x p, highRoot.pprev x = some p → highRoot.nHeight x = highRoot.nHeight p + 1) ∧
    (∀ x, highRoot.BuildSkip x = .ok (highRoot.pskip x)) ∧
    highRoot.GetAncestor () 0 = .error "assert(pindexWalk->pprev)" := by
  refine ⟨fun _ _ h ↦ (nomatch h), fun _ ↦ highRoot.BuildSkip_of_root rfl, ?_⟩
  rw [GetAncestor, if_neg (by decide), ancestorWalk, if_pos (by decide)]
  rfl

/-- A genesis entry, its child, and two grandchildren forking there. -/
def forkIndex : BlockIndexGraph (Fin 4) where
  nHeight := ![0, 1, 2, 2]
  pprev := ![none, some 0, some 1, some 1]
  pskip := ![none, some 0, some 0, some 0]

theorem forkIndex_wellFormed : forkIndex.WellFormed where
  nHeight_pprev := by decide
  nHeight_root := by decide
  nHeight_nonneg := by decide
  pskip_built := by decide +kernel

theorem GetAncestor_LastCommonAncestor_spec_on_fork :
    forkIndex.GetAncestor 3 0 = .ok (some 0) ∧
      ∃ c, forkIndex.LastCommonAncestor 2 3 = .ok (some c) ∧
        IsDeepestCommonAncestor forkIndex.pprev c 2 3 := by
  obtain ⟨hget, hlca⟩ := GetAncestor_LastCommonAncestor_spec forkIndex forkIndex_wellFormed
  obtain ⟨c, hc, hgetc⟩ := (hget 3 0).2 (by decide) (by decide)
  -- two steps up from a grandchild is the genesis entry
  have hc0 : c = 0 := by
    have h0 : ancestor forkIndex.pprev (forkIndex.nHeight 3 - 0).toNat 3 = some 0 := by decide
    exact Option.some_inj.1 (hc.symm.trans h0)
  exact ⟨hc0 ▸ hgetc, hlca 2 3 ⟨0, ⟨2, by decide⟩, ⟨2, by decide⟩⟩⟩

end BlockIndexGraph

end LightningCash
