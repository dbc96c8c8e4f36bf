import LightningCash.Validation.ActivateBestChain
import LightningCash.Primitives.Transaction
import LightningCash.Lib.Ancestors
import Mathlib.Data.Nat.Log

/-!
# The active chain: `CChain` (chain.h, chain.cpp)

`CChain` keeps the active chain as an array `vChain` of block index pointers, entry `h` being the
block at height `h`. `SetTip` resizes the array to the new tip's height and walks back from the
tip through `pprev`, writing each block at its height, and stops as soon as it finds a block
already in place: below that block the old chain and the new one agree. Everything else reads the
array: `operator[]`, `Tip`, `Height`, `Contains`, `Next`, `FindFork` and `GetLocator`.

Pointers are those of the chain activation model (`BlockPtr`): a block and its ancestors, `[]`
being the null pointer. In an index built by `AddToBlockIndex` each entry is one above its parent
down to a genesis entry at height zero (`BlockPtr.Linked`). What `SetTip` should leave is then a
function of the tip alone, `chainOf tip`, whose entry `h` is the tip's ancestor at height `h`;
this is the abstraction the chain activation model uses when it holds the active chain as its
tip.

## Main results

* `SetTip_chainOf`: from any array that holds the chain of some tip, `SetTip` leaves the chain of
  the new tip, exactly what it builds from an empty array: the early exit never keeps a stale
  entry. So every run of `SetTip` calls from the empty chain keeps `vChain = chainOf tip`.
* Over such an array `operator[]`, `Contains` and `FindFork` answer what the tip-based definitions
  of the chain activation model answer, and `FindFork` returns the deepest common ancestor of a
  block and the tip.
* `GetLocator` of a block of the chain lists its ancestors from itself down to the genesis block,
  by strictly decreasing heights, in at most `12 + log₂ height` entries. A block more than one
  above the tip gets a locator of its own hash alone: the source reads the rest of the locator off
  the active chain, not off the block's ancestors.
-/

namespace LightningCash

namespace CChain

/-! ## The array and its reads -/

/-- `vChain[n]`, where an index outside the array is undefined behaviour, here a fault. -/
def vChainAt (vChain : List BlockPtr) (n : ℤ) : Except String BlockPtr :=
  if n < 0 then .error "vector index out of range" else vecAt vChain n.toNat

/-- `operator[](nHeight)`: null outside `0 ≤ nHeight < vChain.size()`. -/
def get (vChain : List BlockPtr) (nHeight : ℤ) : BlockPtr :=
  if nHeight < 0 ∨ nHeight ≥ vChain.length then [] else vChain.getD nHeight.toNat []

/-- `Tip()`: the last entry, null for an empty array. -/
def Tip (vChain : List BlockPtr) : BlockPtr := vChain.getLastD []

/-- `Height()`: `vChain.size() - 1`. -/
def Height (vChain : List BlockPtr) : ℤ := vChain.length - 1

/-- `Contains(pindex)`: `(*this)[pindex->nHeight] == pindex`. -/
def Contains (vChain : List BlockPtr) (pindex : BlockPtr) : Bool :=
  get vChain pindex.height == pindex

/-- `Next(pindex)`: the block after `pindex` when the chain contains it. -/
def Next (vChain : List BlockPtr) (pindex : BlockPtr) : BlockPtr :=
  if Contains vChain pindex then get vChain (pindex.height + 1) else []

/-! ## `SetTip` -/

/-- `vChain.resize(n)`: cut to `n` entries, or filled up with null pointers. -/
def resize (vChain : List BlockPtr) (n : ℕ) : List BlockPtr :=
  vChain.take n ++ List.replicate (n - vChain.length) []

/-- The loop `while (pindex && vChain[pindex->nHeight] != pindex)` of `SetTip`: write the block
at its height and go on with its parent. -/
def setTipLoop : BlockPtr → List BlockPtr → Except String (List BlockPtr)
  | [], vChain => .ok vChain
  | e :: pprev, vChain => do
    let entry ← vChainAt vChain e.nHeight
    if entry = e :: pprev then .ok vChain
    else setTipLoop pprev (vChain.set e.nHeight.toNat (e :: pprev))

/-- `SetTip(pindex)`: a null tip empties the chain; otherwise the array is resized to the tip's
height plus one, which throws `length_error` for a size below zero, and the loop fills it in. -/
def SetTip (vChain : List BlockPtr) : BlockPtr → Except String (List BlockPtr)
  | [] => .ok []
  | e :: pprev =>
    if e.nHeight + 1 < 0 then .error "vector::resize: length_error"
    else setTipLoop (e :: pprev) (resize vChain (e.nHeight + 1).toNat)

/-! ## `FindFork` -/

/-- The loop `while (pindex && !Contains(pindex)) pindex = pindex->pprev` of `FindFork`. -/
def forkLoop (vChain : List BlockPtr) : BlockPtr → BlockPtr
  | [] => []
  | e :: pprev => if Contains vChain (e :: pprev) then e :: pprev else forkLoop vChain pprev

/-- `FindFork(pindex)`: a block above the tip is first brought down to the tip's height. -/
def FindFork (vChain : List BlockPtr) : BlockPtr → BlockPtr
  | [] => []
  | e :: pprev =>
    let pindex := if BlockPtr.height (e :: pprev) > Height vChain then
      BlockPtr.GetAncestor (e :: pprev) (Height vChain) else e :: pprev
    forkLoop vChain pindex

/-! ## `GetLocator` -/

/-- The loop of `GetLocator`: push the block's hash, stop at the genesis block, otherwise go to
the chain's block `nStep` lower (or the genesis block) and double `nStep` once more than ten
hashes are in. The heights along the chain fall at every pass, which the fuel, the length of the
array plus one, accounts for; `none` is a loop that runs out of it. -/
def locatorLoop (vChain : List BlockPtr) : ℕ → BlockPtr → ℤ → List ℕ → Option (List ℕ)
  | _, [], _, vHave => some vHave
  | 0, _ :: _, _, _ => none
  | fuel + 1, e :: _, nStep, vHave =>
    let vHave := vHave ++ [e.hash]
    if e.nHeight = 0 then some vHave
    else
      let nHeight := max (e.nHeight - nStep) 0
      let nStep := if vHave.length > 10 then nStep * 2 else nStep
      locatorLoop vChain fuel (get vChain nHeight) nStep vHave

/-- `GetLocator(pindex)`: the hashes `vHave` of the locator, from the tip when `pindex` is null. -/
def GetLocator (vChain : List BlockPtr) (pindex : BlockPtr) : Option (List ℕ) :=
  let pindex := if pindex = [] then Tip vChain else pindex
  locatorLoop vChain (vChain.length + 1) pindex 1 []

end CChain

/-! ## The chain of a tip -/

namespace BlockPtr

/-- An entry one above its parent, down to a genesis entry at height zero: what `AddToBlockIndex`
builds. -/
def Linked : BlockPtr → Prop
  | [] => True
  | e :: pprev => e.nHeight = pprev.length ∧ Linked pprev

instance instDecidableLinked : (p : BlockPtr) → Decidable (Linked p)
  | [] => isTrue trivial
  | _ :: pprev =>
    have := instDecidableLinked pprev
    inferInstanceAs (Decidable (_ ∧ _))

end BlockPtr

/-- A chain of three blocks from a genesis block. -/
def threeBlocks : BlockPtr := [⟨12, 2, 3⟩, ⟨11, 1, 2⟩, ⟨10, 0, 1⟩]

/-- A block on a fork off the second block of `threeBlocks`. -/
def forkBlock : BlockPtr := [⟨21, 2, 4⟩, ⟨11, 1, 2⟩, ⟨10, 0, 1⟩]

/-- What `vChain` should hold for a tip: entry `h` is the tip's ancestor at height `h`, which in a
linked pointer is its suffix of length `h + 1`. -/
def chainOf : BlockPtr → List BlockPtr
  | [] => []
  | e :: pprev => chainOf pprev ++ [e :: pprev]

@[simp] theorem chainOf_nil : chainOf [] = [] := rfl

@[simp] theorem chainOf_cons (e : ChainEntry) (pprev : BlockPtr) :
    chainOf (e :: pprev) = chainOf pprev ++ [e :: pprev] := rfl

@[simp] theorem length_chainOf (p : BlockPtr) : (chainOf p).length = p.length := by
  induction p with
  | nil => rfl
  | cons e pprev ih => simp [ih]

/-- Entry `i` of the chain of `t` is the suffix of `t` of length `i + 1`. -/
theorem getElem_chainOf {t : BlockPtr} {i : ℕ} (hi : i < (chainOf t).length) :
    (chainOf t)[i] = t.drop (t.length - (i + 1)) := by
  induction t with
  | nil => simp at hi
  | cons e pprev ih =>
    simp only [chainOf_cons, List.length_append, length_chainOf, List.length_singleton] at hi
    simp only [chainOf_cons, List.length_cons]
    rcases Nat.lt_or_eq_of_le (Nat.le_of_lt_succ hi) with hlt | rfl
    · rw [List.getElem_append_left (by simpa using hlt), ih (by simpa using hlt),
        show pprev.length + 1 - (i + 1) = pprev.length - (i + 1) + 1 by omega, List.drop_succ_cons]
    · simp

/-- The chain of a suffix of `t` is the beginning of the chain of `t`. -/
theorem take_chainOf_of_suffix {q t : BlockPtr} (h : q <:+ t) :
    (chainOf t).take q.length = chainOf q := by
  have hle := h.length_le
  apply List.ext_getElem (by simp; omega)
  intro i hi₁ hi₂
  rw [List.getElem_take, getElem_chainOf, getElem_chainOf, List.suffix_iff_eq_drop.mp h,
    List.drop_drop, List.length_drop]
  simp only [length_chainOf] at hi₂
  congr 1
  omega

/-- Every entry of the chain of `t` is a suffix of `t`. -/
theorem suffix_of_getElem_chainOf {t : BlockPtr} {i : ℕ} (hi : i < (chainOf t).length) :
    (chainOf t)[i] <:+ t := by
  rw [getElem_chainOf]
  exact List.drop_suffix _ _

/-- Entry `q.length - 1` of the chain of `t` is `q`, for a suffix `q` of `t`. -/
theorem getD_chainOf_of_suffix {q t : BlockPtr} (h : q <:+ t) {i : ℕ} (hi : i + 1 = q.length) :
    (chainOf t).getD i [] = q := by
  have hle := h.length_le
  rw [List.getD_eq_getElem _ _ (by simp; omega), getElem_chainOf, hi,
    ← List.suffix_iff_eq_drop.mp h]

/-! ## Linked pointers -/

namespace BlockPtr

theorem Linked.tail {e : ChainEntry} {pprev : BlockPtr} (h : Linked (e :: pprev)) :
    Linked pprev := h.2

/-- A linked pointer's head is at the height its ancestors count. -/
theorem Linked.nHeight_eq {e : ChainEntry} {pprev : BlockPtr} (h : Linked (e :: pprev)) :
    e.nHeight = pprev.length := h.1

theorem Linked.of_suffix {q p : BlockPtr} (hp : Linked p) (h : q <:+ p) : Linked q := by
  induction p with
  | nil => rwa [List.suffix_nil.mp h]
  | cons e pprev ih =>
    rcases List.suffix_cons_iff.mp h with rfl | h'
    · exact hp
    · exact ih hp.tail h'

theorem Linked.height_eq {p : BlockPtr} (hp : Linked p) : p.height = p.length - 1 := by
  cases p with
  | nil => rfl
  | cons e pprev =>
    simp only [height, List.length_cons, hp.nHeight_eq]
    omega

/-- In a linked pointer `GetAncestor` reads the chain of the pointer: the walk by heights stops
at the suffix whose head has the height asked for. -/
theorem GetAncestor_eq_get {p : BlockPtr} (hp : Linked p) (h : ℤ) :
    p.GetAncestor h = CChain.get (chainOf p) h := by
  induction p with
  | nil => simp [GetAncestor, CChain.get]
  | cons e pprev ih =>
    have he := hp.nHeight_eq
    simp only [GetAncestor, CChain.get, chainOf_cons, List.length_append, length_chainOf,
      List.length_singleton, he]
    rcases lt_trichotomy h pprev.length with hlt | rfl | hgt
    · by_cases hneg : h < 0
      · -- below the genesis entry
        simp [hneg]
      · -- further down: the same entry of the parent's chain
        rw [if_neg (by omega), if_neg (by omega), if_neg (by omega), ih hp.tail, CChain.get,
          if_neg (by simp; omega), List.getD_append _ _ _ _ (by simp; omega)]
    · -- the head itself
      simp
    · -- above the head
      rw [if_pos (.inl hgt), if_pos (.inr (by omega))]

end BlockPtr

/-! ## `SetTip` keeps the chain of its tip -/

namespace CChain

@[simp] theorem length_resize (vChain : List BlockPtr) (n : ℕ) : (resize vChain n).length = n := by
  simp only [resize, List.length_append, List.length_take, List.length_replicate]
  omega

theorem getElem_resize {vChain : List BlockPtr} {n i : ℕ} (hi : i < (resize vChain n).length) :
    (resize vChain n)[i] = vChain.getD i [] := by
  simp only [length_resize] at hi
  by_cases hin : i < vChain.length
  · rw [List.getD_eq_getElem _ _ hin]
    simp [resize, List.getElem_append_left (show i < (vChain.take n).length by simp; omega)]
  · rw [List.getD_eq_default _ _ (by omega)]
    simp [resize, List.getElem_append_right (show (vChain.take n).length ≤ i by simp; omega)]

theorem take_resize {vChain : List BlockPtr} {n k : ℕ} (hk : k ≤ n) (hkv : k ≤ vChain.length) :
    (resize vChain n).take k = vChain.take k := by
  rw [resize, List.take_append_of_le_length (by simp; omega), List.take_take, min_eq_left hk]

theorem vChainAt_of_lt {vChain : List BlockPtr} {i : ℕ} (hi : i < vChain.length) :
    vChainAt vChain i = .ok vChain[i] := by
  rw [vChainAt, if_neg (by omega)]
  exact vecAt_of_lt hi

/-- One pass of the loop, once the entry at the head's height is read. -/
theorem setTipLoop_cons_of_vChainAt {e : ChainEntry} {pprev : BlockPtr} {vChain : List BlockPtr}
    {entry : BlockPtr} (h : vChainAt vChain e.nHeight = .ok entry) :
    setTipLoop (e :: pprev) vChain = if entry = e :: pprev then .ok vChain
      else setTipLoop pprev (vChain.set e.nHeight.toNat (e :: pprev)) := by
  rw [setTipLoop, h]
  rfl

/-- Writing the new chain's entry `i` over the old array's moves the boundary between the two
down by one. -/
theorem set_take_append_drop (base chain : List BlockPtr) {i : ℕ} (hb : i < base.length)
    (hc : i < chain.length) :
    (base.take (i + 1) ++ chain.drop (i + 1)).set i chain[i] = base.take i ++ chain.drop i := by
  rw [List.take_add_one, List.getElem?_eq_getElem hb, Option.toList_some, List.append_assoc,
    List.singleton_append, List.set_append_right _ _ (by simp),
    List.drop_eq_getElem_cons hc]
  simp [show i - min i base.length = 0 by omega]

/-- **The loop of `SetTip`.** The array holds the old array's entries up to the pointer `q` and
the new chain's above it. Where the old entry at `q`'s height is `q` itself, `q` is a suffix of
the old tip, so the old entries below it are `q`'s chain, which is the new chain's beginning: the
loop may stop. Otherwise it writes `q` and goes on with its parent. -/
theorem setTipLoop_spec (t : BlockPtr) {p : BlockPtr} (hp : p.Linked) :
    ∀ q, q <:+ p →
      setTipLoop q ((resize (chainOf t) p.length).take q.length ++ (chainOf p).drop q.length) =
        .ok (chainOf p) := by
  intro q
  induction q with
  | nil => simp [setTipLoop]
  | cons e pprev ih =>
    intro hq
    have hlen := hq.length_le
    have he : e.nHeight = pprev.length := (hp.of_suffix hq).nHeight_eq
    simp only [List.length_cons] at hlen ⊢
    have hbl : (resize (chainOf t) p.length).length = p.length := length_resize _ _
    -- the entry at `q`'s height is the old array's
    have hX : pprev.length < ((resize (chainOf t) p.length).take (pprev.length + 1) ++
        (chainOf p).drop (pprev.length + 1)).length := by simp; omega
    have hat : vChainAt ((resize (chainOf t) p.length).take (pprev.length + 1) ++
        (chainOf p).drop (pprev.length + 1)) e.nHeight = .ok ((chainOf t).getD pprev.length []) := by
      rw [he, vChainAt_of_lt hX, List.getElem_append_left (by simp; omega), List.getElem_take,
        getElem_resize]
    rw [setTipLoop_cons_of_vChainAt hat]
    split_ifs with hfound
    · -- `q` is already in place: it is a suffix of the old tip
      have hin : pprev.length < (chainOf t).length := by
        by_contra hout
        rw [List.getD_eq_default _ _ (by omega)] at hfound
        cases hfound
      rw [List.getD_eq_getElem _ _ hin] at hfound
      have hqt : e :: pprev <:+ t := hfound ▸ suffix_of_getElem_chainOf hin
      have hqlen := hqt.length_le
      simp only [List.length_cons] at hqlen
      rw [take_resize (by omega) (by simp; omega), ← List.length_cons (a := e),
        take_chainOf_of_suffix hqt, ← take_chainOf_of_suffix hq, List.take_append_drop]
    · -- `q` is written and the loop goes on with the parent
      have hlt : pprev.length < (chainOf p).length := by simp; omega
      have hpq : (chainOf p)[pprev.length] = e :: pprev := by
        rw [← List.getD_eq_getElem _ []]
        exact getD_chainOf_of_suffix hq rfl
      have hset := set_take_append_drop (resize (chainOf t) p.length) (chainOf p) (by omega) hlt
      rw [hpq] at hset
      rw [he, Int.toNat_natCast, hset]
      exact ih ((List.suffix_cons e pprev).trans hq)

/-- **`SetTip` leaves the chain of its tip.** From the chain of any tip, `SetTip` to a linked
pointer leaves exactly that pointer's chain: what it builds from an empty array. -/
theorem SetTip_chainOf (t : BlockPtr) {p : BlockPtr} (hp : p.Linked) :
    SetTip (chainOf t) p = .ok (chainOf p) := by
  cases p with
  | nil => rfl
  | cons e pprev =>
    have he := hp.nHeight_eq
    rw [SetTip, if_neg (by omega), show (e.nHeight + 1).toNat = (e :: pprev).length by simp; omega]
    have h := setTipLoop_spec t hp (e :: pprev) List.suffix_rfl
    rwa [List.take_of_length_le (by simp), List.drop_of_length_le (by simp), List.append_nil] at h

/-! ## The array refines the tip

Over the chain of a linked tip every read of the array answers what the chain activation model
answers from the tip alone. -/

section Refinement

variable {t : BlockPtr}

@[simp] theorem Tip_chainOf (t : BlockPtr) : Tip (chainOf t) = t := by
  cases t with
  | nil => rfl
  | cons e pprev => simp [Tip]

theorem Height_chainOf (ht : t.Linked) : Height (chainOf t) = t.height := by
  rw [Height, length_chainOf, ht.height_eq]

theorem get_chainOf (ht : t.Linked) (h : ℤ) : get (chainOf t) h = t.GetAncestor h :=
  (BlockPtr.GetAncestor_eq_get ht h).symm

theorem Contains_chainOf (ht : t.Linked) (q : BlockPtr) :
    Contains (chainOf t) q = LightningCash.Contains t q := by
  rw [Contains, LightningCash.Contains, get_chainOf ht]

theorem forkLoop_chainOf (ht : t.Linked) (q : BlockPtr) : forkLoop (chainOf t) q = forkWalk t q := by
  induction q with
  | nil => rfl
  | cons e pprev ih => rw [forkLoop, forkWalk, Contains_chainOf ht, ih]

theorem FindFork_chainOf (ht : t.Linked) (q : BlockPtr) :
    FindFork (chainOf t) q = LightningCash.FindFork t q := by
  cases q with
  | nil => rfl
  | cons e pprev =>
    simp only [FindFork, LightningCash.FindFork, Height_chainOf ht, forkLoop_chainOf ht]

/-- The array answers every read as the tip does: what chain activation relies on when it holds
the active chain as its tip. -/
structure RefinesTip (vChain : List BlockPtr) (t : BlockPtr) : Prop where
  tip_eq : Tip vChain = t
  height_eq : Height vChain = t.height
  get_eq : ∀ h, get vChain h = t.GetAncestor h
  contains_eq : ∀ q, Contains vChain q = LightningCash.Contains t q
  findFork_eq : ∀ q, FindFork vChain q = LightningCash.FindFork t q

theorem refinesTip_chainOf (ht : t.Linked) : RefinesTip (chainOf t) t :=
  ⟨Tip_chainOf t, Height_chainOf ht, get_chainOf ht, Contains_chainOf ht, FindFork_chainOf ht⟩

/-- The run lemma: `SetTip` after `SetTip` from the chain of `t₀` leaves the chain of the last
tip, one `SetTip_chainOf` a call. -/
theorem foldlM_SetTip_chainOf {tips : List BlockPtr} (htips : ∀ p ∈ tips, p.Linked)
    (t₀ : BlockPtr) : tips.foldlM SetTip (chainOf t₀) = .ok (chainOf (tips.getLastD t₀)) := by
  induction tips generalizing t₀ with
  | nil => rfl
  | cons p ps ih =>
    rw [List.foldlM_cons, SetTip_chainOf t₀ (htips p List.mem_cons_self), List.getLastD_cons]
    exact ih (fun q hq => htips q (List.mem_cons_of_mem p hq)) p

/-- **`CChain` refines the tip over every run.** Whatever linked tips `SetTip` is called with,
from the empty chain, the array is the chain of the last one and answers `Tip`, `Height`,
`operator[]`, `Contains` and `FindFork` as the tip-based model of chain activation does. -/
theorem SetTip_run_refines_tip {tips : List BlockPtr} (htips : ∀ p ∈ tips, p.Linked) :
    ∃ vChain, tips.foldlM SetTip [] = .ok vChain ∧ vChain = chainOf (tips.getLastD []) ∧
      RefinesTip vChain (tips.getLastD []) := by
  have hlast : (tips.getLastD []).Linked := by
    rw [List.getLastD_eq_getLast?]
    cases h : tips.getLast? with
    | none => trivial
    | some b => exact htips b (List.mem_of_getLast? h)
  exact ⟨_, foldlM_SetTip_chainOf htips [], rfl, refinesTip_chainOf hlast⟩

/-- A reorganisation from `threeBlocks` to the fork. -/
theorem SetTip_run_refines_tip_on_reorg :
    ∃ vChain, [threeBlocks, forkBlock].foldlM SetTip [] = .ok vChain ∧
      vChain = chainOf forkBlock ∧ RefinesTip vChain forkBlock :=
  @SetTip_run_refines_tip [threeBlocks, forkBlock] (by decide)

end Refinement

end CChain

/-! ## `FindFork` finds the deepest common ancestor

A pointer's ancestors through `pprev` are its suffixes, so `Contains` over a linked tip is the
suffix test, and the walk of `FindFork` stops at the longest common suffix of the block and the
tip: their deepest common ancestor in the block index seen as a forest. -/

namespace BlockPtr

/-- `pindex->pprev`: the parent pointer, null above the genesis entry; the null pointer has
none. -/
def pprev : BlockPtr → Option BlockPtr
  | [] => none
  | _ :: rest => some rest

theorem ancestor_pprev (k : ℕ) (x : BlockPtr) :
    Ancestors.ancestor pprev k x = if k ≤ x.length then some (x.drop k) else none := by
  induction k generalizing x with
  | zero => simp
  | succ k ih =>
    cases x with
    | nil => simp [Ancestors.ancestor_succ, pprev]
    | cons e rest => simp [Ancestors.ancestor_succ, pprev, ih]

/-- The ancestors of a pointer are its suffixes. -/
theorem isAncestor_pprev_iff {c x : BlockPtr} : Ancestors.IsAncestor pprev c x ↔ c <:+ x := by
  constructor
  · rintro ⟨k, hk⟩
    rw [ancestor_pprev] at hk
    split_ifs at hk
    cases hk
    exact List.drop_suffix k x
  · intro h
    refine ⟨x.length - c.length, ?_⟩
    rw [ancestor_pprev, if_pos (Nat.sub_le _ _), ← List.suffix_iff_eq_drop.mp h]

theorem GetAncestor_suffix (p : BlockPtr) (h : ℤ) : p.GetAncestor h <:+ p := by
  induction p with
  | nil => simp [GetAncestor]
  | cons e rest ih =>
    rw [GetAncestor]
    split_ifs
    · exact List.nil_suffix
    · exact List.suffix_rfl
    · exact ih.trans (List.suffix_cons e rest)

/-- In a linked pointer the ancestor at height `n - 1` is its suffix of length `n`. -/
theorem GetAncestor_eq_drop {q : BlockPtr} (hq : q.Linked) {n : ℕ} (hn : n ≤ q.length) :
    q.GetAncestor ((n : ℤ) - 1) = q.drop (q.length - n) := by
  rw [GetAncestor_eq_get hq]
  rcases n with _ | n
  · simp [CChain.get]
  · rw [CChain.get, if_neg (by simp; omega), show ((n + 1 : ℕ) : ℤ) - 1 = n by push_cast; ring,
      Int.toNat_natCast, List.getD_eq_getElem _ _ (by simp; omega), getElem_chainOf]

end BlockPtr

namespace CChain

variable {t : BlockPtr}

theorem get_chainOf_of_suffix (ht : t.Linked) {q : BlockPtr} (hq : q <:+ t) :
    get (chainOf t) q.height = q := by
  cases q with
  | nil => simp [get, BlockPtr.height]
  | cons e rest =>
    have hl := hq.length_le
    simp only [List.length_cons] at hl
    rw [BlockPtr.height, (ht.of_suffix hq).nHeight_eq, get, if_neg (by simp; omega),
      Int.toNat_natCast, getD_chainOf_of_suffix hq rfl]

end CChain

section FindFork

variable {t : BlockPtr}

open Ancestors BlockPtr

/-- Over a linked tip, `Contains` is the suffix test. -/
theorem Contains_iff_suffix (ht : t.Linked) {q : BlockPtr} : Contains t q = true ↔ q <:+ t := by
  rw [Contains, beq_iff_eq]
  constructor
  · intro h
    rw [← h]
    exact GetAncestor_suffix t _
  · intro h
    rw [GetAncestor_eq_get ht, CChain.get_chainOf_of_suffix ht h]

/-- The walk back from any pointer stops at its deepest common ancestor with the tip: a pointer
off the chain shares with the tip exactly the ancestors its parent shares. -/
theorem forkWalk_isDeepestCommonAncestor (ht : t.Linked) (q : BlockPtr) :
    IsDeepestCommonAncestor pprev (forkWalk t q) q t := by
  induction q with
  | nil => exact ⟨.refl _, isAncestor_pprev_iff.mpr List.nil_suffix, fun d hd _ => hd⟩
  | cons e rest ih =>
    rw [forkWalk]
    split_ifs with hc
    · -- on the chain: the pointer itself
      exact ⟨.refl _, isAncestor_pprev_iff.mpr ((Contains_iff_suffix ht).mp hc), fun d hd _ => hd⟩
    · -- off the chain: the common ancestors are the parent's
      refine ih.of_common_iff fun d => ?_
      simp only [isAncestor_pprev_iff]
      constructor
      · rintro ⟨hdq, hdt⟩
        rcases List.suffix_cons_iff.mp hdq with rfl | hd
        · exact absurd ((Contains_iff_suffix ht).mpr hdt) hc
        · exact ⟨hd, hdt⟩
      · rintro ⟨hd, hdt⟩
        exact ⟨hd.trans (List.suffix_cons e rest), hdt⟩

/-- Bringing a block above the tip down to the tip's height keeps its common ancestors with the
tip: none of them is longer than the tip. -/
theorem commonAncestor_iff_GetAncestor (ht : t.Linked) {q : BlockPtr} (hq : q.Linked)
    (hgt : q.height > t.height) (d : BlockPtr) :
    IsAncestor pprev d q ∧ IsAncestor pprev d t ↔
      IsAncestor pprev d (q.GetAncestor t.height) ∧ IsAncestor pprev d t := by
  have hlen : t.length ≤ q.length := by
    rw [hq.height_eq, ht.height_eq] at hgt
    omega
  rw [ht.height_eq, GetAncestor_eq_drop hq hlen]
  simp only [isAncestor_pprev_iff]
  constructor
  · rintro ⟨hdq, hdt⟩
    have hdl := hdt.length_le
    exact ⟨List.suffix_of_suffix_length_le hdq (List.drop_suffix _ _) (by simp; omega), hdt⟩
  · rintro ⟨hdc, hdt⟩
    exact ⟨hdc.trans (List.drop_suffix _ _), hdt⟩

theorem FindFork_isDeepestCommonAncestor_tip (ht : t.Linked) {q : BlockPtr} (hq : q.Linked) :
    IsDeepestCommonAncestor pprev (FindFork t q) q t := by
  cases q with
  | nil => exact forkWalk_isDeepestCommonAncestor ht []
  | cons e rest =>
    simp only [FindFork]
    split_ifs with hgt
    · exact (forkWalk_isDeepestCommonAncestor ht _).of_common_iff
        (commonAncestor_iff_GetAncestor ht hq hgt)
    · exact forkWalk_isDeepestCommonAncestor ht _

/-- **`FindFork` returns the deepest common ancestor.** Over the chain of a linked tip,
`FindFork` of any linked block is the deepest block that is an ancestor of both. -/
theorem CChain.FindFork_isDeepestCommonAncestor (ht : t.Linked) {q : BlockPtr} (hq : q.Linked) :
    IsDeepestCommonAncestor pprev (CChain.FindFork (chainOf t) q) q t := by
  rw [CChain.FindFork_chainOf ht]
  exact FindFork_isDeepestCommonAncestor_tip ht hq

theorem FindFork_isDeepestCommonAncestor_on_fork :
    IsDeepestCommonAncestor pprev (CChain.FindFork (chainOf threeBlocks) forkBlock) forkBlock
      threeBlocks :=
  CChain.FindFork_isDeepestCommonAncestor (by decide) (by decide)

end FindFork

/-! ## The locator of a block

The heights `GetLocator` visits do not depend on the chain: from height `n` it goes down by one
block for the first ten hashes, then by steps that double, down to the genesis block
(`locatorHeights`). Over the chain of a linked tip, the loop reads the chain's blocks at those
heights. -/

namespace BlockPtr

/-- `pindex->GetBlockHash()` for a pointer the source has checked. -/
def GetBlockHash : BlockPtr → ℕ
  | [] => 0
  | e :: _ => e.hash

end BlockPtr

namespace CChain

/-- The heights the loop of `GetLocator` visits from height `n`, with step `nStep` and `m` hashes
already in, while the fuel lasts. -/
def locatorHeights : ℕ → ℕ → ℕ → ℕ → List ℕ
  | 0, _, _, _ => []
  | fuel + 1, n, nStep, m =>
    if n = 0 then [0]
    else n :: locatorHeights fuel (n - nStep) (if m + 1 > 10 then nStep * 2 else nStep) (m + 1)

/-- How far below the first block the locator's entry `m` lies while no step is cut at the
genesis block: one block at a time for the first ten entries, then `1 + 2 + ⋯ + 2 ^ (m - 11)`
more. -/
def locatorDepth (m : ℕ) : ℕ := if m ≤ 10 then m else 9 + 2 ^ (m - 10)

section Schedule

variable {fuel n s m : ℕ}

@[simp] theorem locatorHeights_succ_zero : locatorHeights (fuel + 1) 0 s m = [0] := rfl

theorem locatorHeights_succ_of_ne (h0 : n ≠ 0) :
    locatorHeights (fuel + 1) n s m =
      n :: locatorHeights fuel (n - s) (if m + 1 > 10 then s * 2 else s) (m + 1) := by
  rw [locatorHeights, if_neg h0]

theorem one_le_locator_step (hs : 1 ≤ s) : 1 ≤ if m + 1 > 10 then s * 2 else s := by
  split_ifs <;> omega

theorem locatorHeights_eq_cons (hf : n < fuel) :
    ∃ rest, locatorHeights fuel n s m = n :: rest := by
  obtain ⟨fuel, rfl⟩ : ∃ f, fuel = f + 1 := ⟨fuel - 1, by omega⟩
  by_cases h0 : n = 0
  · exact ⟨[], by rw [h0, locatorHeights_succ_zero]⟩
  · exact ⟨_, locatorHeights_succ_of_ne h0⟩

theorem le_of_mem_locatorHeights {k : ℕ} (hk : k ∈ locatorHeights fuel n s m) : k ≤ n := by
  induction fuel generalizing n s m with
  | zero => simp [locatorHeights] at hk
  | succ fuel ih =>
    by_cases h0 : n = 0
    · simp_all
    · rw [locatorHeights_succ_of_ne h0] at hk
      rcases List.mem_cons.mp hk with rfl | hk
      · rfl
      · exact (ih hk).trans (Nat.sub_le n s)

/-- With a step of at least one the heights fall strictly. -/
theorem pairwise_locatorHeights (hs : 1 ≤ s) : (locatorHeights fuel n s m).Pairwise (· > ·) := by
  induction fuel generalizing n s m with
  | zero => simp [locatorHeights]
  | succ fuel ih =>
    by_cases h0 : n = 0
    · simp [h0]
    · rw [locatorHeights_succ_of_ne h0]
      refine List.pairwise_cons.mpr ⟨fun k hk => ?_, ih (one_le_locator_step hs)⟩
      have := le_of_mem_locatorHeights hk
      omega

/-- Given fuel above the height, the walk ends at the genesis block. -/
theorem getLast_locatorHeights (hf : n < fuel) (hs : 1 ≤ s) :
    (locatorHeights fuel n s m).getLast? = some 0 := by
  induction fuel generalizing n s m with
  | zero => omega
  | succ fuel ih =>
    by_cases h0 : n = 0
    · simp [h0]
    · rw [locatorHeights_succ_of_ne h0, List.getLast?_cons,
        ih (by omega) (one_le_locator_step hs)]
      rfl

theorem two_pow_locator_step (m : ℕ) :
    (if m + 1 > 10 then 2 ^ (m - 10) * 2 else 2 ^ (m - 10)) = 2 ^ (m + 1 - 10) := by
  split_ifs with h
  · rw [show m + 1 - 10 = m - 10 + 1 by omega, pow_succ]
  · rw [show m + 1 - 10 = m - 10 by omega]

theorem locatorDepth_succ (m : ℕ) : locatorDepth (m + 1) = locatorDepth m + 2 ^ (m - 10) := by
  unfold locatorDepth
  split_ifs with h₁ h₂ h₂
  · rw [show m - 10 = 0 by omega, pow_zero]
  · omega
  · rw [show m = 10 by omega]
    rfl
  · rw [show m + 1 - 10 = m - 10 + 1 by omega, pow_succ]
    omega

/-- With a block still to go past entry `m`, two more entries keep within the bound: past ten
entries the depth already exceeds `2 ^ (m - 10)`. -/
theorem add_two_le_log_locatorDepth (hn : 1 ≤ n) : m + 2 ≤ 12 + Nat.log 2 (n + locatorDepth m) := by
  by_cases hm : m ≤ 10
  · omega
  · have hpow : 2 ^ (m - 10) ≤ n + locatorDepth m := by
      rw [locatorDepth, if_neg hm]
      omega
    have := Nat.le_log_of_pow_le one_lt_two hpow
    omega

/-- The bound on the locator's length: with the step the loop has at entry `m`, the entries from
height `n` on bring the count to at most `12 + log₂` of the height the locator started from. -/
theorem add_length_locatorHeights_le (fuel : ℕ) (hn : 1 ≤ n) :
    m + (locatorHeights fuel n (2 ^ (m - 10)) m).length ≤
      12 + Nat.log 2 (n + locatorDepth m) := by
  induction fuel generalizing n m with
  | zero =>
    have := add_two_le_log_locatorDepth (m := m) hn
    simp only [locatorHeights, List.length_nil]
    omega
  | succ fuel ih =>
    have hbound := add_two_le_log_locatorDepth (m := m) hn
    rw [locatorHeights_succ_of_ne (by omega), List.length_cons, two_pow_locator_step]
    by_cases hcut : n ≤ 2 ^ (m - 10)
    · -- the step reaches the genesis block: at most one more entry
      have hlast : (locatorHeights fuel (n - 2 ^ (m - 10)) (2 ^ (m + 1 - 10)) (m + 1)).length ≤ 1 := by
        rw [show n - 2 ^ (m - 10) = 0 by omega]
        cases fuel <;> simp [locatorHeights]
      omega
    · -- the walk goes on from a block the depth accounts for
      have h := ih (n := n - 2 ^ (m - 10)) (m := m + 1) (by omega)
      rw [locatorDepth_succ, show n - 2 ^ (m - 10) + (locatorDepth m + 2 ^ (m - 10)) =
        n + locatorDepth m by omega] at h
      omega

theorem length_locatorHeights_le (fuel n : ℕ) :
    (locatorHeights fuel n 1 0).length ≤ 12 + Nat.log 2 n := by
  rcases Nat.eq_zero_or_pos n with rfl | hn
  · cases fuel <;> simp [locatorHeights]
  · simpa [locatorDepth] using add_length_locatorHeights_le (m := 0) fuel hn

end Schedule

section Locator

variable {t : BlockPtr}

theorem get_chainOf_of_lt {n : ℕ} (hn : n < t.length) :
    get (chainOf t) n = t.drop (t.length - (n + 1)) := by
  rw [get, if_neg (by simp; omega), Int.toNat_natCast, List.getD_eq_getElem _ _ (by simpa),
    getElem_chainOf]

theorem get_chainOf_of_le {n : ℕ} (hn : t.length ≤ n) : get (chainOf t) n = [] := by
  rw [get, if_pos (.inr (by simpa))]

/-- Below the height of a block of the chain, the chain's blocks are that block's ancestors. -/
theorem get_chainOf_eq_drop {q : BlockPtr} (hq : q <:+ t) {k : ℕ}
    (hk : k < q.length) : get (chainOf t) k = q.drop (q.length - (k + 1)) := by
  have hql := hq.length_le
  have hsuf : q.drop (q.length - (k + 1)) <:+ t := (List.drop_suffix _ _).trans hq
  rw [get_chainOf_of_lt (by omega), List.suffix_iff_eq_drop.mp hsuf, List.length_drop]
  congr 1
  omega

/-- The chain's block at a height below the tip's: its head is at that height. -/
theorem get_chainOf_eq_cons (ht : t.Linked) {n : ℕ} (hn : n < t.length) :
    ∃ e rest, get (chainOf t) n = e :: rest ∧ e.nHeight = n := by
  rw [get_chainOf_of_lt hn]
  have hlink : BlockPtr.Linked (t.drop (t.length - (n + 1))) := ht.of_suffix (List.drop_suffix _ _)
  have hlen : (t.drop (t.length - (n + 1))).length = n + 1 := by simp; omega
  generalize t.drop (t.length - (n + 1)) = q at hlink hlen
  cases q with
  | nil => simp at hlen
  | cons e rest =>
    simp only [List.length_cons] at hlen
    exact ⟨e, rest, rfl, by rw [hlink.nHeight_eq]; omega⟩

/-- **The loop of `GetLocator` on the chain.** From the chain's block at height `n`, with fuel
above `n`, the loop appends the hashes of the chain's blocks at the heights of the schedule. -/
theorem locatorLoop_chainOf (ht : t.Linked) :
    ∀ (fuel n s : ℕ) (acc : List ℕ), n < t.length → n < fuel → 1 ≤ s →
      locatorLoop (chainOf t) fuel (get (chainOf t) n) s acc =
        some (acc ++ (locatorHeights fuel n s acc.length).map
          fun k : ℕ => (get (chainOf t) k).GetBlockHash) := by
  intro fuel
  induction fuel with
  | zero => intro n s acc _ hf; omega
  | succ fuel ih =>
    intro n s acc hn hf hs
    obtain ⟨e, rest, hget, he⟩ := get_chainOf_eq_cons ht hn
    rw [hget]
    simp only [locatorLoop, he, List.length_append, List.length_singleton]
    by_cases h0 : n = 0
    · -- the genesis block ends the locator
      subst h0
      rw [Nat.cast_zero] at hget
      simp [hget, BlockPtr.GetBlockHash]
    · -- one step down the chain, by the current step or to the genesis block
      have hmax : max ((n : ℤ) - s) 0 = ((n - s : ℕ) : ℤ) := by omega
      have hstep : (if acc.length + 1 > 10 then (s : ℤ) * 2 else s) =
          ((if acc.length + 1 > 10 then s * 2 else s : ℕ) : ℤ) := by
        split_ifs <;> simp
      rw [if_neg (by exact_mod_cast h0), hmax, hstep,
        ih (n - s) _ _ (by omega) (by omega) (one_le_locator_step hs),
        locatorHeights_succ_of_ne h0]
      simp [hget, BlockPtr.GetBlockHash]

/-- **The locator of a block of the chain.** It lists the block and then its ancestors, by
strictly decreasing heights down to the genesis block, in at most `12 + log₂ height` entries. -/
theorem GetLocator_chain_block (ht : t.Linked) {p : BlockPtr} (hp : p <:+ t) (hne : p ≠ []) :
    ∃ ps : List BlockPtr, GetLocator (chainOf t) p = some (ps.map BlockPtr.GetBlockHash) ∧
      ps.head? = some p ∧ ps.getLast? = some (p.drop (p.length - 1)) ∧ (∀ q ∈ ps, q <:+ p) ∧
      ps.Pairwise (fun a b => b <:+ a ∧ b.length < a.length) ∧
      ps.length ≤ 12 + Nat.log 2 (p.length - 1) := by
  obtain ⟨n, hn⟩ : ∃ n, p.length = n + 1 := ⟨p.length - 1, by
    have := List.length_pos_iff.mpr hne
    omega⟩
  have htl := hp.length_le
  have hget : get (chainOf t) n = p := by
    rw [get_chainOf_eq_drop hp (by omega), show p.length - (n + 1) = 0 by omega, List.drop_zero]
  -- the chain's blocks at the heights of the schedule are `p`'s ancestors
  have hanc : ∀ k ∈ locatorHeights (t.length + 1) n 1 0,
      get (chainOf t) k = p.drop (p.length - (k + 1)) := fun k hk =>
    get_chainOf_eq_drop hp (by have := le_of_mem_locatorHeights hk; omega)
  have hloop := locatorLoop_chainOf ht (t.length + 1) n 1 [] (by omega) (by omega) le_rfl
  rw [hget, Nat.cast_one] at hloop
  obtain ⟨rest, hrest⟩ := locatorHeights_eq_cons (s := 1) (m := 0) (show n < t.length + 1 by omega)
  refine ⟨(locatorHeights (t.length + 1) n 1 0).map fun k => p.drop (p.length - (k + 1)),
    ?_, ?_, ?_, ?_, ?_, ?_⟩
  · -- the hashes
    simp only [GetLocator, if_neg hne, length_chainOf, hloop, List.nil_append, List.map_map]
    exact congrArg some (List.map_congr_left fun k hk => by simp [hanc k hk])
  · -- the block itself first
    simp [hrest, hn]
  · -- the genesis block last
    rw [List.getLast?_map, getLast_locatorHeights (by omega) le_rfl]
    rfl
  · -- only ancestors
    simp only [List.mem_map]
    rintro q ⟨k, -, rfl⟩
    exact List.drop_suffix _ _
  · -- by strictly decreasing heights
    refine List.pairwise_map.mpr ((pairwise_locatorHeights le_rfl).imp_of_mem ?_)
    intro a b ha hb hab
    have := le_of_mem_locatorHeights ha
    refine ⟨List.drop_suffix_drop_left p (by omega), ?_⟩
    simp only [List.length_drop]
    omega
  · -- and few of them
    rw [List.length_map, hn, Nat.add_sub_cancel]
    exact length_locatorHeights_le _ n

theorem GetLocator_chain_block_at_tip :
    ∃ ps : List BlockPtr, GetLocator (chainOf threeBlocks) threeBlocks =
        some (ps.map BlockPtr.GetBlockHash) ∧
      ps.head? = some threeBlocks ∧ ps.getLast? = some [⟨10, 0, 1⟩] ∧
      (∀ q ∈ ps, q <:+ threeBlocks) ∧ ps.Pairwise (fun a b => b <:+ a ∧ b.length < a.length) ∧
      ps.length ≤ 12 + Nat.log 2 2 :=
  GetLocator_chain_block (by decide) List.suffix_rfl (by decide)

/-- **The locator of any other block.** After the block's own hash the locator lists blocks of the
active chain only, never the block's own ancestors; and a block two or more above the tip gets
its own hash alone. -/
theorem GetLocator_off_chain (ht : t.Linked) (e : ChainEntry) (rest : BlockPtr)
    (h1 : 1 ≤ e.nHeight) :
    ∃ ps : List BlockPtr,
      GetLocator (chainOf t) (e :: rest) = some (e.hash :: ps.map BlockPtr.GetBlockHash) ∧
      (∀ q ∈ ps, q <:+ t ∧ q ≠ []) ∧ (ps = [] ↔ (t.length : ℤ) < e.nHeight) := by
  obtain ⟨n, hn⟩ : ∃ n : ℕ, e.nHeight = n + 1 := ⟨(e.nHeight - 1).toNat, by omega⟩
  have hfirst : GetLocator (chainOf t) (e :: rest) =
      locatorLoop (chainOf t) t.length (get (chainOf t) n) 1 [e.hash] := by
    simp only [GetLocator, reduceCtorEq, if_false, length_chainOf, locatorLoop, hn]
    rw [if_neg (by omega), show max ((n : ℤ) + 1 - 1) 0 = n by omega]
    rfl
  rw [hfirst]
  by_cases hin : n < t.length
  · -- the walk goes on down the active chain
    have hloop := locatorLoop_chainOf ht t.length n 1 [e.hash] hin hin le_rfl
    rw [Nat.cast_one] at hloop
    rw [hloop]
    obtain ⟨hs, hhs⟩ := locatorHeights_eq_cons (s := 1) (m := [e.hash].length) hin
    refine ⟨(locatorHeights t.length n 1 [e.hash].length).map fun k : ℕ => get (chainOf t) k,
      by simp, ?_, ?_⟩
    · simp only [List.mem_map]
      rintro q ⟨k, hk, rfl⟩
      have hkn : k < t.length := by have := le_of_mem_locatorHeights hk; omega
      obtain ⟨e', rest', hget, -⟩ := get_chainOf_eq_cons ht hkn
      refine ⟨?_, by simp [hget]⟩
      rw [get_chainOf_of_lt hkn]
      exact List.drop_suffix _ _
    · rw [List.map_eq_nil_iff, hhs, hn]
      simp only [reduceCtorEq, false_iff, not_lt]
      omega
  · -- a block two or more above the tip: the chain has nothing at its parent's height
    rw [get_chainOf_of_le (by omega)]
    refine ⟨[], ?_, by simp, by simp; omega⟩
    cases t.length <;> rfl

/-- A block two above the tip of `threeBlocks`. -/
theorem GetLocator_off_chain_above_tip :
    ∃ ps : List BlockPtr, GetLocator (chainOf threeBlocks) [⟨40, 4, 9⟩] =
        some (40 :: ps.map BlockPtr.GetBlockHash) ∧
      (∀ q ∈ ps, q <:+ threeBlocks ∧ q ≠ []) ∧ (ps = [] ↔ (3 : ℤ) < 4) :=
  GetLocator_off_chain (t := threeBlocks) (by decide) ⟨40, 4, 9⟩ [] (by decide)

end Locator

end CChain

end LightningCash
