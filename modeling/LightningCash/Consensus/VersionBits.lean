import LightningCash.Consensus.TimeLocks

/-!
# BIP9 deployment states (versionbits.cpp)

`AbstractThresholdConditionChecker::GetStateFor` gives the state of a deployment for the block
after `pindexPrev`. The state only changes at period boundaries, the last blocks of the periods:
`GetStateFor` moves `pindexPrev` to the last block of the previous period, walks back one period
at a time until a boundary whose state is cached, the null pointer or a boundary whose median
time past is before the start time, and then replays the transitions forward, caching every
boundary it passes.

The checker's virtual methods are a structure whose period is positive. `Condition` stays
abstract: `VersionBitsConditionChecker` reads `nVersion`, a field the block entries of this
development do not carry (see MODEL_MAP.json), and nothing below depends on what the condition
is.

## Main results

* `stateAt` is the state machine from scratch: `DEFINED` at the null pointer and before the start
  time, otherwise one transition (`nextState`) from the previous boundary.
* `GetStateFor_fst`: from any cache whose entries agree with `stateAt`, `GetStateFor` answers the
  `stateAt` of the boundary and leaves such a cache; `cacheCorrect_cacheAfter` makes every cache
  left by earlier calls one of these.
* On a chain from the genesis block whose blocks passed the time-too-old rule, the state is one per
  period, and consecutive boundaries only make the moves of `CanMoveTo`. From `STARTED`, the lock-in
  needs the median time past still before the timeout as well as enough signalling blocks.
* `GetStateSinceHeightFor_spec`: on such a chain the height `GetStateSinceHeightFor` answers is
  the first block of the earliest period of the run of periods in the current state.
* `GetStateStatisticsFor_spec`: the statistics count the signalling blocks of the period in
  progress, and "not possible" means that no way of completing the period locks in; on a chain
  shorter than one period the source reads the null pointer.
-/

namespace LightningCash

inductive ThresholdState
  | THRESHOLD_DEFINED
  | THRESHOLD_STARTED
  | THRESHOLD_LOCKED_IN
  | THRESHOLD_ACTIVE
  | THRESHOLD_FAILED
  deriving DecidableEq, Repr

open ThresholdState

/-- The moves BIP9 allows from one period to the next. -/
def ThresholdState.CanMoveTo : ThresholdState → ThresholdState → Prop
  | THRESHOLD_DEFINED, s => s = THRESHOLD_DEFINED ∨ s = THRESHOLD_STARTED ∨ s = THRESHOLD_FAILED
  | THRESHOLD_STARTED, s => s = THRESHOLD_STARTED ∨ s = THRESHOLD_LOCKED_IN ∨ s = THRESHOLD_FAILED
  | THRESHOLD_LOCKED_IN, s => s = THRESHOLD_ACTIVE
  | THRESHOLD_ACTIVE, s => s = THRESHOLD_ACTIVE
  | THRESHOLD_FAILED, s => s = THRESHOLD_FAILED

/-- No BIP9 move leads back to `DEFINED`. -/
theorem ThresholdState.eq_DEFINED_of_canMoveTo {state : ThresholdState}
    (h : state.CanMoveTo THRESHOLD_DEFINED) : state = THRESHOLD_DEFINED := by
  cases state <;> simp_all [ThresholdState.CanMoveTo]

/-- `Consensus::BIP9Deployment::ALWAYS_ACTIVE`. -/
def ALWAYS_ACTIVE : ℤ := -1

/-- The virtual methods of `AbstractThresholdConditionChecker` for one deployment under its
consensus parameters. -/
structure ThresholdConditionChecker where
  Condition : List CBlockIndex → Bool
  BeginTime : ℤ
  EndTime : ℤ
  Period : ℤ
  Threshold : ℤ
  Period_pos : 0 < Period

/-- `ThresholdConditionCache`, a map from block pointers to states. -/
abbrev ThresholdConditionCache := List CBlockIndex → Option ThresholdState

/-- `BIP9Stats`, what `getblockchaininfo` shows of a deployment in `STARTED`. -/
structure BIP9Stats where
  period : ℤ
  threshold : ℤ
  elapsed : ℤ
  count : ℤ
  possible : Bool
  deriving DecidableEq

/-- Each entry's height is the number of its ancestors: the chain runs down to a genesis block
at height zero. -/
def HeightsFromGenesis : List CBlockIndex → Prop
  | [] => True
  | b :: pprev => b.nHeight = pprev.length ∧ HeightsFromGenesis pprev

instance decHeightsFromGenesis : (l : List CBlockIndex) → Decidable (HeightsFromGenesis l)
  | [] => isTrue trivial
  | b :: pprev =>
    have := decHeightsFromGenesis pprev
    inferInstanceAs (Decidable (b.nHeight = pprev.length ∧ HeightsFromGenesis pprev))

theorem HeightsFromGenesis.drop :
    ∀ {pindex : List CBlockIndex} (j : ℕ), HeightsFromGenesis pindex →
      HeightsFromGenesis (pindex.drop j)
  | [], _, _ => by simp [HeightsFromGenesis]
  | _ :: _, 0, h => h
  | _ :: _, j + 1, h => HeightsFromGenesis.drop j h.2

namespace ThresholdConditionChecker

variable (checker : ThresholdConditionChecker)

def emptyCache : ThresholdConditionCache := fun _ ↦ none

/-- The counting loop of the `THRESHOLD_STARTED` case: how many of the `n` blocks from
`pindexCount` back satisfy the condition. The boundaries it runs on have a full period behind
them, so the loop never reaches the null pointer. -/
def countCondition : ℕ → List CBlockIndex → ℕ
  | 0, _ => 0
  | n + 1, pindexCount =>
    (if checker.Condition pindexCount then 1 else 0) + countCondition n pindexCount.tail

/-- The `switch` of the second loop of `GetStateFor`: the state at the boundary `pindexPrev`
from the state at the previous boundary. -/
def nextState (state : ThresholdState) (pindexPrev : List CBlockIndex) : ThresholdState :=
  match state with
  | THRESHOLD_DEFINED =>
    if GetMedianTimePast pindexPrev ≥ checker.EndTime then THRESHOLD_FAILED
    else if GetMedianTimePast pindexPrev ≥ checker.BeginTime then THRESHOLD_STARTED
    else THRESHOLD_DEFINED
  | THRESHOLD_STARTED =>
    if GetMedianTimePast pindexPrev ≥ checker.EndTime then THRESHOLD_FAILED
    else if (checker.countCondition checker.Period.toNat pindexPrev : ℤ) ≥ checker.Threshold then
      THRESHOLD_LOCKED_IN
    else THRESHOLD_STARTED
  | THRESHOLD_LOCKED_IN => THRESHOLD_ACTIVE
  | THRESHOLD_FAILED => THRESHOLD_FAILED
  | THRESHOLD_ACTIVE => THRESHOLD_ACTIVE

/-- The last block of the previous period, where `GetStateFor` moves `pindexPrev` first. -/
def periodEnd (pindexPrev : List CBlockIndex) : List CBlockIndex :=
  match pindexPrev with
  | [] => []
  | b :: _ => GetAncestor pindexPrev (b.nHeight - (b.nHeight + 1) % checker.Period)

/-- One step of the walk back: `GetAncestor(pindexPrev->nHeight - nPeriod)`. -/
def prevPeriodEnd (pindexPrev : List CBlockIndex) : List CBlockIndex :=
  match pindexPrev with
  | [] => []
  | b :: _ => GetAncestor pindexPrev (b.nHeight - checker.Period)

/-- The first loop of `GetStateFor`: the boundaries still to compute, latest first, the
boundary the walk stopped at, and the cache. The walk is one step shorter than the pointer at
every period, so the fuel `GetStateFor` gives it is never used up (`walkBack_spec`). -/
def walkBack : ℕ → List CBlockIndex → ThresholdConditionCache →
    List (List CBlockIndex) × List CBlockIndex × ThresholdConditionCache
  | 0, pindexPrev, cache => ([], pindexPrev, cache)
  | fuel + 1, pindexPrev, cache =>
    if (cache pindexPrev).isSome then ([], pindexPrev, cache)
    else
      match pindexPrev with
      | [] => ([], [], Function.update cache [] (some THRESHOLD_DEFINED))
      | b :: pprev =>
        if GetMedianTimePast (b :: pprev) < checker.BeginTime then
          ([], b :: pprev, Function.update cache (b :: pprev) (some THRESHOLD_DEFINED))
        else
          let (vToCompute, pindexPrev, cache) :=
            walkBack fuel (checker.prevPeriodEnd (b :: pprev)) cache
          ((b :: pprev) :: vToCompute, pindexPrev, cache)

/-- The second loop of `GetStateFor`: the boundaries, earliest first, each given the next
state and cached. -/
def computeForward : List (List CBlockIndex) → ThresholdState → ThresholdConditionCache →
    ThresholdState × ThresholdConditionCache
  | [], state, cache => (state, cache)
  | pindexPrev :: rest, state, cache =>
    let state := checker.nextState state pindexPrev
    computeForward rest state (Function.update cache pindexPrev (some state))

/-- `GetStateFor`: the state and the cache it leaves. After the walk the boundary it stopped at
is cached (the `assert`), so the default of `getD` is never read. -/
def GetStateFor (pindexPrev : List CBlockIndex) (cache : ThresholdConditionCache) :
    ThresholdState × ThresholdConditionCache :=
  if checker.BeginTime = ALWAYS_ACTIVE then (THRESHOLD_ACTIVE, cache)
  else
    let pindexPrev := checker.periodEnd pindexPrev
    let (vToCompute, pindexPrev, cache) :=
      checker.walkBack (pindexPrev.length + 1) pindexPrev cache
    let state := (cache pindexPrev).getD THRESHOLD_DEFINED
    checker.computeForward vToCompute.reverse state cache

/-- The cache left by a list of earlier calls, from the empty cache. -/
def cacheAfter (calls : List (List CBlockIndex)) : ThresholdConditionCache :=
  calls.foldl (fun cache pindexPrev ↦ (checker.GetStateFor pindexPrev cache).2) emptyCache

/-! ## The state machine from scratch -/

/-- The walk back shortens the pointer by a whole period. -/
theorem length_prevPeriodEnd_lt (b : CBlockIndex) (pprev : List CBlockIndex) :
    (checker.prevPeriodEnd (b :: pprev)).length < (b :: pprev).length := by
  have hP := checker.Period_pos
  simp only [prevPeriodEnd, GetAncestor]
  split_ifs
  · simp
  · rw [List.length_drop]
    simp only [List.length_cons]
    omega

/-- The loop of `GetStateSinceHeightFor`: a period back at a time, as long as the boundary a
period down is not the null pointer and has the state the walk started with. -/
def sinceLoop (initialState : ThresholdState) (pindexPrev : List CBlockIndex)
    (cache : ThresholdConditionCache) : List CBlockIndex × ThresholdConditionCache :=
  if hnull : checker.prevPeriodEnd pindexPrev = [] then (pindexPrev, cache)
  else
    match checker.GetStateFor (checker.prevPeriodEnd pindexPrev) cache with
    | (state, cache) =>
      if state = initialState then sinceLoop initialState (checker.prevPeriodEnd pindexPrev) cache
      else (pindexPrev, cache)
termination_by pindexPrev.length
decreasing_by
  cases pindexPrev with
  | nil => exact absurd rfl hnull
  | cons b pprev => exact checker.length_prevPeriodEnd_lt b pprev

/-- `GetStateSinceHeightFor`: the height from which the state for the block after `pindexPrev`
has held, and the cache left. -/
def GetStateSinceHeightFor (pindexPrev : List CBlockIndex) (cache : ThresholdConditionCache) :
    Except String (ℤ × ThresholdConditionCache) :=
  if checker.BeginTime = ALWAYS_ACTIVE then .ok (0, cache)
  else
    match checker.GetStateFor pindexPrev cache with
    | (initialState, cache) =>
      if initialState = THRESHOLD_DEFINED then .ok (0, cache)
      else
        match checker.sinceLoop initialState (checker.periodEnd pindexPrev) cache with
        | (b :: _, cache) => .ok (b.nHeight + 1, cache)
        | ([], _) => .error "null pointer dereference"

/-- The counting loop of `GetStateStatisticsFor`: down from `currentIndex` until the height of
the last block of the previous period, counting the blocks that satisfy the condition. -/
def countSince (endHeight : ℤ) : List CBlockIndex → ℤ → Except String ℤ
  | [], _ => .error "null pointer dereference"
  | b :: pprev, count =>
    if endHeight ≠ b.nHeight then
      countSince endHeight pprev (if checker.Condition (b :: pprev) then count + 1 else count)
    else .ok count

/-- `GetStateStatisticsFor`: how far the period of the block after `pindex` has got, how many of
its blocks so far satisfy the condition, and whether it can still reach the threshold. -/
def GetStateStatisticsFor (pindex : List CBlockIndex) : Except String BIP9Stats :=
  let stats : BIP9Stats := ⟨checker.Period, checker.Threshold, 0, 0, false⟩
  match pindex with
  | [] => .ok stats
  | b :: _ =>
    match GetAncestor pindex (b.nHeight - (b.nHeight + 1) % stats.period) with
    | [] => .error "null pointer dereference"
    | pindexEndOfPrevPeriod :: _ => do
      let elapsed := b.nHeight - pindexEndOfPrevPeriod.nHeight
      let count ← checker.countSince pindexEndOfPrevPeriod.nHeight pindex 0
      pure { stats with
             elapsed := elapsed, count := count,
             possible := decide (stats.period - stats.threshold ≥ elapsed - count) }

/-- The state at a boundary from scratch: `DEFINED` at the null pointer and before the start
time, otherwise one transition from the previous boundary. -/
def stateAt : List CBlockIndex → ThresholdState
  | [] => THRESHOLD_DEFINED
  | b :: pprev =>
    if GetMedianTimePast (b :: pprev) < checker.BeginTime then THRESHOLD_DEFINED
    else checker.nextState (stateAt (checker.prevPeriodEnd (b :: pprev))) (b :: pprev)
termination_by pindexPrev => pindexPrev.length
decreasing_by exact checker.length_prevPeriodEnd_lt b pprev

/-- What `GetStateFor` answers, from scratch. -/
def stateFor (pindexPrev : List CBlockIndex) : ThresholdState :=
  if checker.BeginTime = ALWAYS_ACTIVE then THRESHOLD_ACTIVE
  else checker.stateAt (checker.periodEnd pindexPrev)

@[simp] theorem stateAt_nil : checker.stateAt [] = THRESHOLD_DEFINED := by
  rw [stateAt]

theorem stateAt_of_lt {pindexPrev : List CBlockIndex}
    (hmtp : GetMedianTimePast pindexPrev < checker.BeginTime) :
    checker.stateAt pindexPrev = THRESHOLD_DEFINED := by
  cases pindexPrev with
  | nil => exact checker.stateAt_nil
  | cons b pprev => rw [stateAt, if_pos hmtp]

theorem stateAt_of_not_lt {pindexPrev : List CBlockIndex} (hne : pindexPrev ≠ [])
    (hmtp : ¬GetMedianTimePast pindexPrev < checker.BeginTime) :
    checker.stateAt pindexPrev =
      checker.nextState (checker.stateAt (checker.prevPeriodEnd pindexPrev)) pindexPrev := by
  obtain ⟨b, pprev, rfl⟩ := List.exists_cons_of_ne_nil hne
  rw [stateAt, if_neg hmtp]

/-- A boundary that has left `DEFINED` is past the start time. -/
theorem BeginTime_le_of_stateAt_ne {pindexPrev : List CBlockIndex}
    (h : checker.stateAt pindexPrev ≠ THRESHOLD_DEFINED) :
    pindexPrev ≠ [] ∧ checker.BeginTime ≤ GetMedianTimePast pindexPrev := by
  refine ⟨fun hnil ↦ h (hnil ▸ checker.stateAt_nil), ?_⟩
  by_contra hlt
  exact h (checker.stateAt_of_lt (lt_of_not_ge hlt))

/-! ## The cache -/

/-- Every cached state is the state from scratch. -/
def CacheCorrect (cache : ThresholdConditionCache) : Prop :=
  ∀ pindexPrev state, cache pindexPrev = some state → state = checker.stateAt pindexPrev

theorem cacheCorrect_emptyCache : checker.CacheCorrect emptyCache := by
  intro _ _ h
  cases h

theorem CacheCorrect.update {checker : ThresholdConditionChecker}
    {cache : ThresholdConditionCache} (h : checker.CacheCorrect cache)
    (pindexPrev : List CBlockIndex) :
    checker.CacheCorrect
      (Function.update cache pindexPrev (some (checker.stateAt pindexPrev))) := by
  intro q state hq
  by_cases hqp : q = pindexPrev
  · subst hqp
    simp only [Function.update_self, Option.some.injEq] at hq
    exact hq.symm
  · rw [Function.update_of_ne hqp] at hq
    exact h q state hq

/-- Boundaries replayed from `q` on, earliest first: each is one period above the one before and
past the start time. -/
def Ascends : List CBlockIndex → List (List CBlockIndex) → Prop
  | _, [] => True
  | q, pindexPrev :: rest =>
    pindexPrev ≠ [] ∧ ¬GetMedianTimePast pindexPrev < checker.BeginTime ∧
      checker.prevPeriodEnd pindexPrev = q ∧ Ascends pindexPrev rest

theorem ascends_append_singleton :
    ∀ (q : List CBlockIndex) (l : List (List CBlockIndex)) {pindexPrev : List CBlockIndex},
      checker.Ascends q l → pindexPrev ≠ [] →
      ¬GetMedianTimePast pindexPrev < checker.BeginTime →
      checker.prevPeriodEnd pindexPrev = l.getLastD q → checker.Ascends q (l ++ [pindexPrev])
  | _, [], _, _, hne, hmtp, hprev => ⟨hne, hmtp, hprev, trivial⟩
  | _, x :: rest, _, ⟨hx, hxmtp, hxprev, hrest⟩, hne, hmtp, hprev =>
    ⟨hx, hxmtp, hxprev,
      ascends_append_singleton x rest hrest hne hmtp (by rwa [List.getLastD_cons] at hprev)⟩

/-- The replay: from the state of `q`, every boundary gets its state from scratch, in the answer
and in the cache. -/
theorem computeForward_spec :
    ∀ (q : List CBlockIndex) (l : List (List CBlockIndex)) (cache : ThresholdConditionCache),
      checker.Ascends q l → checker.CacheCorrect cache →
      (checker.computeForward l (checker.stateAt q) cache).1 = checker.stateAt (l.getLastD q) ∧
        checker.CacheCorrect (checker.computeForward l (checker.stateAt q) cache).2
  | _, [], _, _, hcache => ⟨rfl, hcache⟩
  | q, x :: rest, cache, ⟨hne, hmtp, hprev, hrest⟩, hcache => by
    have hx : checker.nextState (checker.stateAt q) x = checker.stateAt x := by
      rw [checker.stateAt_of_not_lt hne hmtp, hprev]
    rw [computeForward, hx, List.getLastD_cons]
    exact computeForward_spec x rest _ hrest (hcache.update x)

/-- The walk back ends at a boundary whose state is cached, with the boundaries it passed
ascending from there to where it started. -/
theorem walkBack_spec :
    ∀ {fuel : ℕ} {pindexPrev : List CBlockIndex} {cache : ThresholdConditionCache}
      {vToCompute : List (List CBlockIndex)} {pindexStop : List CBlockIndex}
      {cache' : ThresholdConditionCache},
      pindexPrev.length < fuel → checker.CacheCorrect cache →
      checker.walkBack fuel pindexPrev cache = (vToCompute, pindexStop, cache') →
      checker.CacheCorrect cache' ∧ cache' pindexStop = some (checker.stateAt pindexStop) ∧
        checker.Ascends pindexStop vToCompute.reverse ∧
        vToCompute.reverse.getLastD pindexStop = pindexPrev
  | 0, _, _, _, _, _, hfuel, _, _ => absurd hfuel (Nat.not_lt_zero _)
  | fuel + 1, pindexPrev, cache, vToCompute, pindexStop, cache', hfuel, hcache, h => by
    unfold walkBack at h
    split_ifs at h with hcached
    · -- the cached boundary: the walk stops at once
      simp only [Prod.mk.injEq] at h
      obtain ⟨rfl, rfl, rfl⟩ := h
      obtain ⟨state, hstate⟩ := Option.isSome_iff_exists.mp hcached
      exact ⟨hcache, by rw [hstate, hcache _ _ hstate], trivial, rfl⟩
    · cases pindexPrev with
      | nil =>
        -- the null pointer is `DEFINED`
        simp only [Prod.mk.injEq] at h
        obtain ⟨rfl, rfl, rfl⟩ := h
        refine ⟨?_, ?_, trivial, rfl⟩
        · simpa using hcache.update []
        · simp
      | cons b pprev =>
        dsimp only at h
        split_ifs at h with hmtp
        · -- before the start time: `DEFINED`
          simp only [Prod.mk.injEq] at h
          obtain ⟨rfl, rfl, rfl⟩ := h
          have hdef := checker.stateAt_of_lt hmtp
          refine ⟨?_, ?_, trivial, rfl⟩
          · simpa [hdef] using hcache.update (b :: pprev)
          · simp [hdef]
        · -- one period back; this boundary is replayed last
          rcases hrec : checker.walkBack fuel (checker.prevPeriodEnd (b :: pprev)) cache
            with ⟨v, q, c⟩
          rw [hrec] at h
          simp only [Prod.mk.injEq] at h
          obtain ⟨rfl, rfl, rfl⟩ := h
          have hfuel' : (checker.prevPeriodEnd (b :: pprev)).length < fuel := by
            have := checker.length_prevPeriodEnd_lt b pprev
            omega
          obtain ⟨hc, hq, hasc, hlast⟩ := walkBack_spec hfuel' hcache hrec
          rw [List.reverse_cons]
          exact ⟨hc, hq, checker.ascends_append_singleton _ _ hasc (List.cons_ne_nil _ _) hmtp
            hlast.symm, List.getLastD_concat⟩

/-- From a correct cache `GetStateFor` answers the state from scratch and leaves a correct
cache. -/
theorem GetStateFor_spec {cache : ThresholdConditionCache} (hcache : checker.CacheCorrect cache)
    (pindexPrev : List CBlockIndex) :
    (checker.GetStateFor pindexPrev cache).1 = checker.stateFor pindexPrev ∧
      checker.CacheCorrect (checker.GetStateFor pindexPrev cache).2 := by
  unfold GetStateFor stateFor
  split_ifs
  · exact ⟨rfl, hcache⟩
  · rcases hwalk : checker.walkBack ((checker.periodEnd pindexPrev).length + 1)
      (checker.periodEnd pindexPrev) cache with ⟨v, q, c⟩
    obtain ⟨hc, hq, hasc, hlast⟩ := checker.walkBack_spec (Nat.lt_succ_self _) hcache hwalk
    dsimp only
    rw [hwalk]
    dsimp only
    rw [hq, Option.getD_some, ← hlast]
    exact checker.computeForward_spec q v.reverse c hasc hc

theorem GetStateFor_fst {cache : ThresholdConditionCache} (hcache : checker.CacheCorrect cache)
    (pindexPrev : List CBlockIndex) :
    (checker.GetStateFor pindexPrev cache).1 = checker.stateFor pindexPrev :=
  (checker.GetStateFor_spec hcache pindexPrev).1

/-- Every cache left by earlier calls is correct: induction on the calls, from any correct
cache. -/
theorem cacheCorrect_foldl (calls : List (List CBlockIndex)) :
    ∀ {cache : ThresholdConditionCache}, checker.CacheCorrect cache →
      checker.CacheCorrect
        (calls.foldl (fun cache pindexPrev ↦ (checker.GetStateFor pindexPrev cache).2) cache) := by
  induction calls with
  | nil => exact id
  | cons pindexPrev calls ih =>
    intro cache hcache
    exact ih (checker.GetStateFor_spec hcache pindexPrev).2

theorem cacheCorrect_cacheAfter (calls : List (List CBlockIndex)) :
    checker.CacheCorrect (checker.cacheAfter calls) :=
  checker.cacheCorrect_foldl calls checker.cacheCorrect_emptyCache
/-! ## Moves between periods -/

/-- Every transition of the `switch` is a BIP9 move. -/
theorem canMoveTo_nextState (state : ThresholdState) (pindexPrev : List CBlockIndex) :
    state.CanMoveTo (checker.nextState state pindexPrev) := by
  cases state with
  | THRESHOLD_DEFINED =>
    unfold nextState
    split_ifs <;> simp [ThresholdState.CanMoveTo]
  | THRESHOLD_STARTED =>
    unfold nextState
    split_ifs <;> simp [ThresholdState.CanMoveTo]
  | THRESHOLD_LOCKED_IN | THRESHOLD_ACTIVE | THRESHOLD_FAILED => exact rfl

/-- From one boundary to the next the state makes a BIP9 move, as long as the median time past
does not go back between them: before the start time both are `DEFINED`. -/
theorem canMoveTo_stateAt {pindexPrev : List CBlockIndex}
    (hmono : checker.prevPeriodEnd pindexPrev ≠ [] →
      GetMedianTimePast (checker.prevPeriodEnd pindexPrev) ≤ GetMedianTimePast pindexPrev) :
    (checker.stateAt (checker.prevPeriodEnd pindexPrev)).CanMoveTo
      (checker.stateAt pindexPrev) := by
  by_cases hmtp : GetMedianTimePast pindexPrev < checker.BeginTime
  · -- the earlier boundary cannot have left `DEFINED` either
    have hprev : checker.stateAt (checker.prevPeriodEnd pindexPrev) = THRESHOLD_DEFINED := by
      by_contra hne
      obtain ⟨hnil, hle⟩ := checker.BeginTime_le_of_stateAt_ne hne
      have := hmono hnil
      omega
    rw [hprev, checker.stateAt_of_lt hmtp]
    exact .inl rfl
  · cases pindexPrev with
    | nil =>
      simp only [prevPeriodEnd, stateAt_nil]
      exact .inl rfl
    | cons b pprev =>
      rw [checker.stateAt_of_not_lt (List.cons_ne_nil b pprev) hmtp]
      exact checker.canMoveTo_nextState _ _

/-- From `STARTED`, the next boundary locks in exactly when its median time past is still before
the timeout and enough blocks of its period satisfy the condition: the timeout is checked first. -/
theorem stateAt_eq_LOCKED_IN_iff {pindexPrev : List CBlockIndex}
    (hmono : checker.prevPeriodEnd pindexPrev ≠ [] →
      GetMedianTimePast (checker.prevPeriodEnd pindexPrev) ≤ GetMedianTimePast pindexPrev)
    (hstarted : checker.stateAt (checker.prevPeriodEnd pindexPrev) = THRESHOLD_STARTED) :
    checker.stateAt pindexPrev = THRESHOLD_LOCKED_IN ↔
      GetMedianTimePast pindexPrev < checker.EndTime ∧
        checker.Threshold ≤ checker.countCondition checker.Period.toNat pindexPrev := by
  obtain ⟨hnil, hle⟩ := checker.BeginTime_le_of_stateAt_ne (by rw [hstarted]; decide)
  have hmtp : ¬GetMedianTimePast pindexPrev < checker.BeginTime := by
    have := hmono hnil
    omega
  have hne : pindexPrev ≠ [] := by
    rintro rfl
    exact hnil rfl
  rw [checker.stateAt_of_not_lt hne hmtp, hstarted]
  dsimp only [nextState]
  split_ifs with htimeout hcount
  · simp only [false_iff, not_and]
    intro hlt
    exact absurd htimeout (not_le.mpr hlt)
  · simp only [true_iff]
    exact ⟨lt_of_not_ge htimeout, hcount⟩
  · simp only [false_iff, not_and]
    intro _ hle
    exact hcount hle

/-! ## Along a chain from the genesis block -/

/-- On a chain from the genesis block the previous boundary is a whole period down. -/
theorem prevPeriodEnd_eq_drop {pindexPrev : List CBlockIndex}
    (h : HeightsFromGenesis pindexPrev) :
    checker.prevPeriodEnd pindexPrev = pindexPrev.drop checker.Period.toNat := by
  cases pindexPrev with
  | nil => simp [prevPeriodEnd]
  | cons b pprev =>
    have hP := checker.Period_pos
    have hb : b.nHeight = pprev.length := h.1
    simp only [prevPeriodEnd, GetAncestor]
    split_ifs with hrange
    · -- less than a period of blocks: the null pointer
      rw [eq_comm, List.drop_eq_nil_iff, List.length_cons]
      omega
    · congr 1
      omega

/-- On a chain from the genesis block, the first move of `GetStateFor` drops the blocks of the
unfinished period. -/
theorem periodEnd_eq_drop {pindexPrev : List CBlockIndex} (h : HeightsFromGenesis pindexPrev) :
    checker.periodEnd pindexPrev =
      pindexPrev.drop (pindexPrev.length % checker.Period.toNat) := by
  cases pindexPrev with
  | nil => simp [periodEnd]
  | cons b pprev =>
    have hP := checker.Period_pos
    have hb : b.nHeight = pprev.length := h.1
    -- the remainder in `ℤ` is the remainder of the length in `ℕ`
    have hmod : (b.nHeight + 1) % checker.Period =
        (((pprev.length + 1) % checker.Period.toNat : ℕ) : ℤ) := by
      rw [hb, Int.natCast_mod, Int.toNat_of_nonneg hP.le, Nat.cast_add, Nat.cast_one]
    have hlt := Nat.mod_lt (pprev.length + 1) (show 0 < checker.Period.toNat by omega)
    have hle := Nat.mod_le (pprev.length + 1) checker.Period.toNat
    simp only [periodEnd, GetAncestor, hmod, List.length_cons]
    generalize (pprev.length + 1) % checker.Period.toNat = r at *
    split_ifs with hrange
    · -- before the first full period: the null pointer
      rw [eq_comm, List.drop_eq_nil_iff, List.length_cons]
      omega
    · congr 1
      omega

/-- The boundary for a pointer `j` blocks down a chain from the genesis block: it depends only on
the period of that pointer's child. -/
theorem periodEnd_drop {pindex : List CBlockIndex} (h : HeightsFromGenesis pindex) (j : ℕ) :
    checker.periodEnd (pindex.drop j) =
      pindex.drop (pindex.length -
        checker.Period.toNat * ((pindex.length - j) / checker.Period.toNat)) := by
  rw [checker.periodEnd_eq_drop (h.drop j), List.drop_drop, List.length_drop]
  by_cases hj : j ≤ pindex.length
  · congr 1
    have := Nat.div_add_mod (pindex.length - j) checker.Period.toNat
    omega
  · -- past the genesis block: the null pointer on both sides
    have hzero : pindex.length - j = 0 := by omega
    rw [hzero, Nat.zero_mod, Nat.zero_div, Nat.mul_zero, Nat.sub_zero, List.drop_length,
      List.drop_eq_nil_of_le (by omega)]

/-- A pointer a period down has the previous boundary. -/
theorem periodEnd_drop_Period {pindexPrev : List CBlockIndex}
    (h : HeightsFromGenesis pindexPrev) :
    checker.periodEnd (pindexPrev.drop checker.Period.toNat) =
      checker.prevPeriodEnd (checker.periodEnd pindexPrev) := by
  have hP := checker.Period_pos
  have hend : HeightsFromGenesis (checker.periodEnd pindexPrev) := by
    rw [checker.periodEnd_eq_drop h]
    exact h.drop _
  rw [checker.prevPeriodEnd_eq_drop hend, checker.periodEnd_eq_drop h,
    checker.periodEnd_eq_drop (h.drop _), List.drop_drop, List.drop_drop, List.length_drop]
  by_cases hn : checker.Period.toNat ≤ pindexPrev.length
  · -- a period down the remainder is the same
    rw [Nat.mod_eq_sub_mod hn, Nat.add_comm]
  · -- less than a period of blocks: the null pointer on both sides
    rw [List.drop_eq_nil_of_le (by omega), List.drop_eq_nil_of_le (by omega)]

/-- At a boundary of a chain whose blocks passed the time-too-old rule, the median time past of
the previous boundary is no later. -/
theorem GetMedianTimePast_prevPeriodEnd_le {pindexPrev : List CBlockIndex}
    (h : HeightsFromGenesis pindexPrev) (ht : TimesAfterMedian pindexPrev)
    (hne : checker.prevPeriodEnd pindexPrev ≠ []) :
    GetMedianTimePast (checker.prevPeriodEnd pindexPrev) ≤ GetMedianTimePast pindexPrev := by
  rw [checker.prevPeriodEnd_eq_drop h] at hne ⊢
  exact GetMedianTimePast_drop_le ht hne

/-- The boundary `GetStateFor` moves to is again on a chain from the genesis block that passed
the time-too-old rule. -/
theorem periodEnd_valid {pindexPrev : List CBlockIndex} (h : HeightsFromGenesis pindexPrev)
    (ht : TimesAfterMedian pindexPrev) :
    HeightsFromGenesis (checker.periodEnd pindexPrev) ∧
      TimesAfterMedian (checker.periodEnd pindexPrev) := by
  rw [checker.periodEnd_eq_drop h]
  exact ⟨h.drop _, AlongChain.drop _ ht⟩

/-- Two pointers whose children are in the same period get the same state. -/
theorem stateFor_drop_eq {pindex : List CBlockIndex} (h : HeightsFromGenesis pindex) {j j' : ℕ}
    (hjj' : (pindex.length - j) / checker.Period.toNat =
      (pindex.length - j') / checker.Period.toNat) :
    checker.stateFor (pindex.drop j) = checker.stateFor (pindex.drop j') := by
  unfold stateFor
  rw [checker.periodEnd_drop h, checker.periodEnd_drop h, hjj']

/-- The state for a pointer and for the pointer a period down are a BIP9 move apart. -/
theorem canMoveTo_stateFor {pindexPrev : List CBlockIndex} (h : HeightsFromGenesis pindexPrev)
    (ht : TimesAfterMedian pindexPrev) :
    (checker.stateFor (pindexPrev.drop checker.Period.toNat)).CanMoveTo
      (checker.stateFor pindexPrev) := by
  obtain ⟨hend, htend⟩ := checker.periodEnd_valid h ht
  unfold stateFor
  split_ifs
  · exact rfl
  · rw [checker.periodEnd_drop_Period h]
    exact checker.canMoveTo_stateAt (checker.GetMedianTimePast_prevPeriodEnd_le hend htend)

/-- From `STARTED` a period down, the state locks in exactly when the boundary's median time past
is before the timeout and enough blocks of its period satisfy the condition. -/
theorem stateFor_eq_LOCKED_IN_iff {pindexPrev : List CBlockIndex}
    (h : HeightsFromGenesis pindexPrev) (ht : TimesAfterMedian pindexPrev)
    (hstarted : checker.stateFor (pindexPrev.drop checker.Period.toNat) = THRESHOLD_STARTED) :
    checker.stateFor pindexPrev = THRESHOLD_LOCKED_IN ↔
      GetMedianTimePast (checker.periodEnd pindexPrev) < checker.EndTime ∧
        checker.Threshold ≤
          checker.countCondition checker.Period.toNat (checker.periodEnd pindexPrev) := by
  obtain ⟨hend, htend⟩ := checker.periodEnd_valid h ht
  unfold stateFor at hstarted ⊢
  by_cases halways : checker.BeginTime = ALWAYS_ACTIVE
  · rw [if_pos halways] at hstarted
    cases hstarted
  · rw [if_neg halways, checker.periodEnd_drop_Period h] at hstarted
    rw [if_neg halways]
    exact checker.stateAt_eq_LOCKED_IN_iff
      (checker.GetMedianTimePast_prevPeriodEnd_le hend htend) hstarted

/-- BIP9 along every chain from the genesis block whose blocks passed the time-too-old rule, from
every cache left by earlier calls: the answer is the one from the empty cache; pointers whose
children are in one period get one state; the states a period apart are a BIP9 move; and from
`STARTED` the deployment locks in exactly when the boundary's median time past is still before
the timeout and enough blocks of the period satisfy the condition. -/
theorem GetStateFor_follows_BIP9 (calls : List (List CBlockIndex)) :
    (∀ pindexPrev, (checker.GetStateFor pindexPrev (checker.cacheAfter calls)).1 =
        (checker.GetStateFor pindexPrev emptyCache).1) ∧
      ∀ pindex, HeightsFromGenesis pindex → TimesAfterMedian pindex →
        (∀ j j', (pindex.length - j) / checker.Period.toNat =
            (pindex.length - j') / checker.Period.toNat →
          (checker.GetStateFor (pindex.drop j) (checker.cacheAfter calls)).1 =
            (checker.GetStateFor (pindex.drop j') (checker.cacheAfter calls)).1) ∧
        (checker.GetStateFor (pindex.drop checker.Period.toNat)
            (checker.cacheAfter calls)).1.CanMoveTo
          (checker.GetStateFor pindex (checker.cacheAfter calls)).1 ∧
        ((checker.GetStateFor (pindex.drop checker.Period.toNat) (checker.cacheAfter calls)).1 =
            THRESHOLD_STARTED →
          ((checker.GetStateFor pindex (checker.cacheAfter calls)).1 = THRESHOLD_LOCKED_IN ↔
            GetMedianTimePast (checker.periodEnd pindex) < checker.EndTime ∧
              checker.Threshold ≤
                checker.countCondition checker.Period.toNat (checker.periodEnd pindex))) := by
  have hcache := checker.cacheCorrect_cacheAfter calls
  refine ⟨fun pindexPrev ↦ ?_, fun pindex h ht ↦ ?_⟩
  · rw [checker.GetStateFor_fst hcache, checker.GetStateFor_fst checker.cacheCorrect_emptyCache]
  · simp only [checker.GetStateFor_fst hcache]
    exact ⟨fun j j' hjj' ↦ checker.stateFor_drop_eq h hjj', checker.canMoveTo_stateFor h ht,
      checker.stateFor_eq_LOCKED_IN_iff h ht⟩

/-- Four blocks, a period of two and a timeout at 1000: the period ending at height 3 fails,
a move BIP9 allows from `STARTED`. -/
theorem GetStateFor_follows_BIP9_on_four_blocks :
    HeightsFromGenesis [⟨3, 1600, 0, 0⟩, ⟨2, 1500, 0, 0⟩, ⟨1, 200, 0, 0⟩, ⟨0, 100, 0, 0⟩] ∧
      TimesAfterMedian [⟨3, 1600, 0, 0⟩, ⟨2, 1500, 0, 0⟩, ⟨1, 200, 0, 0⟩, ⟨0, 100, 0, 0⟩] ∧
      ((⟨fun _ ↦ true, 0, 1000, 2, 2, by decide⟩ : ThresholdConditionChecker).GetStateFor
          ([⟨3, 1600, 0, 0⟩, ⟨2, 1500, 0, 0⟩, ⟨1, 200, 0, 0⟩, ⟨0, 100, 0, 0⟩].drop 2)
          (ThresholdConditionChecker.cacheAfter ⟨fun _ ↦ true, 0, 1000, 2, 2, by decide⟩
            [])).1.CanMoveTo
        ((⟨fun _ ↦ true, 0, 1000, 2, 2, by decide⟩ : ThresholdConditionChecker).GetStateFor
          [⟨3, 1600, 0, 0⟩, ⟨2, 1500, 0, 0⟩, ⟨1, 200, 0, 0⟩, ⟨0, 100, 0, 0⟩]
          (ThresholdConditionChecker.cacheAfter ⟨fun _ ↦ true, 0, 1000, 2, 2, by decide⟩ [])).1 :=
  ⟨by decide +kernel, by decide +kernel,
    ((GetStateFor_follows_BIP9 ⟨fun _ ↦ true, 0, 1000, 2, 2, by decide⟩ []).2
      [⟨3, 1600, 0, 0⟩, ⟨2, 1500, 0, 0⟩, ⟨1, 200, 0, 0⟩, ⟨0, 100, 0, 0⟩]
      (by decide +kernel) (by decide +kernel)).2.1⟩

/-- The timeout comes before the count: both blocks of the period ending at height 3 signal and
the state a period earlier is `STARTED`, but the boundary's median time past has reached the
timeout, so the deployment fails instead of locking in. -/
theorem GetStateFor_fails_with_full_signal :
    HeightsFromGenesis [⟨3, 1600, 0, 0⟩, ⟨2, 1500, 0, 0⟩, ⟨1, 200, 0, 0⟩, ⟨0, 100, 0, 0⟩] ∧
      TimesAfterMedian [⟨3, 1600, 0, 0⟩, ⟨2, 1500, 0, 0⟩, ⟨1, 200, 0, 0⟩, ⟨0, 100, 0, 0⟩] ∧
      ((⟨fun _ ↦ true, 0, 1000, 2, 2, by decide⟩ : ThresholdConditionChecker).GetStateFor
          [⟨1, 200, 0, 0⟩, ⟨0, 100, 0, 0⟩] emptyCache).1 = THRESHOLD_STARTED ∧
      (⟨fun _ ↦ true, 0, 1000, 2, 2, by decide⟩ : ThresholdConditionChecker).countCondition 2
          [⟨3, 1600, 0, 0⟩, ⟨2, 1500, 0, 0⟩, ⟨1, 200, 0, 0⟩, ⟨0, 100, 0, 0⟩] = 2 ∧
      ((⟨fun _ ↦ true, 0, 1000, 2, 2, by decide⟩ : ThresholdConditionChecker).GetStateFor
          [⟨3, 1600, 0, 0⟩, ⟨2, 1500, 0, 0⟩, ⟨1, 200, 0, 0⟩, ⟨0, 100, 0, 0⟩] emptyCache).1 =
        THRESHOLD_FAILED := by
  decide +kernel

/-! ## The height since which the state holds

On a chain from the genesis block of `n` blocks, the pointer with `j` blocks,
`pindex.drop (n - j)`, is the parent of the block at height `j`; the boundary `q` periods up is
the pointer with `Period * q` blocks. -/

section Since

variable {pindex : List CBlockIndex}

/-- The state for the block at height `j` is the state of the boundary of its period. -/
theorem stateFor_drop_sub (h : HeightsFromGenesis pindex)
    (halways : checker.BeginTime ≠ ALWAYS_ACTIVE) {j : ℕ} (hj : j ≤ pindex.length) :
    checker.stateFor (pindex.drop (pindex.length - j)) =
      checker.stateAt
        (pindex.drop (pindex.length - checker.Period.toNat * (j / checker.Period.toNat))) := by
  rw [stateFor, if_neg halways, checker.periodEnd_drop h, Nat.sub_sub_self hj]

/-- At a boundary `GetStateFor` answers the boundary's own state. -/
theorem stateFor_boundary (h : HeightsFromGenesis pindex)
    (halways : checker.BeginTime ≠ ALWAYS_ACTIVE) {q : ℕ}
    (hq : checker.Period.toNat * q ≤ pindex.length) :
    checker.stateFor (pindex.drop (pindex.length - checker.Period.toNat * q)) =
      checker.stateAt (pindex.drop (pindex.length - checker.Period.toNat * q)) := by
  have hP : 0 < checker.Period.toNat := by have := checker.Period_pos; omega
  rw [checker.stateFor_drop_sub h halways hq, Nat.mul_div_cancel_left q hP]

/-- A period down from the boundary `q + 1` is the boundary `q`. -/
theorem prevPeriodEnd_boundary (h : HeightsFromGenesis pindex) {q : ℕ}
    (hq : checker.Period.toNat * (q + 1) ≤ pindex.length) :
    checker.prevPeriodEnd (pindex.drop (pindex.length - checker.Period.toNat * (q + 1))) =
      pindex.drop (pindex.length - checker.Period.toNat * q) := by
  rw [checker.prevPeriodEnd_eq_drop (h.drop _), List.drop_drop, Nat.mul_add_one] at *
  congr 1
  omega

/-- Along a chain that passed the time-too-old rule, the boundaries below one still in `DEFINED`
are all in `DEFINED`. -/
theorem stateAt_drop_eq_DEFINED {p : List CBlockIndex} (h : HeightsFromGenesis p)
    (ht : TimesAfterMedian p) (hdef : checker.stateAt p = THRESHOLD_DEFINED) (i : ℕ) :
    checker.stateAt (p.drop (checker.Period.toNat * i)) = THRESHOLD_DEFINED := by
  induction i with
  | zero => rwa [Nat.mul_zero, List.drop_zero]
  | succ i ih =>
    have hi := h.drop (checker.Period.toNat * i)
    have hmove := checker.canMoveTo_stateAt
      (checker.GetMedianTimePast_prevPeriodEnd_le hi (AlongChain.drop _ ht))
    rw [ih, checker.prevPeriodEnd_eq_drop hi, List.drop_drop] at hmove
    rw [Nat.mul_add_one]
    exact ThresholdState.eq_DEFINED_of_canMoveTo hmove

/-- The loop of `GetStateSinceHeightFor` from the boundary `q` periods up, in a state `S` other
than `DEFINED`: it stops at the lowest boundary of the run in state `S` that ends there, never at
the null pointer, and leaves a correct cache. -/
theorem sinceLoop_spec (h : HeightsFromGenesis pindex)
    (halways : checker.BeginTime ≠ ALWAYS_ACTIVE) {S : ThresholdState}
    (hS : S ≠ THRESHOLD_DEFINED) :
    ∀ (q : ℕ) (cache : ThresholdConditionCache), 0 < q →
      checker.Period.toNat * q ≤ pindex.length → checker.CacheCorrect cache →
      checker.stateAt (pindex.drop (pindex.length - checker.Period.toNat * q)) = S →
      ∃ q₀, 0 < q₀ ∧ q₀ ≤ q ∧
        (checker.sinceLoop S (pindex.drop (pindex.length - checker.Period.toNat * q)) cache).1 =
          pindex.drop (pindex.length - checker.Period.toNat * q₀) ∧
        checker.CacheCorrect
          (checker.sinceLoop S (pindex.drop (pindex.length - checker.Period.toNat * q)) cache).2 ∧
        (∀ q', q₀ ≤ q' → q' ≤ q →
          checker.stateAt (pindex.drop (pindex.length - checker.Period.toNat * q')) = S) ∧
        checker.stateAt (pindex.drop (pindex.length - checker.Period.toNat * (q₀ - 1))) ≠ S
  | 0, _, hq, _, _, _ => absurd hq (Nat.lt_irrefl 0)
  | q + 1, cache, _, hle, hcache, hstate => by
    have hP : 0 < checker.Period.toNat := by have := checker.Period_pos; omega
    rw [sinceLoop, checker.prevPeriodEnd_boundary h hle]
    by_cases hq : q = 0
    · -- the first boundary: a period down is the null pointer
      subst hq
      have hnull : pindex.drop (pindex.length - checker.Period.toNat * 0) = [] := by simp
      rw [dif_pos hnull]
      refine ⟨1, Nat.one_pos, le_rfl, rfl, hcache, fun q' h1 h2 => ?_, ?_⟩
      · obtain rfl : q' = 0 + 1 := by omega
        exact hstate
      · rw [Nat.sub_self, hnull, stateAt_nil]
        exact hS.symm
    · have hle' : checker.Period.toNat * q ≤ pindex.length := by
        rw [Nat.mul_add_one] at hle
        omega
      have hne : pindex.drop (pindex.length - checker.Period.toNat * q) ≠ [] := by
        rw [← List.length_pos_iff, List.length_drop]
        have : 0 < checker.Period.toNat * q := Nat.mul_pos hP (Nat.pos_of_ne_zero hq)
        omega
      rw [dif_neg hne]
      obtain ⟨hfst, hcache'⟩ := checker.GetStateFor_spec hcache
        (pindex.drop (pindex.length - checker.Period.toNat * q))
      rw [checker.stateFor_boundary h halways hle'] at hfst
      rcases hget : checker.GetStateFor (pindex.drop (pindex.length - checker.Period.toNat * q))
        cache with ⟨state, cache'⟩
      rw [hget] at hfst hcache'
      dsimp only at hfst hcache' ⊢
      by_cases heq : state = S
      · -- the period below has the same state: one more step down
        rw [if_pos heq]
        obtain ⟨q₀, hpos, hq₀, hloop, hc, hall, hexit⟩ := sinceLoop_spec h halways hS q cache'
          (Nat.pos_of_ne_zero hq) hle' hcache' (hfst ▸ heq)
        refine ⟨q₀, hpos, by omega, hloop, hc, fun q' h1 h2 => ?_, hexit⟩
        rcases Nat.lt_or_eq_of_le h2 with h2 | rfl
        · exact hall q' h1 (by omega)
        · exact hstate
      · rw [if_neg heq]
        refine ⟨q + 1, Nat.succ_pos q, le_rfl, rfl, hcache', fun q' h1 h2 => ?_, ?_⟩
        · obtain rfl : q' = q + 1 := by omega
          exact hstate
        · rw [Nat.add_sub_cancel, ← hfst]
          exact heq

/-- The block just below the boundary `q` periods up is in the period before. -/
theorem mul_sub_one_div_self {P q : ℕ} (hP : 0 < P) (hq : 0 < q) : (P * q - 1) / P = q - 1 := by
  obtain ⟨r, rfl⟩ : ∃ r, q = r + 1 := ⟨q - 1, by omega⟩
  rw [Nat.add_sub_cancel, Nat.mul_add_one]
  apply Nat.div_eq_of_lt_le
  · rw [Nat.mul_comm r]
    omega
  · rw [Nat.add_mul, Nat.one_mul, Nat.mul_comm r]
    omega

/-- The boundary of the block after `pindexPrev` is the boundary `length / Period` periods up. -/
theorem periodEnd_eq_boundary (h : HeightsFromGenesis pindex) :
    checker.periodEnd pindex = pindex.drop
      (pindex.length - checker.Period.toNat * (pindex.length / checker.Period.toNat)) := by
  rw [checker.periodEnd_eq_drop h, Nat.mod_eq_sub_mul_div]

/-- The state for the block after `pindex` is the state of its boundary. -/
theorem stateFor_eq_stateAt_boundary (h : HeightsFromGenesis pindex)
    (halways : checker.BeginTime ≠ ALWAYS_ACTIVE) :
    checker.stateFor pindex = checker.stateAt (pindex.drop
      (pindex.length - checker.Period.toNat * (pindex.length / checker.Period.toNat))) := by
  have := checker.stateFor_drop_sub h halways (le_refl pindex.length)
  rwa [Nat.sub_self, List.drop_zero] at this

/-- Along a chain that passed the time-too-old rule, while the next block is in `DEFINED`, so
was every block before it. -/
theorem stateFor_drop_sub_eq_DEFINED (h : HeightsFromGenesis pindex) (ht : TimesAfterMedian pindex)
    (halways : checker.BeginTime ≠ ALWAYS_ACTIVE)
    (hdef : checker.stateFor pindex = THRESHOLD_DEFINED) {j : ℕ} (hj : j ≤ pindex.length) :
    checker.stateFor (pindex.drop (pindex.length - j)) = THRESHOLD_DEFINED := by
  have hdrop := checker.stateAt_drop_eq_DEFINED (h.drop _) (AlongChain.drop _ ht)
    (checker.stateFor_eq_stateAt_boundary h halways ▸ hdef)
    (pindex.length / checker.Period.toNat - j / checker.Period.toNat)
  rw [List.drop_drop] at hdrop
  rw [checker.stateFor_drop_sub h halways hj, ← hdrop]
  -- the boundary of the block at height `j` lies that many periods below the current one
  have hj' : checker.Period.toNat * (j / checker.Period.toNat) ≤
      checker.Period.toNat * (pindex.length / checker.Period.toNat) :=
    Nat.mul_le_mul_left _ (Nat.div_le_div_right hj)
  have hmul : checker.Period.toNat * (pindex.length / checker.Period.toNat) ≤
      pindex.length := Nat.mul_div_le _ _
  rw [Nat.mul_sub]
  congr 2
  omega

/-- A boundary `q > 0` periods up is a block, at height `Period * q - 1`. -/
theorem boundary_cons (h : HeightsFromGenesis pindex) {q : ℕ} (hq : 0 < q)
    (hle : checker.Period.toNat * q ≤ pindex.length) :
    ∃ b rest, pindex.drop (pindex.length - checker.Period.toNat * q) = b :: rest ∧
      b.nHeight + 1 = ((checker.Period.toNat * q : ℕ) : ℤ) := by
  have hP : 0 < checker.Period.toNat := by have := checker.Period_pos; omega
  have hlen : (pindex.drop (pindex.length - checker.Period.toNat * q)).length =
      checker.Period.toNat * q := by
    rw [List.length_drop]
    omega
  obtain ⟨b, rest, hb⟩ := List.exists_cons_of_ne_nil
    (List.ne_nil_of_length_pos (by rw [hlen]; exact Nat.mul_pos hP hq))
  refine ⟨b, rest, hb, ?_⟩
  have hchain := h.drop (pindex.length - checker.Period.toNat * q)
  rw [hb] at hchain hlen
  rw [hchain.1, ← hlen, List.length_cons, Nat.cast_add, Nat.cast_one]

/-- **The height since which the state holds.** On a chain from the genesis block whose blocks
passed the time-too-old rule, from a correct cache, `GetStateSinceHeightFor` never reads the
null pointer. It answers the first height `k` of a period such that every block from height `k`
up to the block after `pindexPrev` has the state of that block, while the block at height
`k - 1`, if there is one, has another; and the cache it leaves is correct. -/
theorem GetStateSinceHeightFor_spec {pindexPrev : List CBlockIndex}
    (h : HeightsFromGenesis pindexPrev) (ht : TimesAfterMedian pindexPrev)
    {cache : ThresholdConditionCache} (hcache : checker.CacheCorrect cache) :
    ∃ (k : ℕ) (cache' : ThresholdConditionCache),
      checker.GetStateSinceHeightFor pindexPrev cache = .ok ((k : ℤ), cache') ∧
      checker.CacheCorrect cache' ∧ k % checker.Period.toNat = 0 ∧ k ≤ pindexPrev.length ∧
      (∀ j, k ≤ j → j ≤ pindexPrev.length →
        checker.stateFor (pindexPrev.drop (pindexPrev.length - j)) =
          checker.stateFor pindexPrev) ∧
      (0 < k → checker.stateFor (pindexPrev.drop (pindexPrev.length - (k - 1))) ≠
        checker.stateFor pindexPrev) := by
  by_cases halways : checker.BeginTime = ALWAYS_ACTIVE
  · -- always active: active since the genesis block
    refine ⟨0, cache, by rw [GetStateSinceHeightFor, if_pos halways]; rfl, hcache, Nat.zero_mod _,
      Nat.zero_le _, fun j _ _ => ?_, fun hk => absurd hk (Nat.lt_irrefl 0)⟩
    rw [stateFor, stateFor, if_pos halways, if_pos halways]
  have hP : 0 < checker.Period.toNat := by have := checker.Period_pos; omega
  obtain ⟨hfst, hcache₁⟩ := checker.GetStateFor_spec hcache pindexPrev
  rcases hget : checker.GetStateFor pindexPrev cache with ⟨state, cache₁⟩
  rw [hget] at hfst hcache₁
  dsimp only at hfst hcache₁
  by_cases hdef : state = THRESHOLD_DEFINED
  · -- `DEFINED`, and so was every block before
    refine ⟨0, cache₁, by simp [GetStateSinceHeightFor, halways, hget, hdef], hcache₁,
      Nat.zero_mod _, Nat.zero_le _, fun j _ hj => ?_, fun hk => absurd hk (Nat.lt_irrefl 0)⟩
    rw [← hfst, hdef]
    exact checker.stateFor_drop_sub_eq_DEFINED h ht halways (hfst ▸ hdef) hj
  -- otherwise the loop walks down the run of periods in this state, from the boundary `c`
  -- periods up
  have hS : checker.stateAt (pindexPrev.drop (pindexPrev.length -
      checker.Period.toNat * (pindexPrev.length / checker.Period.toNat))) = state := by
    rw [← checker.stateFor_eq_stateAt_boundary h halways, hfst]
  have hc : 0 < pindexPrev.length / checker.Period.toNat := by
    -- below the first boundary is the null pointer, in `DEFINED`
    refine Nat.pos_of_ne_zero fun hzero => hdef ?_
    rw [← hS, hzero, Nat.mul_zero, Nat.sub_zero, List.drop_length, stateAt_nil]
  obtain ⟨q₀, hpos, hq₀, hloop, hcache', hall, hexit⟩ := checker.sinceLoop_spec h halways hdef
    _ cache₁ hc (Nat.mul_div_le _ _) hcache₁ hS
  have hq₀P : checker.Period.toNat * q₀ ≤ pindexPrev.length :=
    (Nat.mul_le_mul_left _ hq₀).trans (Nat.mul_div_le _ _)
  -- the loop stops at a block, whose height gives the answer
  obtain ⟨b, rest, hb, hheight⟩ := checker.boundary_cons h hpos hq₀P
  refine ⟨checker.Period.toNat * q₀, (checker.sinceLoop state (pindexPrev.drop
    (pindexPrev.length - checker.Period.toNat * (pindexPrev.length / checker.Period.toNat)))
    cache₁).2, ?_, hcache', Nat.mul_mod_right _ _, hq₀P, fun j hj1 hj2 => ?_, fun _ => ?_⟩
  · simp only [GetStateSinceHeightFor, if_neg halways, hget, if_neg hdef,
      checker.periodEnd_eq_boundary h]
    rcases hsl : checker.sinceLoop state (pindexPrev.drop (pindexPrev.length -
      checker.Period.toNat * (pindexPrev.length / checker.Period.toNat))) cache₁ with
      ⟨stop, cache₂⟩
    rw [hsl] at hloop
    dsimp only at hloop
    rw [hloop, hb]
    dsimp only
    rw [hheight]
  · -- a block from height `Period * q₀` on is in a period of the run
    have hjq : q₀ ≤ j / checker.Period.toNat :=
      (Nat.le_div_iff_mul_le hP).mpr (by rw [Nat.mul_comm]; exact hj1)
    rw [checker.stateFor_drop_sub h halways hj2, hall _ hjq (Nat.div_le_div_right hj2), hfst]
  · -- the block below is in the period before the run
    rw [checker.stateFor_drop_sub h halways (by omega), mul_sub_one_div_self hP hpos, ← hfst]
    exact hexit

/-- The four blocks with a period of two and a timeout at 1000: the deployment, started at the
boundary of height 1, fails at the boundary of height 3, and the answer is the start of a period
within the chain. -/
theorem GetStateSinceHeightFor_spec_on_four_blocks :
    ∃ (k : ℕ) (cache' : ThresholdConditionCache),
      (⟨fun _ ↦ true, 0, 1000, 2, 2, by decide⟩ :
          ThresholdConditionChecker).GetStateSinceHeightFor
        [⟨3, 1600, 0, 0⟩, ⟨2, 1500, 0, 0⟩, ⟨1, 200, 0, 0⟩, ⟨0, 100, 0, 0⟩] emptyCache =
        .ok ((k : ℤ), cache') ∧ k % 2 = 0 ∧ k ≤ 4 := by
  obtain ⟨k, cache', hrun, -, hmod, hle, -, -⟩ :=
    @GetStateSinceHeightFor_spec ⟨fun _ ↦ true, 0, 1000, 2, 2, by decide⟩
      [⟨3, 1600, 0, 0⟩, ⟨2, 1500, 0, 0⟩, ⟨1, 200, 0, 0⟩, ⟨0, 100, 0, 0⟩]
      (by decide +kernel) (by decide +kernel) emptyCache (cacheCorrect_emptyCache _)
  exact ⟨k, cache', hrun, hmod, hle⟩

end Since

/-! ## The statistics of the period in progress -/

section Statistics

/-- Counting `a + b` blocks is counting `a`, then `b` from `a` blocks down. -/
theorem countCondition_add (b : ℕ) :
    ∀ (a : ℕ) (l : List CBlockIndex), checker.countCondition (a + b) l =
      checker.countCondition a l + checker.countCondition b (l.drop a)
  | 0, l => by rw [Nat.zero_add, List.drop_zero, countCondition, Nat.zero_add]
  | a + 1, l => by
    rw [Nat.add_right_comm, countCondition, countCondition, countCondition_add b a l.tail,
      List.drop_tail, Nat.add_assoc]

/-- No more blocks satisfy the condition than are counted. -/
theorem countCondition_le : ∀ (a : ℕ) (l : List CBlockIndex), checker.countCondition a l ≤ a
  | 0, _ => Nat.le_refl 0
  | a + 1, l => by
    have := countCondition_le a l.tail
    rw [countCondition]
    split <;> omega

/-- Only `STARTED` with enough blocks satisfying the condition locks in. -/
theorem le_countCondition_of_nextState {state : ThresholdState} {p : List CBlockIndex}
    (h : checker.nextState state p = THRESHOLD_LOCKED_IN) :
    checker.Threshold ≤ checker.countCondition checker.Period.toNat p := by
  cases state with
  | THRESHOLD_STARTED =>
    -- the other branches of the `switch` are not `LOCKED_IN`
    simp only [nextState] at h
    split_ifs at h with h₁ h₂
    exact h₂
  | THRESHOLD_DEFINED =>
    simp only [nextState] at h
    split_ifs at h
  | THRESHOLD_LOCKED_IN | THRESHOLD_ACTIVE | THRESHOLD_FAILED => simp [nextState] at h

/-- The counting loop, from a block `r` blocks above the height it stops at, counts those `r`
blocks. -/
theorem countSince_spec : ∀ (r : ℕ) (l : List CBlockIndex) (count : ℤ), HeightsFromGenesis l →
    r < l.length →
    checker.countSince ((l.length - r - 1 : ℕ) : ℤ) l count =
      .ok (count + checker.countCondition r l)
  | _, [], _, _, hr => absurd hr (Nat.not_lt_zero _)
  | 0, b :: pprev, count, h, _ => by
    have hend : ((b :: pprev).length - 0 - 1 : ℕ) = pprev.length := by
      rw [List.length_cons]
      omega
    rw [countSince, hend, if_neg (by rw [h.1]; exact not_not_intro rfl)]
    simp [countCondition]
  | r + 1, b :: pprev, count, h, hr => by
    rw [List.length_cons] at hr
    have hend : ((b :: pprev).length - (r + 1) - 1 : ℕ) = pprev.length - r - 1 := by
      rw [List.length_cons]
      omega
    have hne : ((pprev.length - r - 1 : ℕ) : ℤ) ≠ b.nHeight := by
      rw [h.1]
      omega
    rw [countSince, hend, if_pos hne, countSince_spec r pprev _ h.2 (by omega), countCondition,
      List.tail_cons]
    by_cases hc : checker.Condition (b :: pprev) = true
    · simp only [hc, if_true]
      push_cast
      ring
    · simp only [hc, Bool.false_eq_true, if_false]
      push_cast
      ring

/-- The blocks of a period completed by `ext` are those of `ext` and those already counted. -/
theorem countCondition_append_le (ext l : List CBlockIndex) (r : ℕ) :
    checker.countCondition (ext.length + r) (ext ++ l) ≤
      ext.length + checker.countCondition r l := by
  rw [checker.countCondition_add, List.drop_left]
  exact Nat.add_le_add_right (checker.countCondition_le _ _) _

/-- A boundary whose period has too few blocks satisfying the condition does not lock in. -/
theorem stateAt_ne_LOCKED_IN_of_lt {p : List CBlockIndex}
    (hcount : (checker.countCondition checker.Period.toNat p : ℤ) < checker.Threshold) :
    checker.stateAt p ≠ THRESHOLD_LOCKED_IN := by
  cases p with
  | nil =>
    rw [stateAt_nil]
    decide
  | cons b pprev =>
    by_cases hmtp : GetMedianTimePast (b :: pprev) < checker.BeginTime
    · rw [checker.stateAt_of_lt hmtp]
      decide
    · rw [checker.stateAt_of_not_lt (List.cons_ne_nil b pprev) hmtp]
      intro hlock
      exact absurd (checker.le_countCondition_of_nextState hlock) (not_le.mpr hcount)

/-- From a full period on, the statistics of the period of the next block: `r` blocks of it
have passed, and the loop counts those that satisfy the condition. -/
theorem GetStateStatisticsFor_of_le {pindex : List CBlockIndex} (h : HeightsFromGenesis pindex)
    (hle : checker.Period.toNat ≤ pindex.length) :
    checker.GetStateStatisticsFor pindex = .ok ⟨checker.Period, checker.Threshold,
      (pindex.length % checker.Period.toNat : ℕ),
      checker.countCondition (pindex.length % checker.Period.toNat) pindex,
      decide (checker.Period - checker.Threshold ≥ (pindex.length % checker.Period.toNat : ℕ) -
        (checker.countCondition (pindex.length % checker.Period.toNat) pindex : ℤ))⟩ := by
  have hP : 0 < checker.Period.toNat := by have := checker.Period_pos; omega
  obtain ⟨b, pprev, rfl⟩ := List.exists_cons_of_ne_nil
    (List.ne_nil_of_length_pos (lt_of_lt_of_le hP hle))
  -- the ancestor the source looks up is the boundary `GetStateFor` moves to
  have hanc : GetAncestor (b :: pprev) (b.nHeight - (b.nHeight + 1) % checker.Period) =
      (b :: pprev).drop ((b :: pprev).length % checker.Period.toNat) :=
    checker.periodEnd_eq_drop h
  have hn : (b :: pprev).length = pprev.length + 1 := List.length_cons
  have hr : (b :: pprev).length % checker.Period.toNat < (b :: pprev).length :=
    lt_of_lt_of_le (Nat.mod_lt _ hP) hle
  generalize hrdef : (b :: pprev).length % checker.Period.toNat = r at hr hanc ⊢
  obtain ⟨e, rest, he⟩ := List.exists_cons_of_ne_nil
    (List.ne_nil_of_length_pos (by rw [List.length_drop]; omega) :
      (b :: pprev).drop r ≠ [])
  -- the last block of the previous period, `r` blocks down
  have hlen : rest.length = (b :: pprev).length - r - 1 := by
    have := congrArg List.length he
    rw [List.length_drop, hn, List.length_cons] at this
    rw [hn]
    omega
  have heh : e.nHeight = (((b :: pprev).length - r - 1 : ℕ) : ℤ) := by
    have hchain := h.drop r
    rw [he] at hchain
    rw [hchain.1, hlen]
  have helapsed : b.nHeight - e.nHeight = (r : ℤ) := by
    rw [heh, h.1, hn]
    omega
  simp only [GetStateStatisticsFor, hanc, he]
  rw [heh, checker.countSince_spec _ _ 0 h hr, ← heh, helapsed, Int.zero_add]
  rfl

/-- **The statistics of the period in progress.** On a chain from the genesis block,
`GetStateStatisticsFor` reads the null pointer when the chain has blocks but not a full period of
them. From a full period on, it returns how many blocks of the period of the next block have
passed and how many of them satisfy the condition; and when it reports that the threshold can no
longer be reached, no way of completing that period locks the deployment in for the period
after it. -/
theorem GetStateStatisticsFor_spec {pindex : List CBlockIndex} (h : HeightsFromGenesis pindex)
    (hne : pindex ≠ []) :
    (pindex.length < checker.Period.toNat →
      checker.GetStateStatisticsFor pindex = .error "null pointer dereference") ∧
    (checker.Period.toNat ≤ pindex.length →
      ∃ stats, checker.GetStateStatisticsFor pindex = .ok stats ∧
        stats.elapsed = (pindex.length % checker.Period.toNat : ℕ) ∧
        stats.count = checker.countCondition (pindex.length % checker.Period.toNat) pindex ∧
        (stats.possible = false → ∀ ext : List CBlockIndex,
          ext.length + pindex.length % checker.Period.toNat = checker.Period.toNat →
          HeightsFromGenesis (ext ++ pindex) →
          checker.stateFor (ext ++ pindex) ≠ THRESHOLD_LOCKED_IN)) := by
  have hPint : (checker.Period.toNat : ℤ) = checker.Period :=
    Int.toNat_of_nonneg checker.Period_pos.le
  refine ⟨fun hlt => ?_, fun hle => ⟨_, checker.GetStateStatisticsFor_of_le h hle, rfl, rfl,
    fun hposs ext hext hchain => ?_⟩⟩
  · -- less than a period: the ancestor the source looks up is the null pointer
    obtain ⟨b, pprev, rfl⟩ := List.exists_cons_of_ne_nil hne
    have hanc : GetAncestor (b :: pprev) (b.nHeight - (b.nHeight + 1) % checker.Period) =
        (b :: pprev).drop ((b :: pprev).length % checker.Period.toNat) :=
      checker.periodEnd_eq_drop h
    simp only [GetStateStatisticsFor, hanc, Nat.mod_eq_of_lt hlt, List.drop_length]
  · simp only [decide_eq_false_iff_not] at hposs
    -- a completed period: its last block is a boundary
    have hbound : (ext ++ pindex).length % checker.Period.toNat = 0 := by
      have := Nat.div_add_mod pindex.length checker.Period.toNat
      rw [List.length_append, show ext.length + pindex.length = checker.Period.toNat *
        (pindex.length / checker.Period.toNat + 1) by rw [Nat.mul_add_one]; omega]
      exact Nat.mul_mod_right _ _
    have hcount := checker.countCondition_append_le ext pindex
      (pindex.length % checker.Period.toNat)
    rw [hext] at hcount
    unfold stateFor
    split_ifs with halways
    · exact fun h => absurd h (by decide)
    rw [checker.periodEnd_eq_drop hchain, hbound, List.drop_zero]
    exact checker.stateAt_ne_LOCKED_IN_of_lt (by omega)

/-- Three blocks, a period of two and no block signalling: one block of the second period has
passed and none of them counts. -/
theorem GetStateStatisticsFor_spec_no_signal :
    ∃ stats, (⟨fun _ ↦ false, 0, 1000, 2, 2, by decide⟩ :
        ThresholdConditionChecker).GetStateStatisticsFor
          [⟨2, 1500, 0, 0⟩, ⟨1, 200, 0, 0⟩, ⟨0, 100, 0, 0⟩] = .ok stats ∧
      stats.elapsed = 1 ∧ stats.count = 0 := by
  obtain ⟨-, hfull⟩ := @GetStateStatisticsFor_spec ⟨fun _ ↦ false, 0, 1000, 2, 2, by decide⟩
    [⟨2, 1500, 0, 0⟩, ⟨1, 200, 0, 0⟩, ⟨0, 100, 0, 0⟩] (by decide +kernel) (by simp)
  obtain ⟨stats, hrun, helapsed, hcount, -⟩ := hfull (by decide)
  exact ⟨stats, hrun, helapsed.trans (by decide), hcount.trans (by decide)⟩

end Statistics


end ThresholdConditionChecker

end LightningCash
