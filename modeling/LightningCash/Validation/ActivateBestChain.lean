import LightningCash.Lib.Except

/-!
# Chain activation: `ActivateBestChain` and `ActivateBestChainStep`

`CChainState::ActivateBestChain` in `validation.cpp` is a `do … while` loop: find the chain with
most work, take one `ActivateBestChainStep` towards it, and go round again until the tip is that
chain. A step disconnects down to the fork point and connects towards the candidate in chunks of
32 blocks, stopping as soon as the tip has more work than before or a block turns out invalid.

This chain's step begins with `MaybeGateDeepReorg`: with `-introspectionhardening` on (the
default), outside initial download and reindexing, a fork deeper than `-anchordepth` (default 6)
is refused unless `-allowdeepreorg` is set. A refused step returns `true` with nothing changed and
without reporting an invalid block, so the loop keeps the same candidate, finds the tip unchanged,
and goes round again. `ActivateBestChain_gated_never_returns` proves that it never returns.

The model keeps the loops and their exits. What a step does to the UTXO set, the mempool, the
candidate set and the failure flags is a state `σ` that the callbacks `DisconnectTip`,
`ConnectTip`, `InvalidChainFound` and `PruneBlockIndexCandidates` transform; the model reads back
only whether they succeeded. The outer loop, which the source does not bound, takes fuel, and
running out of it is `none`.
-/

namespace LightningCash

/-! ## Pointers into the block index -/

/-- The fields of a `CBlockIndex` entry that chain activation reads: which block it is, its
height, and the work of the chain ending in it. -/
structure ChainEntry where
  hash : ℕ
  nHeight : ℤ
  nChainWork : ℕ
  deriving DecidableEq

/-- A pointer into the block index: the entry and its ancestors through `pprev`, `[]` being the
null pointer. Two pointers are equal when they point at the same entry. -/
abbrev BlockPtr := List ChainEntry

namespace BlockPtr

/-- `pindex->nHeight` for a pointer the source has checked, and `CChain::Height()` for the
active chain held as its tip: `-1` for an empty chain. -/
def height : BlockPtr → ℤ
  | [] => -1
  | e :: _ => e.nHeight

/-- `pindex->nChainWork` for a pointer the source has checked. -/
def work : BlockPtr → ℕ
  | [] => 0
  | e :: _ => e.nChainWork

/-- `CBlockIndex::GetAncestor(height)`: null above the entry's height or below zero; the skip
pointers only shorten the walk. -/
def GetAncestor : BlockPtr → ℤ → BlockPtr
  | [], _ => []
  | e :: pprev, h =>
    if h > e.nHeight ∨ h < 0 then []
    else if e.nHeight = h then e :: pprev
    else GetAncestor pprev h

end BlockPtr

/-- `CChain::Contains(pindex)`: `chain[pindex->nHeight] == pindex`, the active chain being held
as its tip. -/
def Contains (chain pindex : BlockPtr) : Bool :=
  chain.GetAncestor pindex.height == pindex

/-- The walk of `CChain::FindFork`: step back until the chain contains the pointer. -/
def forkWalk (chain : BlockPtr) : BlockPtr → BlockPtr
  | [] => []
  | e :: pprev => if Contains chain (e :: pprev) then e :: pprev else forkWalk chain pprev

/-- `CChain::FindFork(pindex)`: the last block of the chain that is an ancestor of `pindex`. -/
def FindFork (chain pindex : BlockPtr) : BlockPtr :=
  match pindex with
  | [] => []
  | _ :: _ =>
    let pindex := if pindex.height > chain.height then pindex.GetAncestor chain.height else pindex
    forkWalk chain pindex

/-! ## The node and its callbacks -/

/-- What chain activation reads of the node: the active chain as its tip, `fReindex`, the
shutdown flag, and the rest of the node state that the callbacks change. -/
structure ChainState (σ : Type) where
  chainActive : BlockPtr
  fReindex : Bool
  fRequestShutdown : Bool
  rest : σ

/-- `DEFAULT_ENABLE_INTROSPECTION_HARDENING`. -/
def DEFAULT_ENABLE_INTROSPECTION_HARDENING : Bool := true

/-- `DEFAULT_ANCHOR_DEPTH`. -/
def DEFAULT_ANCHOR_DEPTH : ℤ := 6

/-- `DEFAULT_STOPATHEIGHT`. -/
def DEFAULT_STOPATHEIGHT : ℤ := 0

/-- The command-line arguments chain activation reads. -/
structure ActivationArgs where
  introspectionhardening : Bool
  anchordepth : ℤ
  allowdeepreorg : Bool
  stopatheight : ℤ

/-- The arguments when none is given. -/
def defaultArgs : ActivationArgs where
  introspectionhardening := DEFAULT_ENABLE_INTROSPECTION_HARDENING
  anchordepth := DEFAULT_ANCHOR_DEPTH
  allowdeepreorg := false
  stopatheight := DEFAULT_STOPATHEIGHT

/-- How `ConnectTip` ends: connected, or failed with a `state` that is invalid (with its
`CorruptionPossible()` flag) or not. -/
inductive ConnectOutcome (σ : Type) where
  | connected (s : σ)
  | invalid (fCorruptionPossible : Bool) (s : σ)
  | failed (s : σ)

/-- The arguments and the functions chain activation calls. -/
structure ActivationEnv (σ : Type) where
  args : ActivationArgs
  IsInitialBlockDownload : ChainState σ → Bool
  FindMostWorkChain : ChainState σ → BlockPtr
  DisconnectTip : ChainState σ → Option σ
  ConnectTip : ChainState σ → BlockPtr → ConnectOutcome σ
  InvalidChainFound : BlockPtr → σ → σ
  PruneBlockIndexCandidates : σ → σ
  FlushStateToDisk : ChainState σ → Bool

variable {σ : Type}

/-! ## `ActivateBestChainStep` -/

/-- `MaybeGateDeepReorg(currentTip, pindexFork, candidateTip)`: whether the step may go on.
The chain work difference it logs is not modelled. -/
def MaybeGateDeepReorg (env : ActivationEnv σ) (st : ChainState σ)
    (currentTip pindexFork _candidateTip : BlockPtr) : Bool :=
  if !env.args.introspectionhardening then true
  else if env.IsInitialBlockDownload st || st.fReindex then true
  else if currentTip = [] ∨ pindexFork = [] then true
  else
    let detachDepth := currentTip.height - pindexFork.height
    if detachDepth > env.args.anchordepth then env.args.allowdeepreorg
    else true

/-- The gate closes exactly on a fork deeper than `-anchordepth`, with hardening on, outside
initial download and reindexing, and without `-allowdeepreorg`. -/
theorem MaybeGateDeepReorg_eq_false_iff {env : ActivationEnv σ} {st : ChainState σ}
    {currentTip pindexFork candidateTip : BlockPtr} :
    MaybeGateDeepReorg env st currentTip pindexFork candidateTip = false ↔
      env.args.introspectionhardening = true ∧ env.IsInitialBlockDownload st = false ∧
      st.fReindex = false ∧ currentTip ≠ [] ∧ pindexFork ≠ [] ∧
      currentTip.height - pindexFork.height > env.args.anchordepth ∧
      env.args.allowdeepreorg = false := by
  unfold MaybeGateDeepReorg
  cases env.args.introspectionhardening
  · simp
  cases env.IsInitialBlockDownload st
  swap
  · simp
  cases st.fReindex
  swap
  · simp
  by_cases hnull : currentTip = [] ∨ pindexFork = []
  · rcases hnull with h | h <;> simp [h]
  · obtain ⟨hc, hf⟩ := not_or.mp hnull
    simp only [Bool.not_true, Bool.or_self, Bool.false_eq_true, if_false]
    rw [if_neg hnull]
    simp only [hc, hf, ne_eq, not_false_eq_true, true_and]
    split_ifs with hd <;> simp [hd]

/-- The loop `while (chainActive.Tip() && chainActive.Tip() != pindexFork) DisconnectTip(…)`:
a failure ends it with the state reached. -/
def disconnectLoop (env : ActivationEnv σ) (pindexFork : BlockPtr) (st : ChainState σ) :
    Except (ChainState σ) (ChainState σ) :=
  match h : st.chainActive with
  | [] => .ok st
  | _ :: pprev =>
    if st.chainActive = pindexFork then .ok st
    else match env.DisconnectTip st with
      | none => .error st
      | some s => disconnectLoop env pindexFork { st with chainActive := pprev, rest := s }
termination_by st.chainActive.length
decreasing_by simp [h]

/-- `vpindexToConnect`: from `pindexIter` back to the block at `nHeight`, newest first. -/
def collectToConnect (nHeight : ℤ) : BlockPtr → List BlockPtr
  | [] => []
  | e :: pprev => if e.nHeight = nHeight then [] else (e :: pprev) :: collectToConnect nHeight pprev

/-- The `for` loop over `reverse_iterate(vpindexToConnect)`. It ends with `fContinue`,
`fInvalidFound` and the state, or with `.error` where the step returns `false`; `back` is
`vpindexToConnect.back()`, which an invalid block marks as failed. -/
def connectChunk (env : ActivationEnv σ) (pindexOldTip back : BlockPtr) :
    List BlockPtr → ChainState σ → Except (ChainState σ) (Bool × Bool × ChainState σ)
  | [], st => .ok (true, false, st)
  | pindexConnect :: rest, st =>
    match env.ConnectTip st pindexConnect with
    | .connected s =>
      let st := { st with chainActive := pindexConnect, rest := env.PruneBlockIndexCandidates s }
      -- a tip with more work than the old one ends the step
      if pindexOldTip = [] ∨ st.chainActive.work > pindexOldTip.work then .ok (false, false, st)
      else connectChunk env pindexOldTip back rest st
    | .invalid fCorruptionPossible s =>
      let s := if fCorruptionPossible then s else env.InvalidChainFound back s
      .ok (false, true, { st with rest := s })
    | .failed s => .error { st with rest := s }

/-- The loop `while (fContinue && nHeight != pindexMostWork->nHeight)`, connecting up to 32
blocks a round: `fInvalidFound` and the state, or `.error` where the step returns `false`.
Every round moves `nHeight` to `min (nHeight + 32) pindexMostWork->nHeight`. -/
def connectLoop (env : ActivationEnv σ) (pindexMostWork pindexOldTip : BlockPtr) (nHeight : ℤ)
    (st : ChainState σ) : Except (ChainState σ) (Bool × ChainState σ) :=
  if nHeight = pindexMostWork.height then .ok (false, st) else
  let nTargetHeight := min (nHeight + 32) pindexMostWork.height
  let vpindexToConnect := collectToConnect nHeight (pindexMostWork.GetAncestor nTargetHeight)
  match connectChunk env pindexOldTip (vpindexToConnect.getLast?.getD []) vpindexToConnect.reverse
      st with
  | .error st => .error st
  | .ok (true, _, st) => connectLoop env pindexMostWork pindexOldTip nTargetHeight st
  | .ok (false, fInvalidFound, st) => .ok (fInvalidFound, st)
termination_by (pindexMostWork.height - nHeight).toNat + if nHeight = pindexMostWork.height then 0 else 1
decreasing_by
  simp only [if_neg ‹¬nHeight = pindexMostWork.height›]
  split <;> omega

/-- `ActivateBestChainStep(state, chainparams, pindexMostWork, pblock, fInvalidFound, …)`:
`.ok (fInvalidFound, state)` where it returns `true`, `.error state` where it returns `false`.
The mempool updates and fork warnings at its end do not change what the loop sees. -/
def ActivateBestChainStep (env : ActivationEnv σ) (st : ChainState σ) (pindexMostWork : BlockPtr) :
    Except (ChainState σ) (Bool × ChainState σ) :=
  let pindexOldTip := st.chainActive
  let pindexFork := FindFork st.chainActive pindexMostWork
  -- a gated reorg is treated as if no better chain existed
  if !MaybeGateDeepReorg env st pindexOldTip pindexFork pindexMostWork then .ok (false, st) else
  match disconnectLoop env pindexFork st with
  | .error st => .error st
  | .ok st => connectLoop env pindexMostWork pindexOldTip pindexFork.height st

/-- A gated step returns `true`, finds nothing invalid, and changes nothing. -/
theorem ActivateBestChainStep_of_gate {env : ActivationEnv σ} {st : ChainState σ}
    {pindexMostWork : BlockPtr}
    (h : MaybeGateDeepReorg env st st.chainActive (FindFork st.chainActive pindexMostWork)
      pindexMostWork = false) :
    ActivateBestChainStep env st pindexMostWork = .ok (false, st) := by
  unfold ActivateBestChainStep
  simp only [h, Bool.not_false, if_true]

/-! ## `ActivateBestChain` -/

/-- `CChainState::ActivateBestChain(state, chainparams, pblock)` with `pindexMostWork` carried
round the loop, on `fuel` rounds: `some (result, state)` when it returns, `none` when the fuel
runs out first. After the loop, `FlushStateToDisk` decides the result. -/
def ActivateBestChain (env : ActivationEnv σ) :
    ℕ → ChainState σ → BlockPtr → Option (Bool × ChainState σ)
  | 0, _, _ => none
  | fuel + 1, st, pindexMostWork =>
    let pindexMostWork :=
      if pindexMostWork = [] then env.FindMostWorkChain st else pindexMostWork
    if pindexMostWork = [] ∨ pindexMostWork = st.chainActive then some (true, st) else
    match ActivateBestChainStep env st pindexMostWork with
    | .error st => some (false, st)
    | .ok (fInvalidFound, st) =>
      let pindexMostWork := if fInvalidFound then [] else pindexMostWork
      let pindexNewTip := st.chainActive
      -- `-stopatheight` asks for shutdown once the tip reaches it
      let st := if env.args.stopatheight ≠ 0 ∧ pindexNewTip ≠ [] ∧
          pindexNewTip.height ≥ env.args.stopatheight then { st with fRequestShutdown := true }
        else st
      if st.fRequestShutdown ∨ pindexNewTip = pindexMostWork then
        some (env.FlushStateToDisk st, st)
      else ActivateBestChain env fuel st pindexMostWork

/-- One round of the loop on a gated candidate leaves everything as it was and goes round
again. -/
theorem ActivateBestChain_succ_of_gate {env : ActivationEnv σ} {st : ChainState σ}
    {pindexMostWork : BlockPtr} (fuel : ℕ) (hne : pindexMostWork ≠ [])
    (htip : pindexMostWork ≠ st.chainActive)
    (hgate : MaybeGateDeepReorg env st st.chainActive (FindFork st.chainActive pindexMostWork)
      pindexMostWork = false)
    (hstop : ¬ (env.args.stopatheight ≠ 0 ∧ st.chainActive ≠ [] ∧
      st.chainActive.height ≥ env.args.stopatheight))
    (hshutdown : st.fRequestShutdown = false) :
    ActivateBestChain env (fuel + 1) st pindexMostWork = ActivateBestChain env fuel st pindexMostWork := by
  have hnew : ¬ (st.fRequestShutdown = true ∨ st.chainActive = pindexMostWork) := by
    rw [hshutdown]
    exact fun h ↦ h.elim Bool.false_ne_true (fun h ↦ htip h.symm)
  simp only [ActivateBestChain, hne, htip, or_self, if_false,
    ActivateBestChainStep_of_gate hgate, Bool.false_eq_true, if_neg hstop, if_neg hnew]

/-- With the gate closed on the candidate `FindMostWorkChain` offers, and no shutdown asked for,
`ActivateBestChain` never returns: every round is the same gated step. -/
theorem ActivateBestChain_gated_never_returns (env : ActivationEnv σ) (st : ChainState σ)
    (hharden : env.args.introspectionhardening = true)
    (hibd : env.IsInitialBlockDownload st = false) (hreindex : st.fReindex = false)
    (hallow : env.args.allowdeepreorg = false)
    (hne : env.FindMostWorkChain st ≠ []) (htip : env.FindMostWorkChain st ≠ st.chainActive)
    (hchain : st.chainActive ≠ [])
    (hfork : FindFork st.chainActive (env.FindMostWorkChain st) ≠ [])
    (hdeep : st.chainActive.height - (FindFork st.chainActive (env.FindMostWorkChain st)).height >
      env.args.anchordepth)
    (hstop : ¬ (env.args.stopatheight ≠ 0 ∧ st.chainActive.height ≥ env.args.stopatheight))
    (hshutdown : st.fRequestShutdown = false) (fuel : ℕ) :
    ActivateBestChain env fuel st [] = none := by
  have hgate : MaybeGateDeepReorg env st st.chainActive
      (FindFork st.chainActive (env.FindMostWorkChain st)) (env.FindMostWorkChain st) = false :=
    MaybeGateDeepReorg_eq_false_iff.mpr ⟨hharden, hibd, hreindex, hchain, hfork, hdeep, hallow⟩
  have hstop' : ¬ (env.args.stopatheight ≠ 0 ∧ st.chainActive ≠ [] ∧
      st.chainActive.height ≥ env.args.stopatheight) := fun h ↦ hstop ⟨h.1, h.2.2⟩
  -- after the first round the candidate is cached; induction on the remaining fuel
  have hloop : ∀ n, ActivateBestChain env n st (env.FindMostWorkChain st) = none := by
    intro n
    induction n with
    | zero => rfl
    | succ n ih => rw [ActivateBestChain_succ_of_gate n hne htip hgate hstop' hshutdown, ih]
  cases fuel with
  | zero => rfl
  | succ n =>
    have hfirst : ActivateBestChain env (n + 1) st [] =
        ActivateBestChain env (n + 1) st (env.FindMostWorkChain st) := by
      simp only [ActivateBestChain, if_true, if_neg hne]
    rw [hfirst, hloop]

/-- An active chain of eight blocks, heights `7` down to `0`. -/
def eightBlockChain : BlockPtr :=
  (List.range 8).reverse.map fun i : ℕ ↦ ⟨i, i, i⟩

/-- A heavier branch of eight blocks on the same genesis block, heights `8` down to `1`. -/
def heavierBranch : BlockPtr :=
  ((List.range 8).reverse.map fun j : ℕ ↦ ⟨101 + j, j + 1, 101 + j⟩) ++ [⟨0, 0, 0⟩]

/-- A node past initial download, on the default arguments, whose best candidate is the heavier
branch and whose callbacks all succeed. -/
def deepForkEnv : ActivationEnv Unit where
  args := defaultArgs
  IsInitialBlockDownload _ := false
  FindMostWorkChain _ := heavierBranch
  DisconnectTip _ := some ()
  ConnectTip _ _ := .connected ()
  InvalidChainFound _ s := s
  PruneBlockIndexCandidates s := s
  FlushStateToDisk _ := true

theorem ActivateBestChain_gated_never_returns_on_deep_fork :
    ActivateBestChain deepForkEnv 1000 ⟨eightBlockChain, false, false, ()⟩ [] = none :=
  ActivateBestChain_gated_never_returns deepForkEnv ⟨eightBlockChain, false, false, ()⟩ rfl rfl rfl
    rfl (by decide) (by decide) (by decide) (by decide) (by decide) (by decide) rfl 1000

end LightningCash
