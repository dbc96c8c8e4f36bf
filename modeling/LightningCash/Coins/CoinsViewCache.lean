import LightningCash.Consensus.TxVerify
import LightningCash.Script.Script
import LightningCash.Lib.AListSum

/-!
# The coins cache (coins.h, coins.cpp)

`CCoinsViewCache` keeps a map `cacheCoins` from outpoints to entries over a base view: another
cache, the mempool's view or the database. An entry holds a coin, possibly spent, and two flags:
`DIRTY`, the entry may differ from the base, and `FRESH`, the base has no unspent coin there, so
that spending a fresh coin can drop the entry instead of remembering the spend for the base.
`FetchCoin` copies a coin up from the base on first use, `AddCoin` and `SpendCoin` change
entries, `Uncache` drops clean ones, and `BatchWrite` merges a child cache's dirty entries into
this one, which is how `Flush` hands a child's changes to its base.

The map is an association list (`AList`), the order of its entries standing for the iteration
order of the `unordered_map`. The base is seen through `GetCoin` alone, as a partial function;
the flags are two Booleans, the only bits the source sets. `DynamicMemoryUsage` of a coin
depends on the allocator and is a parameter `usage`.

## The invariant

What a cache with its base means is the coin each outpoint holds: the entry's coin if there is
an entry, unspent, the base's otherwise (`view`). Two facts make that meaning survive every
operation (`CacheInv`): a `FRESH` entry has no unspent coin beneath it in the base, and an entry
that is not `DIRTY` says what the base says. The first is what makes dropping a spent fresh
entry correct; the second what makes `Uncache` and skipping clean entries in `BatchWrite`
correct.

## Main results

* `run_refines_map`: along any run of lookups, `AddCoin`, `SpendCoin`, `Uncache` and merges of a
  child's map from an empty cache, where no `AddCoin` without `possible_overwrite` adds over an
  unspent coin and every child's entry agrees with the map, no call throws, the invariant holds,
  and the cache's view is the map built by the same calls.
* `Flush_preserves_view`: flushing a cache into a parent cache never throws, leaves the child
  empty and the parent's view equal to what the child's was.
* `cachedCoinsUsage_run`: after any run that returns, `cachedCoinsUsage` is what the coins of the
  map use.

This cache is the one `CheckTxInputs` reads; `Consensus.TxVerify` sees it only through the coin
`FetchCoin` finds for each outpoint.
-/

namespace LightningCash

/-! ## Entries and the map -/

/-- `CTxOut()` and `CTxOut::SetNull()`: the value `-1` and an empty script. -/
def CTxOut.null : CTxOut := ⟨-1, []⟩

/-- `Clear()`: the output set to null, the flag and the height to zero. -/
def Coin.Clear (c : Coin) : Coin := { c with out := CTxOut.null, fCoinBase := false, nHeight := 0 }

@[simp] theorem Coin.IsSpent_coinEmpty : coinEmpty.IsSpent = true := rfl

@[simp] theorem Coin.IsSpent_Clear (c : Coin) : c.Clear.IsSpent = true := rfl

/-- `CScript::IsUnspendable()`: an `OP_RETURN` script or one longer than `MAX_SCRIPT_SIZE`. -/
def IsUnspendable (script : CScript) : Bool :=
  (script.length > 0 && script.head? == some OP_RETURN) || script.length > MAX_SCRIPT_SIZE

namespace Coins

/-- `CCoinsCacheEntry`: the coin and the flags `DIRTY` and `FRESH`. -/
structure CCoinsCacheEntry where
  coin : Coin
  DIRTY : Bool
  FRESH : Bool
  deriving DecidableEq

/-- `CCoinsMap`. -/
abbrev CCoinsMap := AList fun _ : COutPoint => CCoinsCacheEntry

/-- `CCoinsViewCache`: the best block hash, the map, and the memory its coins use. -/
structure CCoinsViewCache where
  hashBlock : Uint256
  cacheCoins : CCoinsMap
  cachedCoinsUsage : ℕ

/-- The coin an entry stands for: none when spent. -/
def CCoinsCacheEntry.coinView (e : CCoinsCacheEntry) : Option Coin :=
  if e.coin.IsSpent then none else some e.coin

/-- What the base's `GetCoin` stands for: the coin it reports, unspent. -/
def baseView (base : COutPoint → Option Coin) (o : COutPoint) : Option Coin :=
  (base o).filter fun c => !c.IsSpent

namespace CCoinsViewCache

/-! ## The operations -/

section Operations

variable (usage : Coin → ℕ) (base : COutPoint → Option Coin)

/-- A cache with the entry `e` at `o` and its usage replaced by `u`. -/
def setEntry (s : CCoinsViewCache) (o : COutPoint) (e : CCoinsCacheEntry) (u : ℕ) :
    CCoinsViewCache :=
  { s with cacheCoins := s.cacheCoins.insert o e, cachedCoinsUsage := u }

/-- A cache without an entry at `o` and its usage replaced by `u`. -/
def eraseEntry (s : CCoinsViewCache) (o : COutPoint) (u : ℕ) : CCoinsViewCache :=
  { s with cacheCoins := s.cacheCoins.erase o, cachedCoinsUsage := u }

/-- `FetchCoin(outpoint)`: the entry, copied up from the base on first use, clean, and fresh if
the base's coin is spent. -/
def FetchCoin (s : CCoinsViewCache) (o : COutPoint) :
    CCoinsViewCache × Option CCoinsCacheEntry :=
  match s.cacheCoins.lookup o with
  | some e => (s, some e)
  | none =>
    match base o with
    | none => (s, none)
    | some tmp =>
      let e : CCoinsCacheEntry := ⟨tmp, false, tmp.IsSpent⟩
      (s.setEntry o e (s.cachedCoinsUsage + usage tmp), some e)

/-- `GetCoin(outpoint, coin)`: the coin when it returns true. -/
def GetCoin (s : CCoinsViewCache) (o : COutPoint) : CCoinsViewCache × Option Coin :=
  let (s, r) := FetchCoin usage base s o
  (s, r.bind CCoinsCacheEntry.coinView)

/-- `AccessCoin(outpoint)`: the entry's coin, spent or not, or the empty coin. -/
def AccessCoin (s : CCoinsViewCache) (o : COutPoint) : CCoinsViewCache × Coin :=
  let (s, r) := FetchCoin usage base s o
  (s, match r with
    | some e => e.coin
    | none => coinEmpty)

/-- `HaveCoin(outpoint)`. -/
def HaveCoin (s : CCoinsViewCache) (o : COutPoint) : CCoinsViewCache × Bool :=
  let (s, r) := FetchCoin usage base s o
  (s, match r with
    | some e => !e.coin.IsSpent
    | none => false)

/-- `HaveCoinInCache(outpoint)`: the map only, nothing fetched. -/
def HaveCoinInCache (s : CCoinsViewCache) (o : COutPoint) : Bool :=
  match s.cacheCoins.lookup o with
  | some e => !e.coin.IsSpent
  | none => false

/-- `AddCoin(outpoint, coin, possible_overwrite)`. An unspendable coin is not added. Without
`possible_overwrite` the entry in place must be spent, and the new one is fresh unless the spend
in place is still to be written to the base. -/
def AddCoin (s : CCoinsViewCache) (o : COutPoint) (coin : Coin) (possible_overwrite : Bool) :
    Except String CCoinsViewCache :=
  if coin.IsSpent then .error "assertion failed: !coin.IsSpent()"
  else if IsUnspendable coin.out.scriptPubKey then .ok s
  else
    -- `emplace` finds the entry in place or inserts an empty clean one
    let (old, u) := match s.cacheCoins.lookup o with
      | some e => (e, s.cachedCoinsUsage - usage e.coin)
      | none => (⟨coinEmpty, false, false⟩, s.cachedCoinsUsage)
    if !possible_overwrite && !old.coin.IsSpent then
      .error "Adding new coin that replaces non-pruned entry"
    else
      let fresh := !possible_overwrite && !old.DIRTY
      .ok (s.setEntry o ⟨coin, true, old.FRESH || fresh⟩ (u + usage coin))

/-- `SpendCoin(outpoint, moveout)`: the coin moved out when there is an entry. A fresh entry is
dropped; any other is cleared and marked dirty. -/
def SpendCoin (s : CCoinsViewCache) (o : COutPoint) : CCoinsViewCache × Option Coin :=
  let (s, r) := FetchCoin usage base s o
  match r with
  | none => (s, none)
  | some e =>
    let u := s.cachedCoinsUsage - usage e.coin
    if e.FRESH then (s.eraseEntry o u, some e.coin)
    else (s.setEntry o ⟨e.coin.Clear, true, e.FRESH⟩ u, some e.coin)

/-- `Uncache(outpoint)`: drop an entry with no flag. -/
def Uncache (s : CCoinsViewCache) (o : COutPoint) : CCoinsViewCache :=
  match s.cacheCoins.lookup o with
  | some e =>
    if !e.DIRTY && !e.FRESH then s.eraseEntry o (s.cachedCoinsUsage - usage e.coin) else s
  | none => s

/-- One entry of the loop of `BatchWrite`: a child's dirty entry merged into this cache. -/
def batchWriteEntry (s : CCoinsViewCache) (o : COutPoint) (e : CCoinsCacheEntry) :
    Except String CCoinsViewCache :=
  if !e.DIRTY then .ok s
  else
    match s.cacheCoins.lookup o with
    | none =>
      -- a spent fresh entry the base never saw is dropped
      if e.FRESH && e.coin.IsSpent then .ok s
      else .ok (s.setEntry o ⟨e.coin, true, e.FRESH⟩ (s.cachedCoinsUsage + usage e.coin))
    | some us =>
      if e.FRESH && !us.coin.IsSpent then
        .error "FRESH flag misapplied to cache entry for base transaction with spendable outputs"
      else if us.FRESH && e.coin.IsSpent then
        .ok (s.eraseEntry o (s.cachedCoinsUsage - usage us.coin))
      else
        .ok (s.setEntry o ⟨e.coin, true, us.FRESH⟩
          (s.cachedCoinsUsage - usage us.coin + usage e.coin))

/-- `BatchWrite(mapCoins, hashBlock)`: every entry of the child's map, in its order. -/
def BatchWrite (s : CCoinsViewCache) (mapCoins : CCoinsMap) (hashBlockIn : Uint256) :
    Except String CCoinsViewCache := do
  let s ← mapCoins.entries.foldlM (fun s x => batchWriteEntry usage s x.1 x.2) s
  pure { s with hashBlock := hashBlockIn }

/-- `Flush()` of a cache whose base is the cache `parent`: the parent after its `BatchWrite`,
and this cache emptied. -/
def Flush (parent s : CCoinsViewCache) :
    Except String (CCoinsViewCache × CCoinsViewCache) := do
  let parent ← parent.BatchWrite usage s.cacheCoins s.hashBlock
  pure (parent, { s with cacheCoins := ∅, cachedCoinsUsage := 0 })

end Operations

end CCoinsViewCache

/-! ## What a cache means -/

namespace CCoinsViewCache

variable (base : COutPoint → Option Coin)

/-- What a list of entries shows over the view `v`: the coin of the first entry of an outpoint,
none if that coin is spent, and `v`'s coin where there is no entry. -/
def overlay (l : List (Σ _ : COutPoint, CCoinsCacheEntry)) (v : COutPoint → Option Coin)
    (o : COutPoint) : Option Coin :=
  match l.dlookup o with
  | some e => e.coinView
  | none => v o

/-- The coin each outpoint holds in the cache over `base`. -/
def view (s : CCoinsViewCache) : COutPoint → Option Coin :=
  overlay s.cacheCoins.entries (baseView base)

/-- The invariant of a cache over its base: a fresh entry has no unspent coin beneath it, and an
entry that is not dirty says what the base says. -/
structure CacheInv (s : CCoinsViewCache) : Prop where
  fresh : ∀ o e, s.cacheCoins.lookup o = some e → e.FRESH = true → baseView base o = none
  clean : ∀ o e, s.cacheCoins.lookup o = some e → e.DIRTY = false → e.coinView = baseView base o

variable {base} {s : CCoinsViewCache} {o : COutPoint}

section Overlay

variable {l : List (Σ _ : COutPoint, CCoinsCacheEntry)} {v : COutPoint → Option Coin}

theorem overlay_of_dlookup {e : CCoinsCacheEntry} (h : l.dlookup o = some e) :
    overlay l v o = e.coinView := by
  rw [overlay, h]

theorem overlay_of_dlookup_none (h : l.dlookup o = none) : overlay l v o = v o := by
  rw [overlay, h]

/-- An entry in front of the others, at an outpoint they do not have, is an update of what they
show. -/
theorem overlay_cons {e : CCoinsCacheEntry} (ho : o ∉ l.keys) :
    overlay (⟨o, e⟩ :: l) v = overlay l (Function.update v o e.coinView) := by
  funext o'
  by_cases hoo : o' = o
  · subst hoo
    rw [overlay_of_dlookup (List.dlookup_cons_eq _ _ _),
      overlay_of_dlookup_none (List.dlookup_eq_none.mpr ho), Function.update_self]
  · rw [overlay, overlay, List.dlookup_cons_ne _ _ hoo, Function.update_of_ne hoo]

end Overlay

theorem view_of_lookup {e : CCoinsCacheEntry} (h : s.cacheCoins.lookup o = some e) :
    view base s o = e.coinView :=
  overlay_of_dlookup h

theorem view_of_lookup_none (h : s.cacheCoins.lookup o = none) :
    view base s o = baseView base o :=
  overlay_of_dlookup_none h

@[simp] theorem view_empty (hashBlock : Uint256) (u : ℕ) :
    view base ⟨hashBlock, ∅, u⟩ = baseView base := by
  funext o
  rw [view_of_lookup_none (AList.lookup_empty o)]

theorem cacheInv_empty (hashBlock : Uint256) (u : ℕ) : CacheInv base ⟨hashBlock, ∅, u⟩ :=
  ⟨fun o e h => by simp [AList.lookup_empty] at h, fun o e h => by simp [AList.lookup_empty] at h⟩

theorem lookup_setEntry (e : CCoinsCacheEntry) (u : ℕ) (o' : COutPoint) :
    (s.setEntry o e u).cacheCoins.lookup o' = if o' = o then some e else s.cacheCoins.lookup o' := by
  split_ifs with ho
  · subst ho
    exact AList.lookup_insert _
  · exact AList.lookup_insert_ne ho

theorem lookup_eraseEntry (u : ℕ) (o' : COutPoint) :
    (s.eraseEntry o u).cacheCoins.lookup o' = if o' = o then none else s.cacheCoins.lookup o' := by
  split_ifs with ho
  · subst ho
    exact AList.lookup_erase _ _
  · exact AList.lookup_erase_ne ho

/-- Writing an entry changes the view at its outpoint alone. -/
theorem view_setEntry (e : CCoinsCacheEntry) (u : ℕ) :
    view base (s.setEntry o e u) = Function.update (view base s) o e.coinView := by
  funext o'
  rw [Function.update_apply]
  split_ifs with ho
  · rw [view_of_lookup (by rw [lookup_setEntry, if_pos ho])]
  · rcases hl : s.cacheCoins.lookup o' with _ | e'
    · rw [view_of_lookup_none (by rw [lookup_setEntry, if_neg ho, hl]), view_of_lookup_none hl]
    · rw [view_of_lookup (by rw [lookup_setEntry, if_neg ho, hl]), view_of_lookup hl]

/-- Dropping an entry shows the base at its outpoint. -/
theorem view_eraseEntry (u : ℕ) :
    view base (s.eraseEntry o u) = Function.update (view base s) o (baseView base o) := by
  funext o'
  rw [Function.update_apply]
  split_ifs with ho
  · rw [view_of_lookup_none (by rw [lookup_eraseEntry, if_pos ho]), ho]
  · rcases hl : s.cacheCoins.lookup o' with _ | e'
    · rw [view_of_lookup_none (by rw [lookup_eraseEntry, if_neg ho, hl]), view_of_lookup_none hl]
    · rw [view_of_lookup (by rw [lookup_eraseEntry, if_neg ho, hl]), view_of_lookup hl]

theorem CacheInv.setEntry (hs : CacheInv base s) {e : CCoinsCacheEntry} (u : ℕ)
    (hfresh : e.FRESH = true → baseView base o = none)
    (hclean : e.DIRTY = false → e.coinView = baseView base o) :
    CacheInv base (s.setEntry o e u) := by
  constructor
  · intro o' e' h'
    rw [lookup_setEntry] at h'
    split_ifs at h' with ho
    · cases h'
      rw [ho]
      exact hfresh
    · exact hs.fresh o' e' h'
  · intro o' e' h'
    rw [lookup_setEntry] at h'
    split_ifs at h' with ho
    · cases h'
      rw [ho]
      exact hclean
    · exact hs.clean o' e' h'

theorem CacheInv.eraseEntry (hs : CacheInv base s) (u : ℕ) : CacheInv base (s.eraseEntry o u) := by
  constructor
  · intro o' e' h'
    rw [lookup_eraseEntry] at h'
    split_ifs at h'
    exact hs.fresh o' e' h'
  · intro o' e' h'
    rw [lookup_eraseEntry] at h'
    split_ifs at h'
    exact hs.clean o' e' h'

/-! ## Every operation keeps the invariant and acts on the view as on a map -/

variable (usage : Coin → ℕ)

/-- The coin `FetchCoin` copies up says what the base says. -/
theorem coinView_fetched {tmp : Coin} (h : base o = some tmp) :
    CCoinsCacheEntry.coinView ⟨tmp, false, tmp.IsSpent⟩ = baseView base o := by
  rw [baseView, h, CCoinsCacheEntry.coinView]
  cases hsp : tmp.IsSpent <;> simp [Option.filter, hsp]

/-- What `FetchCoin` can do: find the entry, find nothing, or copy the base's coin up. -/
theorem FetchCoin_cases (s : CCoinsViewCache) (o : COutPoint) :
    (∃ e, s.cacheCoins.lookup o = some e ∧ FetchCoin usage base s o = (s, some e)) ∨
    (s.cacheCoins.lookup o = none ∧ base o = none ∧ FetchCoin usage base s o = (s, none)) ∨
    (∃ tmp, s.cacheCoins.lookup o = none ∧ base o = some tmp ∧
      FetchCoin usage base s o =
        (s.setEntry o ⟨tmp, false, tmp.IsSpent⟩ (s.cachedCoinsUsage + usage tmp),
          some ⟨tmp, false, tmp.IsSpent⟩)) := by
  rcases hl : s.cacheCoins.lookup o with _ | e
  · rcases hb : base o with _ | tmp
    · exact .inr (.inl ⟨rfl, rfl, by simp [FetchCoin, hl, hb]⟩)
    · exact .inr (.inr ⟨tmp, rfl, rfl, by simp [FetchCoin, hl, hb]⟩)
  · exact .inl ⟨e, rfl, by simp [FetchCoin, hl]⟩

theorem view_FetchCoin : view base (FetchCoin usage base s o).1 = view base s := by
  rcases FetchCoin_cases usage s o with ⟨e, -, h⟩ | ⟨-, -, h⟩ | ⟨tmp, hl, hb, h⟩
  · rw [h]
  · rw [h]
  · rw [h, view_setEntry, coinView_fetched hb, ← view_of_lookup_none hl, Function.update_eq_self]

theorem CacheInv.FetchCoin (hs : CacheInv base s) : CacheInv base (FetchCoin usage base s o).1 := by
  rcases FetchCoin_cases usage s o with ⟨e, -, h⟩ | ⟨-, -, h⟩ | ⟨tmp, hl, hb, h⟩
  · rwa [h]
  · rwa [h]
  · rw [h]
    refine hs.setEntry _ (fun hfresh => ?_) (fun _ => coinView_fetched hb)
    rw [← coinView_fetched hb, CCoinsCacheEntry.coinView, if_pos hfresh]

/-- The entry `FetchCoin` returns is the one it leaves in the map. -/
theorem FetchCoin_snd :
    (FetchCoin usage base s o).2 = (FetchCoin usage base s o).1.cacheCoins.lookup o := by
  rcases FetchCoin_cases usage s o with ⟨e, hl, h⟩ | ⟨hl, -, h⟩ | ⟨tmp, -, -, h⟩
  · rw [h, hl]
  · rw [h, hl]
  · rw [h, lookup_setEntry, if_pos rfl]

/-- The coin `FetchCoin` finds, unspent, is the view's. -/
theorem bind_coinView_FetchCoin :
    (FetchCoin usage base s o).2.bind CCoinsCacheEntry.coinView = view base s o := by
  rw [← view_FetchCoin usage, FetchCoin_snd]
  cases h : (FetchCoin usage base s o).1.cacheCoins.lookup o with
  | none =>
    -- nothing in the map after a fetch: the base has nothing either
    rcases FetchCoin_cases usage s o with ⟨e, hl, hf⟩ | ⟨hl, hb, hf⟩ | ⟨tmp, -, -, hf⟩
    · rw [hf, hl] at h
      cases h
    · rw [hf] at h ⊢
      rw [view_of_lookup_none h, baseView, hb]
      rfl
    · rw [hf, lookup_setEntry, if_pos rfl] at h
      cases h
  | some e => rw [view_of_lookup h]; rfl

/-- `GetCoin` answers the view. -/
theorem GetCoin_snd : (GetCoin usage base s o).2 = view base s o :=
  bind_coinView_FetchCoin usage

/-- `HaveCoin` answers whether the view has a coin. -/
theorem HaveCoin_snd : (HaveCoin usage base s o).2 = (view base s o).isSome := by
  have hbind := @bind_coinView_FetchCoin base s o usage
  rcases hf : FetchCoin usage base s o with ⟨s₁, _ | e⟩
  · rw [hf] at hbind
    simp only [HaveCoin, hf, ← hbind]
    rfl
  · rw [hf] at hbind
    simp only [HaveCoin, hf, ← hbind, Option.bind_some, CCoinsCacheEntry.coinView]
    cases e.coin.IsSpent <;> rfl

/-- `AccessCoin` answers the view: the coin it returns is spent exactly when the view has none,
and is the view's otherwise. -/
theorem AccessCoin_snd :
    (if (AccessCoin usage base s o).2.IsSpent then none else some (AccessCoin usage base s o).2) =
      view base s o := by
  have hbind := @bind_coinView_FetchCoin base s o usage
  rcases hf : FetchCoin usage base s o with ⟨s₁, _ | e⟩
  · rw [hf] at hbind
    simp only [AccessCoin, hf, ← hbind]
    rfl
  · rw [hf] at hbind
    simp only [AccessCoin, hf, ← hbind]
    rfl

/-- **`AddCoin`.** An unspent coin added where the view has none, or with `possible_overwrite`,
is added without a throw; the invariant holds after it. A fresh flag is set only where the base
has nothing, which the precondition provides. -/
theorem AddCoin_spec (hs : CacheInv base s) {coin : Coin} {possible_overwrite : Bool}
    (hspent : coin.IsSpent = false) (hpre : possible_overwrite = false → view base s o = none) :
    ∃ s', AddCoin usage s o coin possible_overwrite = .ok s' ∧ CacheInv base s' ∧
      view base s' = if IsUnspendable coin.out.scriptPubKey then view base s
        else Function.update (view base s) o (some coin) := by
  have hcv : ∀ f, CCoinsCacheEntry.coinView ⟨coin, true, f⟩ = some coin := fun f => by
    rw [CCoinsCacheEntry.coinView, if_neg (by simp [hspent])]
  by_cases hun : IsUnspendable coin.out.scriptPubKey = true
  · exact ⟨s, by simp [AddCoin, hspent, hun], hs, by rw [if_pos hun]⟩
  rw [if_neg hun]
  rcases hl : s.cacheCoins.lookup o with _ | e
  · -- a new entry, fresh exactly without `possible_overwrite`
    refine ⟨s.setEntry o ⟨coin, true, !possible_overwrite⟩ (s.cachedCoinsUsage + usage coin),
      by simp [AddCoin, hspent, hun, hl], ?_, by rw [view_setEntry, hcv]⟩
    refine hs.setEntry _ (fun hfresh => ?_) (fun h => by cases h)
    have hpo : possible_overwrite = false := by simpa using hfresh
    rw [← view_of_lookup_none hl]
    exact hpre hpo
  · -- over an entry: without `possible_overwrite` it is spent, so no throw
    have hok : (!possible_overwrite && !e.coin.IsSpent) = false := by
      cases hpo : possible_overwrite
      · have := hpre hpo
        rw [view_of_lookup hl, CCoinsCacheEntry.coinView] at this
        split_ifs at this with hsp
        simp [hsp]
      · rfl
    refine ⟨s.setEntry o ⟨coin, true, e.FRESH || (!possible_overwrite && !e.DIRTY)⟩
      (s.cachedCoinsUsage - usage e.coin + usage coin),
      by simp only [AddCoin, hspent, hun, hl, hok]; rfl, ?_, by rw [view_setEntry, hcv]⟩
    refine hs.setEntry _ (fun hfresh => ?_) (fun h => by cases h)
    simp only [Bool.or_eq_true, Bool.and_eq_true, Bool.not_eq_true'] at hfresh
    rcases hfresh with hfresh | ⟨hpo, hdirty⟩
    · exact hs.fresh o e hl hfresh
    · rw [← hs.clean o e hl hdirty, ← view_of_lookup hl]
      exact hpre hpo

/-- **`SpendCoin`.** The view loses its coin at the outpoint, the invariant holds, and the coin
moved out is the view's. A fresh entry is dropped: the base has nothing beneath it. -/
theorem SpendCoin_spec (hs : CacheInv base s) :
    CacheInv base (SpendCoin usage base s o).1 ∧
      view base (SpendCoin usage base s o).1 = Function.update (view base s) o none ∧
      (SpendCoin usage base s o).2.bind (fun c => if c.IsSpent then none else some c) =
        view base s o := by
  have hinv := hs.FetchCoin usage (o := o)
  have hview := @view_FetchCoin base s o usage
  have hsnd := @FetchCoin_snd base s o usage
  have hbind := @bind_coinView_FetchCoin base s o usage
  rcases hf : FetchCoin usage base s o with ⟨s₁, _ | e⟩
  all_goals
    rw [hf] at hinv hview hsnd hbind
    dsimp only at hinv hview hsnd hbind
  · -- nothing to spend: the view has no coin there already
    simp only [SpendCoin, hf]
    refine ⟨hinv, ?_, hbind⟩
    rw [hview]
    exact (Function.update_eq_self_iff.mpr (by rw [← hbind]; rfl)).symm
  · simp only [Option.bind_some] at hbind
    cases hfresh : e.FRESH
    · -- any other is cleared and marked dirty
      simp only [SpendCoin, hf, hfresh, Bool.false_eq_true, if_false]
      refine ⟨hinv.setEntry _ (fun h => by cases h) (fun h => by cases h), ?_, hbind⟩
      rw [view_setEntry, hview]
      rfl
    · -- a fresh entry is dropped: the base has nothing beneath it
      simp only [SpendCoin, hf, hfresh, if_true]
      refine ⟨hinv.eraseEntry _, ?_, hbind⟩
      rw [view_eraseEntry, hview, hinv.fresh o e hsnd.symm hfresh]

/-- **`Uncache`.** Dropping a clean entry keeps the view and the invariant. -/
theorem Uncache_spec (hs : CacheInv base s) :
    CacheInv base (Uncache usage s o) ∧ view base (Uncache usage s o) = view base s := by
  rcases hl : s.cacheCoins.lookup o with _ | e
  · have h : Uncache usage s o = s := by simp [Uncache, hl]
    rw [h]
    exact ⟨hs, rfl⟩
  · by_cases hflags : (!e.DIRTY && !e.FRESH) = true
    · have h : Uncache usage s o = s.eraseEntry o (s.cachedCoinsUsage - usage e.coin) := by
        simp [Uncache, hl, hflags]
      rw [h]
      refine ⟨hs.eraseEntry _, ?_⟩
      simp only [Bool.and_eq_true, Bool.not_eq_true'] at hflags
      rw [view_eraseEntry, ← hs.clean o e hl hflags.1, ← view_of_lookup hl,
        Function.update_eq_self]
    · have h : Uncache usage s o = s := by simp [Uncache, hl, hflags]
      rw [h]
      exact ⟨hs, rfl⟩

/-! ## Merging a child's entries -/

/-- The view never holds a spent coin. -/
theorem baseView_view (s : CCoinsViewCache) : baseView (view base s) = view base s := by
  funext o
  rw [baseView]
  rcases hl : s.cacheCoins.lookup o with _ | e
  · rw [view_of_lookup_none hl, baseView]
    cases base o with
    | none => rfl
    | some c => cases hsp : c.IsSpent <;> simp [Option.filter_some, hsp]
  · rw [view_of_lookup hl, CCoinsCacheEntry.coinView]
    split_ifs with hsp
    · rfl
    · simp [hsp]

theorem IsSpent_of_view {s : CCoinsViewCache} {o : COutPoint} {c : Coin}
    (h : view base s o = some c) : c.IsSpent = false := by
  rw [← baseView_view, baseView, Option.filter_eq_some_iff] at h
  simpa using h.2

/-- An entry agrees with the view `v` beneath it: fresh only over no coin, and showing `v`'s coin
unless dirty. -/
def EntryInv (v : COutPoint → Option Coin) (x : Σ _ : COutPoint, CCoinsCacheEntry) : Prop :=
  (x.2.FRESH = true → v x.1 = none) ∧ (x.2.DIRTY = false → x.2.coinView = v x.1)

/-- The invariant of a cache is that of each of its entries over the base. -/
theorem CacheInv.entryInv (hs : CacheInv base s) :
    ∀ x ∈ s.cacheCoins.entries, EntryInv (baseView base) x := by
  intro x hx
  have hlook : s.cacheCoins.lookup x.1 = some x.2 := AList.mem_lookup_iff.mpr hx
  exact ⟨hs.fresh x.1 x.2 hlook, hs.clean x.1 x.2 hlook⟩

/-- One entry of a child merged in: where it agrees with this cache's view, the merge does not
throw, keeps this cache's invariant, and shows the child's coin. The throw of the source, a
fresh child entry over an unspent coin, is what the agreement excludes. -/
theorem batchWriteEntry_spec (hs : CacheInv base s) {e : CCoinsCacheEntry}
    (he : EntryInv (view base s) ⟨o, e⟩) :
    ∃ s', batchWriteEntry usage s o e = .ok s' ∧ CacheInv base s' ∧
      view base s' = Function.update (view base s) o e.coinView := by
  obtain ⟨hfresh, hclean⟩ := he
  dsimp only at hfresh hclean
  cases hdirty : e.DIRTY
  · -- a clean entry says what this cache says: skipped
    refine ⟨s, by simp [batchWriteEntry, hdirty], hs, ?_⟩
    rw [hclean hdirty, Function.update_eq_self]
  rcases hl : s.cacheCoins.lookup o with _ | us
  · by_cases hdrop : (e.FRESH && e.coin.IsSpent) = true
    · -- a spent fresh entry over nothing: dropped
      refine ⟨s, by simp [batchWriteEntry, hdirty, hl, hdrop], hs, ?_⟩
      simp only [Bool.and_eq_true] at hdrop
      rw [CCoinsCacheEntry.coinView, if_pos hdrop.2, ← hfresh hdrop.1, Function.update_eq_self]
    · refine ⟨_, by simp [batchWriteEntry, hdirty, hl, hdrop]; rfl, ?_,
        by rw [view_setEntry]; rfl⟩
      refine hs.setEntry _ (fun hf => ?_) (fun h => by cases h)
      rw [← view_of_lookup_none hl]
      exact hfresh hf
  · have hok : (e.FRESH && !us.coin.IsSpent) = false := by
      cases hf : e.FRESH
      · rfl
      · have := hfresh hf
        rw [view_of_lookup hl, CCoinsCacheEntry.coinView] at this
        split_ifs at this with hsp
        simp [hsp]
    by_cases herase : (us.FRESH && e.coin.IsSpent) = true
    · -- spent over a fresh entry: nothing is left for the base
      refine ⟨_, by simp [batchWriteEntry, hdirty, hl, hok, herase]; rfl, hs.eraseEntry _, ?_⟩
      simp only [Bool.and_eq_true] at herase
      rw [view_eraseEntry, CCoinsCacheEntry.coinView, if_pos herase.2,
        hs.fresh o us hl herase.1]
    · refine ⟨s.setEntry o ⟨e.coin, true, us.FRESH⟩
          (s.cachedCoinsUsage - usage us.coin + usage e.coin),
        by simp [batchWriteEntry, hdirty, hl, hok, herase],
        hs.setEntry _ (hs.fresh o us hl) (fun h => by cases h), by rw [view_setEntry]; rfl⟩

/-- The loop of `BatchWrite` over entries of distinct outpoints, each agreeing with this cache's
view: the view becomes the entries over the view before. The invariant of the loop is indexed by
the entries still to merge; merging one changes the view at its outpoint alone, where the rest
have no entry, so they still agree with it. -/
theorem foldlM_batchWriteEntry_spec (l : List (Σ _ : COutPoint, CCoinsCacheEntry))
    (s : CCoinsViewCache) (hnd : l.NodupKeys) (hs : CacheInv base s)
    (hl : ∀ x ∈ l, EntryInv (view base s) x) :
    ∃ s', l.foldlM (fun s x => batchWriteEntry usage s x.1 x.2) s = .ok s' ∧
      CacheInv base s' ∧ view base s' = overlay l (view base s) := by
  let I := fun (rest : List (Σ _ : COutPoint, CCoinsCacheEntry)) (s' : CCoinsViewCache) =>
    rest.NodupKeys ∧ CacheInv base s' ∧ (∀ x ∈ rest, EntryInv (view base s') x) ∧
      overlay rest (view base s') = overlay l (view base s)
  have hstep : ∀ x rest s', I (x :: rest) s' →
      ∃ s'', batchWriteEntry usage s' x.1 x.2 = .ok s'' ∧ I rest s'' := by
    rintro ⟨o, e⟩ rest s' ⟨hnd, hs', hrest, hov⟩
    obtain ⟨ho, hnd'⟩ := List.nodupKeys_cons.mp hnd
    obtain ⟨s'', h, hs'', hview⟩ := batchWriteEntry_spec usage hs' (hrest _ List.mem_cons_self)
    refine ⟨s'', h, hnd', hs'', fun x hx => ?_, ?_⟩
    · -- the view changed at `o` alone, where the rest have no entry
      have hne : x.1 ≠ o := fun h => ho (h ▸ List.mem_keys.mpr ⟨x.2, hx⟩)
      obtain ⟨hfresh, hclean⟩ := hrest x (List.mem_cons_of_mem _ hx)
      rw [EntryInv, hview, Function.update_of_ne hne]
      exact ⟨hfresh, hclean⟩
    · rw [hview, ← overlay_cons ho, hov]
  obtain ⟨s', h, -, hs', -, hov⟩ := Except.foldlM_eq_ok_of_step I hstep ⟨hnd, hs, hl, rfl⟩
  exact ⟨s', h, hs', hov⟩

/-- **`BatchWrite`.** A child's map whose entries agree with this cache's view is merged without
a throw; the invariant holds after it, and the view is the child's entries over the view
before. -/
theorem BatchWrite_spec (hs : CacheInv base s) {mapCoins : CCoinsMap} (hashBlockIn : Uint256)
    (hm : ∀ x ∈ mapCoins.entries, EntryInv (view base s) x) :
    ∃ s', BatchWrite usage s mapCoins hashBlockIn = .ok s' ∧ CacheInv base s' ∧
      view base s' = overlay mapCoins.entries (view base s) := by
  obtain ⟨s', hfold, hs', hview⟩ :=
    foldlM_batchWriteEntry_spec usage mapCoins.entries s mapCoins.nodupKeys hs hm
  refine ⟨{ s' with hashBlock := hashBlockIn }, by simp [BatchWrite, hfold], ⟨hs'.fresh, hs'.clean⟩,
    hview⟩

/-! ## Runs of calls -/

/-- The calls a user of the cache makes, and the merge of a child's map that a child's `Flush`
makes. -/
inductive CacheOp where
  | GetCoin (o : COutPoint)
  | AccessCoin (o : COutPoint)
  | HaveCoin (o : COutPoint)
  | AddCoin (o : COutPoint) (coin : Coin) (possible_overwrite : Bool)
  | SpendCoin (o : COutPoint)
  | Uncache (o : COutPoint)
  | BatchWrite (mapCoins : CCoinsMap) (hashBlockIn : Uint256)

/-- One call on the cache, its answer dropped. -/
def step (usage : Coin → ℕ) (base : COutPoint → Option Coin) (s : CCoinsViewCache) :
    CacheOp → Except String CCoinsViewCache
  | .GetCoin o => .ok (GetCoin usage base s o).1
  | .AccessCoin o => .ok (AccessCoin usage base s o).1
  | .HaveCoin o => .ok (HaveCoin usage base s o).1
  | .AddCoin o coin possible_overwrite => AddCoin usage s o coin possible_overwrite
  | .SpendCoin o => .ok (SpendCoin usage base s o).1
  | .Uncache o => .ok (Uncache usage s o)
  | .BatchWrite mapCoins hashBlockIn => BatchWrite usage s mapCoins hashBlockIn

namespace CacheOp

/-- The same call on a map from outpoints to coins. -/
def apply (m : COutPoint → Option Coin) : CacheOp → COutPoint → Option Coin
  | .AddCoin o coin _ =>
    if IsUnspendable coin.out.scriptPubKey then m else Function.update m o (some coin)
  | .SpendCoin o => Function.update m o none
  | .BatchWrite mapCoins _ => overlay mapCoins.entries m
  | _ => m

/-- What a caller must see to: an unspent coin to add, and none in place to add without
`possible_overwrite`; a child's map to merge that agrees with the map. -/
def Allowed (m : COutPoint → Option Coin) : CacheOp → Prop
  | .AddCoin o coin possible_overwrite => coin.IsSpent = false ∧ (possible_overwrite = false → m o = none)
  | .BatchWrite mapCoins _ => ∀ x ∈ mapCoins.entries, EntryInv m x
  | _ => True

/-- Every call of a run allowed on the map the calls before it built. -/
def AllowedRun : (COutPoint → Option Coin) → List CacheOp → Prop
  | _, [] => True
  | m, op :: ops => op.Allowed m ∧ AllowedRun (op.apply m) ops

end CacheOp

/-- The step lemma: an allowed call keeps the invariant and acts on the view as on the map. -/
theorem step_spec (hs : CacheInv base s) {op : CacheOp} (hop : op.Allowed (view base s)) :
    ∃ s', step usage base s op = .ok s' ∧ CacheInv base s' ∧ view base s' = op.apply (view base s) := by
  cases op with
  | GetCoin o => exact ⟨_, rfl, hs.FetchCoin usage, view_FetchCoin usage⟩
  | AccessCoin o => exact ⟨_, rfl, hs.FetchCoin usage, view_FetchCoin usage⟩
  | HaveCoin o => exact ⟨_, rfl, hs.FetchCoin usage, view_FetchCoin usage⟩
  | AddCoin o coin possible_overwrite => exact AddCoin_spec usage hs hop.1 hop.2
  | SpendCoin o =>
    obtain ⟨hinv, hview, -⟩ := SpendCoin_spec usage (o := o) hs
    exact ⟨_, rfl, hinv, hview⟩
  | Uncache o =>
    obtain ⟨hinv, hview⟩ := Uncache_spec usage (o := o) hs
    exact ⟨_, rfl, hinv, hview⟩
  | BatchWrite mapCoins hashBlockIn => exact BatchWrite_spec usage hs hashBlockIn hop

/-- The run lemma, from any cache that keeps the invariant: the loop's invariant, indexed by the
calls still to make, is the cache's invariant, the rest of the run allowed on its view, and the
map the rest builds from its view the one the whole run builds. -/
theorem foldlM_step_spec (ops : List CacheOp) (s : CCoinsViewCache) (hs : CacheInv base s)
    (hrun : CacheOp.AllowedRun (view base s) ops) :
    ∃ s', ops.foldlM (step usage base) s = .ok s' ∧ CacheInv base s' ∧
      view base s' = ops.foldl CacheOp.apply (view base s) := by
  let I := fun (ops' : List CacheOp) (s' : CCoinsViewCache) =>
    CacheInv base s' ∧ CacheOp.AllowedRun (view base s') ops' ∧
      ops'.foldl CacheOp.apply (view base s') = ops.foldl CacheOp.apply (view base s)
  have hstep : ∀ op ops' s', I (op :: ops') s' → ∃ s'', step usage base s' op = .ok s'' ∧ I ops' s'' := by
    rintro op ops' s' ⟨hs', ⟨hop, hrest⟩, hfold⟩
    obtain ⟨s'', h, hs'', hview⟩ := step_spec usage hs' hop
    refine ⟨s'', h, hs'', hview ▸ hrest, ?_⟩
    rw [hview, ← hfold, List.foldl_cons]
  obtain ⟨s', h, hs', -, hfold⟩ := Except.foldlM_eq_ok_of_step I hstep ⟨hs, hrun, rfl⟩
  exact ⟨s', h, hs', hfold⟩

/-- **The cache refines a map.** Along any run of calls from an empty cache over any base, in
which every `AddCoin` adds an unspent coin and, without `possible_overwrite`, adds where the map
has none, and every child's map merged agrees with the map, no call throws, the invariant holds,
and the cache's view is the map the same calls build from the base's. -/
theorem run_refines_map (hashBlock : Uint256) (ops : List CacheOp)
    (hrun : CacheOp.AllowedRun (baseView base) ops) :
    ∃ s, ops.foldlM (step usage base) ⟨hashBlock, ∅, 0⟩ = .ok s ∧ CacheInv base s ∧
      view base s = ops.foldl CacheOp.apply (baseView base) := by
  have h := foldlM_step_spec usage ops ⟨hashBlock, ∅, 0⟩ (cacheInv_empty hashBlock 0)
    (by rwa [view_empty])
  rwa [view_empty] at h

/-- The coins of the runs below, and a base that holds the first. -/
def sampleCoin : Coin := ⟨⟨5, []⟩, false, 1⟩

def sampleCoin' : Coin := ⟨⟨7, [0x51]⟩, true, 2⟩

def sampleBase (o : COutPoint) : Option Coin := if o = sampleOutPoint 0 then some sampleCoin else none

/-- The base's coin spent, then a new one added at the same outpoint without
`possible_overwrite`: allowed, because the map has none there after the spend. -/
theorem run_refines_map_spend_then_add :
    ∃ s, [CacheOp.SpendCoin (sampleOutPoint 0), .AddCoin (sampleOutPoint 0) sampleCoin' false,
        .GetCoin (sampleOutPoint 0)].foldlM
        (step (fun _ => 1) sampleBase)
        ⟨⟨List.replicate 32 0, List.length_replicate⟩, ∅, 0⟩ = .ok s ∧
      CacheInv sampleBase s ∧
      view sampleBase s =
        [CacheOp.SpendCoin (sampleOutPoint 0), .AddCoin (sampleOutPoint 0) sampleCoin' false,
          .GetCoin (sampleOutPoint 0)].foldl CacheOp.apply
          (baseView sampleBase) :=
  run_refines_map (fun _ => 1) ⟨List.replicate 32 0, List.length_replicate⟩ _
    ⟨trivial, ⟨by decide, fun _ => by simp only [CacheOp.apply, Function.update_self]⟩, trivial,
      trivial⟩

/-! ## Flushing into a parent cache -/

/-- **`Flush` keeps the view of the stack.** A child cache that keeps its invariant over a
parent cache's view, flushed into a parent that keeps its own, never throws; the parent keeps
its invariant, the child is left empty, and the child seen over the parent shows what it showed
before. -/
theorem Flush_preserves_view {p c : CCoinsViewCache} (hp : CacheInv base p)
    (hc : CacheInv (view base p) c) :
    ∃ p' c', Flush usage p c = .ok (p', c') ∧ c'.cacheCoins = ∅ ∧ CacheInv base p' ∧
      view (view base p') c' = view (view base p) c := by
  have hentries : ∀ x ∈ c.cacheCoins.entries, EntryInv (view base p) x := by
    intro x hx
    have h := hc.entryInv x hx
    rwa [baseView_view] at h
  obtain ⟨p', hbatch, hp', hview⟩ := BatchWrite_spec usage hp c.hashBlock hentries
  refine ⟨p', { c with cacheCoins := ∅, cachedCoinsUsage := 0 },
    by simp [Flush, hbatch], rfl, hp', ?_⟩
  -- the emptied child shows the parent, which now shows the child's entries over its old view
  rw [view_empty, baseView_view, hview]
  exact congrArg (overlay c.cacheCoins.entries) (baseView_view p).symm

/-- A parent that spent the base's coin, and a child that added a fresh one at the same
outpoint: the child's entry is merged over the parent's spent one. -/
def spentParent : CCoinsViewCache :=
  CCoinsViewCache.setEntry ⟨⟨List.replicate 32 3, List.length_replicate⟩, ∅, 0⟩ (sampleOutPoint 0)
    ⟨sampleCoin.Clear, true, false⟩ 1

def freshChild : CCoinsViewCache :=
  CCoinsViewCache.setEntry ⟨⟨List.replicate 32 2, List.length_replicate⟩, ∅, 0⟩ (sampleOutPoint 0)
    ⟨sampleCoin', true, true⟩ 1

theorem Flush_preserves_view_fresh_over_spent :
    ∃ p' c', Flush (fun _ => 1) spentParent freshChild = .ok (p', c') ∧ c'.cacheCoins = ∅ ∧
      CacheInv sampleBase p' ∧
      view (view sampleBase p') c' =
        view (view sampleBase spentParent)
          freshChild :=
  Flush_preserves_view (fun _ => 1)
    ((cacheInv_empty _ 0).setEntry 1 (fun h => by cases h) (fun h => by cases h))
    ((cacheInv_empty _ 0).setEntry 1
      (fun _ => by rw [baseView_view, spentParent, view_setEntry, Function.update_self]; rfl)
      (fun h => by cases h))

/-! ## The memory the coins use

`cachedCoinsUsage` is kept by hand: each operation subtracts what the entry it replaces used and
adds what the new one uses. It stays the sum over the map provided a spent coin, cleared to
`Coin()`, uses nothing, as a cleared script does: `CScript::clear` shrinks it back into the
inline storage of its `prevector`. -/

/-- What the coins of a map use. -/
def totalUsage (m : CCoinsMap) : ℕ := (m.entries.map fun x => usage x.2.coin).sum

/-- What the coin of the entry at `o` uses, nothing without an entry. -/
def entryUsage (m : CCoinsMap) (o : COutPoint) : ℕ :=
  AList.lookupSum (fun x => usage x.2.coin) m o

/-- `cachedCoinsUsage` is what the coins of the map use. -/
def UsageInv (s : CCoinsViewCache) : Prop := s.cachedCoinsUsage = totalUsage usage s.cacheCoins

theorem usageInv_empty (hashBlock : Uint256) : UsageInv usage ⟨hashBlock, ∅, 0⟩ := rfl

theorem entryUsage_of_lookup {m : CCoinsMap} {e : CCoinsCacheEntry} (h : m.lookup o = some e) :
    entryUsage usage m o = usage e.coin :=
  AList.lookupSum_of_lookup _ m o h

theorem entryUsage_of_lookup_none {m : CCoinsMap} (h : m.lookup o = none) :
    entryUsage usage m o = 0 :=
  AList.lookupSum_of_lookup_none _ m o h

theorem totalUsage_setEntry (e : CCoinsCacheEntry) (u : ℕ) :
    totalUsage usage (s.setEntry o e u).cacheCoins + entryUsage usage s.cacheCoins o =
      totalUsage usage s.cacheCoins + usage e.coin :=
  AList.sum_map_insert_add _ s.cacheCoins o e

theorem totalUsage_eraseEntry (u : ℕ) :
    totalUsage usage (s.eraseEntry o u).cacheCoins + entryUsage usage s.cacheCoins o =
      totalUsage usage s.cacheCoins :=
  AList.sum_map_erase_add _ s.cacheCoins o

namespace UsageInv

variable {usage}

/-- An entry's coin uses no more than the whole map: subtracting it never wraps. -/
theorem entryUsage_le (hs : UsageInv usage s) : entryUsage usage s.cacheCoins o ≤ s.cachedCoinsUsage := by
  have h := totalUsage_eraseEntry usage (s := s) (o := o) 0
  rw [hs]
  omega

theorem setEntry (hs : UsageInv usage s) {e : CCoinsCacheEntry} {u : ℕ}
    (hu : u + entryUsage usage s.cacheCoins o = s.cachedCoinsUsage + usage e.coin) :
    UsageInv usage (s.setEntry o e u) := by
  have h := totalUsage_setEntry usage (s := s) (o := o) e u
  show u = _
  rw [UsageInv] at hs
  omega

theorem eraseEntry (hs : UsageInv usage s) {u : ℕ}
    (hu : u + entryUsage usage s.cacheCoins o = s.cachedCoinsUsage) :
    UsageInv usage (s.eraseEntry o u) := by
  have h := totalUsage_eraseEntry usage (s := s) (o := o) u
  show u = _
  rw [UsageInv] at hs
  omega

/-- Replacing the entry at `o`, as every operation does, by subtracting the old coin's usage and
adding the new one's. -/
theorem replaceEntry (hs : UsageInv usage s) (e : CCoinsCacheEntry) :
    UsageInv usage (s.setEntry o e (s.cachedCoinsUsage - entryUsage usage s.cacheCoins o + usage e.coin)) :=
  hs.setEntry (by have := hs.entryUsage_le (o := o); omega)

theorem removeEntry (hs : UsageInv usage s) :
    UsageInv usage (s.eraseEntry o (s.cachedCoinsUsage - entryUsage usage s.cacheCoins o)) :=
  hs.eraseEntry (by have := hs.entryUsage_le (o := o); omega)

theorem FetchCoin (hs : UsageInv usage s) : UsageInv usage (FetchCoin usage base s o).1 := by
  rcases FetchCoin_cases usage s o with ⟨e, -, h⟩ | ⟨-, -, h⟩ | ⟨tmp, hl, -, h⟩
  · rwa [h]
  · rwa [h]
  · rw [h]
    exact hs.setEntry (by rw [entryUsage_of_lookup_none usage hl]; rfl)

end UsageInv

/-- What `AddCoin` can do: leave an unspendable coin out, or put the coin, dirty, in place of
the entry at its outpoint. -/
theorem AddCoin_eq_ok {coin : Coin} {possible_overwrite : Bool} {s' : CCoinsViewCache}
    (h : AddCoin usage s o coin possible_overwrite = .ok s') :
    (IsUnspendable coin.out.scriptPubKey = true ∧ s' = s) ∨
      ∃ f, s' = s.setEntry o ⟨coin, true, f⟩
        (s.cachedCoinsUsage - entryUsage usage s.cacheCoins o + usage coin) := by
  -- `split_ifs` closes the two throws, which are no success
  rcases hl : s.cacheCoins.lookup o with _ | e
  · simp only [AddCoin, hl] at h
    split_ifs at h with hsp hun
    · exact .inl ⟨hun, (Except.ok.inj h).symm⟩
    · obtain rfl := Except.ok.inj h
      refine .inr ⟨false || (!possible_overwrite && !false), ?_⟩
      rw [entryUsage_of_lookup_none usage hl, Nat.sub_zero]
  · simp only [AddCoin, hl] at h
    split_ifs at h with hsp hun
    · exact .inl ⟨hun, (Except.ok.inj h).symm⟩
    · obtain rfl := Except.ok.inj h
      refine .inr ⟨e.FRESH || (!possible_overwrite && !e.DIRTY), ?_⟩
      rw [entryUsage_of_lookup usage hl]

/-- What an entry merged by `BatchWrite` can do: nothing, drop the entry in place, or put the
child's coin, dirty, in its place. -/
theorem batchWriteEntry_eq_ok {e : CCoinsCacheEntry} {s' : CCoinsViewCache}
    (h : batchWriteEntry usage s o e = .ok s') :
    s' = s ∨ s' = s.eraseEntry o (s.cachedCoinsUsage - entryUsage usage s.cacheCoins o) ∨
      ∃ f, s' = s.setEntry o ⟨e.coin, true, f⟩
        (s.cachedCoinsUsage - entryUsage usage s.cacheCoins o + usage e.coin) := by
  -- `split_ifs` closes the throw, which is no success
  rcases hl : s.cacheCoins.lookup o with _ | us
  · simp only [batchWriteEntry, hl] at h
    split_ifs at h
    · exact .inl (Except.ok.inj h).symm
    · exact .inl (Except.ok.inj h).symm
    · obtain rfl := Except.ok.inj h
      refine .inr (.inr ⟨e.FRESH, ?_⟩)
      rw [entryUsage_of_lookup_none usage hl, Nat.sub_zero]
  · simp only [batchWriteEntry, hl] at h
    split_ifs at h
    · exact .inl (Except.ok.inj h).symm
    · obtain rfl := Except.ok.inj h
      refine .inr (.inl ?_)
      rw [entryUsage_of_lookup usage hl]
    · obtain rfl := Except.ok.inj h
      refine .inr (.inr ⟨us.FRESH, ?_⟩)
      rw [entryUsage_of_lookup usage hl]

namespace UsageInv

variable {usage}

theorem AddCoin (hs : UsageInv usage s) {coin : Coin} {possible_overwrite : Bool}
    {s' : CCoinsViewCache} (h : CCoinsViewCache.AddCoin usage s o coin possible_overwrite = .ok s') :
    UsageInv usage s' := by
  rcases AddCoin_eq_ok usage h with ⟨-, rfl⟩ | ⟨f, rfl⟩
  · exact hs
  · exact hs.replaceEntry _

/-- Spending clears a coin that is not fresh: this is where a cleared coin must use nothing. -/
theorem SpendCoin (hempty : usage coinEmpty = 0) (hs : UsageInv usage s) :
    UsageInv usage (SpendCoin usage base s o).1 := by
  have hs₁ : UsageInv usage (CCoinsViewCache.FetchCoin usage base s o).1 := hs.FetchCoin
  have hsnd := @FetchCoin_snd base s o usage
  rcases hf : CCoinsViewCache.FetchCoin usage base s o with ⟨s₁, _ | e⟩
  · simp only [CCoinsViewCache.SpendCoin, hf]
    rwa [hf] at hs₁
  · rw [hf] at hs₁ hsnd
    dsimp only at hs₁ hsnd
    have hentry : entryUsage usage s₁.cacheCoins o = usage e.coin :=
      entryUsage_of_lookup usage hsnd.symm
    cases hfresh : e.FRESH
    · simp only [CCoinsViewCache.SpendCoin, hf, hfresh, Bool.false_eq_true, if_false]
      -- the cleared coin is `Coin()`, which uses nothing
      refine hs₁.setEntry ?_
      rw [hentry, show e.coin.Clear = coinEmpty from rfl, hempty]
      have := hs₁.entryUsage_le (o := o)
      omega
    · simp only [CCoinsViewCache.SpendCoin, hf, hfresh, if_true]
      refine hs₁.eraseEntry ?_
      rw [hentry]
      have := hs₁.entryUsage_le (o := o)
      omega

theorem Uncache (hs : UsageInv usage s) : UsageInv usage (Uncache usage s o) := by
  rcases hl : s.cacheCoins.lookup o with _ | e
  · simp only [CCoinsViewCache.Uncache, hl]
    exact hs
  · simp only [CCoinsViewCache.Uncache, hl]
    split_ifs
    · have h := hs.removeEntry (o := o)
      rwa [entryUsage_of_lookup usage hl] at h
    · exact hs

theorem BatchWrite (hs : UsageInv usage s) {mapCoins : CCoinsMap} {hashBlockIn : Uint256}
    {s' : CCoinsViewCache} (h : CCoinsViewCache.BatchWrite usage s mapCoins hashBlockIn = .ok s') :
    UsageInv usage s' := by
  obtain ⟨s₁, hfold, hs'⟩ := Except.bind_eq_ok.mp h
  cases hs'
  -- every entry merged keeps the count, whichever of its three cases it takes
  have hs₁ : UsageInv usage s₁ := by
    refine Except.foldlM_inv (UsageInv usage) (fun s x s' hs h => ?_) hs hfold
    rcases batchWriteEntry_eq_ok usage h with rfl | rfl | ⟨f, rfl⟩
    · exact hs
    · exact hs.removeEntry
    · exact hs.replaceEntry _
  exact hs₁

/-- The step lemma: every call that returns keeps the count. -/
theorem step (hempty : usage coinEmpty = 0) (hs : UsageInv usage s) {op : CacheOp}
    {s' : CCoinsViewCache} (h : CCoinsViewCache.step usage base s op = .ok s') : UsageInv usage s' := by
  cases op with
  | GetCoin o => cases h; exact hs.FetchCoin
  | AccessCoin o => cases h; exact hs.FetchCoin
  | HaveCoin o => cases h; exact hs.FetchCoin
  | AddCoin o coin possible_overwrite => exact hs.AddCoin h
  | SpendCoin o => cases h; exact hs.SpendCoin hempty
  | Uncache o => cases h; exact hs.Uncache
  | BatchWrite mapCoins hashBlockIn => exact hs.BatchWrite h

end UsageInv

/-- **The memory count is exact.** Where a cleared coin uses nothing, every run of calls from an
empty cache that returns, whatever the calls and whether or not a caller kept to what they
require, leaves `cachedCoinsUsage` equal to what the coins of the map use: no subtraction of the
source ever wraps, and no entry is counted twice or left out. -/
theorem cachedCoinsUsage_run (hempty : usage coinEmpty = 0) (hashBlock : Uint256)
    (ops : List CacheOp) {s : CCoinsViewCache}
    (hrun : ops.foldlM (step usage base) ⟨hashBlock, ∅, 0⟩ = .ok s) :
    s.cachedCoinsUsage = totalUsage usage s.cacheCoins :=
  Except.foldlM_inv (UsageInv usage) (fun _ _ _ hs h => hs.step hempty h)
    (usageInv_empty usage hashBlock) hrun

/-- The base's coin spent and a coin with a one-byte script added in its place, where a coin uses
the length of its script: the one entry left counts one. -/
theorem cachedCoinsUsage_run_spend_then_add :
    (⟨⟨List.replicate 32 0, List.length_replicate⟩,
        AList.singleton (sampleOutPoint 0) ⟨sampleCoin', true, false⟩, 1⟩ :
        CCoinsViewCache).cachedCoinsUsage =
      totalUsage (fun c => c.out.scriptPubKey.length)
        (AList.singleton (sampleOutPoint 0) ⟨sampleCoin', true, false⟩) :=
  @cachedCoinsUsage_run sampleBase (fun c => c.out.scriptPubKey.length) rfl
    ⟨List.replicate 32 0, List.length_replicate⟩
    [.SpendCoin (sampleOutPoint 0), .AddCoin (sampleOutPoint 0) sampleCoin' false] _ rfl

end CCoinsViewCache

end Coins

end LightningCash
