import Squirrel.Util.CacheInvariant
import Squirrel.Util.Hash
import Mathlib.Algebra.BigOperators.Fin

/-!
# The sharded cache

`ShardedLRUCache` is sixteen caches, and the upper four bits of the hash of a key say which of them
its entry belongs to. A handle is a pointer to an entry, here the shard that the entry was allocated
by and its number there. `Release` reads the hash of the entry through the handle to find the shard.

Clients of the cache own what they insert through the cache: a value is deleted when its entry is.
With values that are all different (`Numbered`), the deleter has been called for a value if the
entry is neither cached nor held, and otherwise not.

## Main definitions

* `ShardedLRUCache.Inv` — the invariant, for the handles that are held

## Main results

* `Inv.lookup`, `Inv.insert`, `Inv.release`, `Inv.destroy` — what the operations do to it
* `Inv.unreleased_eq` — the handles that are held are those that the reference counts count
* `Numbered.count_deletedValues` — how often a value has been deleted
-/

namespace Squirrel

open Function (update)

def kNumShardBits : ℕ := 4

abbrev kNumShards : ℕ := 2 ^ 4

/-- A `Cache::Handle*`. -/
structure Handle where
  shard : Fin kNumShards
  entry : ℕ
  deriving DecidableEq

structure ShardedLRUCache where
  shard : Fin kNumShards → LRUCache
  lastId : ℕ

namespace ShardedLRUCache

/-- `HashSlice`. -/
def hashSlice (s : Bytes) : ℕ := (Squirrel.hash s 0).toNat

/-- `Shard`. -/
def shardOf (hash : ℕ) : Fin kNumShards := Fin.ofNat kNumShards (hash >>> (32 - kNumShardBits))

/-- The constructor. The sum is a `size_t`. -/
def new (capacity : ℕ) : ShardedLRUCache :=
  let perShard := (capacity + (kNumShards - 1)) % 2 ^ 64 / kNumShards
  ⟨fun _ => .new perShard, 0⟩

def setShard (c : ShardedLRUCache) (s : Fin kNumShards) (shard : LRUCache) : ShardedLRUCache :=
  { c with shard := update c.shard s shard }

/-- What a handle points to. -/
def entry (c : ShardedLRUCache) (h : Handle) : LRUEntry := (c.shard h.shard).entry h.entry

def insert (c : ShardedLRUCache) (key : Bytes) (value charge deleter : ℕ) :
    Option (Handle × ShardedLRUCache) := do
  let hash := hashSlice key
  let (e, shard) ← (c.shard (shardOf hash)).insert key hash value charge deleter
  some (⟨shardOf hash, e⟩, c.setShard (shardOf hash) shard)

def lookup (c : ShardedLRUCache) (key : Bytes) : Option (Option Handle × ShardedLRUCache) := do
  let hash := hashSlice key
  let (e, shard) ← (c.shard (shardOf hash)).lookup key hash
  some (e.map fun e => ⟨shardOf hash, e⟩, c.setShard (shardOf hash) shard)

/-- `Release`, which fails for an entry that has been freed. -/
def release (c : ShardedLRUCache) (h : Handle) : Option ShardedLRUCache := do
  if (c.shard h.shard).live h.entry ∧ shardOf (c.entry h).hash = h.shard then
    some (c.setShard h.shard (← (c.shard h.shard).release h.entry))
  else none

/-- `Value`, which fails for an entry that has been freed. -/
def value (c : ShardedLRUCache) (h : Handle) : Option ℕ :=
  if (c.shard h.shard).live h.entry then some (c.entry h).value else none

def newId (c : ShardedLRUCache) : ℕ × ShardedLRUCache :=
  ((c.lastId + 1) % 2 ^ 64, { c with lastId := (c.lastId + 1) % 2 ^ 64 })

/-- The destructor destroys the shards from the last to the first. -/
def destroy (c : ShardedLRUCache) : Option ShardedLRUCache :=
  (List.finRange kNumShards).reverse.foldlM
    (fun c s => do some (c.setShard s (← (c.shard s).destroy))) c

/-! ### Handles -/

/-- The handles of one shard. -/
def entriesOf (s : Fin kNumShards) (held : List Handle) : List ℕ :=
  held.filterMap fun h => if h.shard = s then some h.entry else none

variable {c c' : ShardedLRUCache} {order : Fin kNumShards → List ℕ} {held : List Handle}
  {s : Fin kNumShards} {x y : Handle}

theorem entriesOf_cons_self (x : Handle) (held : List Handle) :
    entriesOf x.shard (x :: held) = x.entry :: entriesOf x.shard held := by
  rw [entriesOf, List.filterMap_cons, if_pos rfl]
  rfl

theorem entriesOf_cons_of_ne (hne : s ≠ x.shard) (held : List Handle) :
    entriesOf s (x :: held) = entriesOf s held := by
  rw [entriesOf, List.filterMap_cons, if_neg hne.symm]
  rfl

theorem mem_entriesOf {e : ℕ} : e ∈ entriesOf s held ↔ (⟨s, e⟩ : Handle) ∈ held := by
  rw [entriesOf, List.mem_filterMap]
  constructor
  · rintro ⟨x, hx, he⟩
    split at he
    · next hs =>
      obtain rfl := Option.some.inj he
      subst hs
      exact hx
    · cases he
  · intro hmem
    exact ⟨⟨s, e⟩, hmem, if_pos rfl⟩

theorem count_entriesOf (x : Handle) (held : List Handle) :
    (entriesOf x.shard held).count x.entry = held.count x := by
  induction held with
  | nil => rfl
  | cons y held ih =>
    by_cases hs : x.shard = y.shard
    · rw [hs, entriesOf_cons_self, List.count_cons, List.count_cons, ← hs, ih]
      have hiff : (y.entry == x.entry) = (y == x) := by
        rw [Bool.eq_iff_iff, beq_iff_eq, beq_iff_eq]
        constructor
        · intro he
          cases x
          cases y
          exact congrArg₂ Handle.mk hs.symm he
        · rintro rfl
          rfl
      rw [hiff]
    · rw [entriesOf_cons_of_ne hs, ih, List.count_cons_of_ne]
      rintro rfl
      exact hs rfl

theorem entriesOf_erase_self (x : Handle) (held : List Handle) :
    entriesOf x.shard (held.erase x) = (entriesOf x.shard held).erase x.entry := by
  induction held with
  | nil => rfl
  | cons y held ih =>
    by_cases hxy : y = x
    · subst hxy
      rw [List.erase_cons_head, entriesOf_cons_self, List.erase_cons_head]
    · rw [List.erase_cons_tail (by simpa using hxy)]
      by_cases hs : x.shard = y.shard
      · have he : y.entry ≠ x.entry := by
          intro he
          apply hxy
          cases x
          cases y
          exact congrArg₂ Handle.mk hs.symm he
        rw [hs, entriesOf_cons_self, entriesOf_cons_self, ← hs, ih,
          List.erase_cons_tail (by simpa using he)]
      · rw [entriesOf_cons_of_ne hs, entriesOf_cons_of_ne hs, ih]

theorem entriesOf_erase_of_ne (hne : s ≠ x.shard) (held : List Handle) :
    entriesOf s (held.erase x) = entriesOf s held := by
  induction held with
  | nil => rfl
  | cons y held ih =>
    by_cases hxy : y = x
    · subst hxy
      rw [List.erase_cons_head, entriesOf_cons_of_ne hne]
    · rw [List.erase_cons_tail (by simpa using hxy)]
      by_cases hs : s = y.shard
      · rw [hs, entriesOf_cons_self, entriesOf_cons_self, ← hs, ih]
      · rw [entriesOf_cons_of_ne hs, entriesOf_cons_of_ne hs, ih]

/-! ### The invariant -/

/-- The handle has been returned by `Insert` at some time. -/
def Allocated (c : ShardedLRUCache) (x : Handle) : Prop :=
  0 < x.entry ∧ x.entry < (c.shard x.shard).fresh

/-- The entry is in the list of its shard. -/
def Cached (order : Fin kNumShards → List ℕ) (x : Handle) : Prop := x.entry ∈ order x.shard

instance (order : Fin kNumShards → List ℕ) (x : Handle) : Decidable (Cached order x) :=
  inferInstanceAs (Decidable (_ ∈ _))

/-- The shards list the entries `order`, and the handles `held` are in other hands. -/
structure Inv (c : ShardedLRUCache) (order : Fin kNumShards → List ℕ) (held : List Handle) :
    Prop where
  shard : ∀ s, LRUCache.Inv hashSlice (c.shard s) (order s) (entriesOf s held)
  home : ∀ x, c.Allocated x → shardOf (c.entry x).hash = x.shard

/-- What an operation that allocates nothing leaves alone. -/
structure Keeps (c c' : ShardedLRUCache) : Prop where
  entry_eq : c'.entry = c.entry
  allocated_iff : ∀ x, c'.Allocated x ↔ c.Allocated x
  lastId_eq : c'.lastId = c.lastId

theorem Keeps.refl (c : ShardedLRUCache) : Keeps c c := ⟨rfl, fun _ => Iff.rfl, rfl⟩

/-- What `Lookup` leaves alone. -/
structure Touches (c c' : ShardedLRUCache) : Prop extends Keeps c c' where
  live_eq : ∀ x : Handle, (c'.shard x.shard).live x.entry = (c.shard x.shard).live x.entry
  deleted_eq : ∀ s, (c'.shard s).deleted = (c.shard s).deleted

@[simp] theorem setShard_self (c : ShardedLRUCache) (s : Fin kNumShards) (shard' : LRUCache) :
    (c.setShard s shard').shard s = shard' := Function.update_self ..

theorem setShard_of_ne {t : Fin kNumShards} (hne : t ≠ s) (shard' : LRUCache) :
    (c.setShard s shard').shard t = c.shard t := Function.update_of_ne hne ..

theorem setShard_keeps {shard' : LRUCache} (h : LRUCache.Keeps (c.shard s) shard') :
    Keeps c (c.setShard s shard') := by
  refine ⟨?_, fun x => ?_, rfl⟩
  · funext x
    rw [entry, entry]
    by_cases hx : x.shard = s
    · subst hx
      rw [setShard_self, h.entry_eq]
    · rw [setShard_of_ne hx]
  · rw [Allocated, Allocated]
    by_cases hx : x.shard = s
    · subst hx
      rw [setShard_self, h.fresh_eq]
    · rw [setShard_of_ne hx]

theorem setShard_touches {shard' : LRUCache} (h : LRUCache.Keeps (c.shard s) shard')
    (hlive : shard'.live = (c.shard s).live) (hdeleted : shard'.deleted = (c.shard s).deleted) :
    Touches c (c.setShard s shard') where
  toKeeps := setShard_keeps h
  live_eq x := by
    by_cases hx : x.shard = s
    · subst hx
      rw [setShard_self, hlive]
    · rw [setShard_of_ne hx]
  deleted_eq t := by
    by_cases ht : t = s
    · subst ht
      rw [setShard_self, hdeleted]
    · rw [setShard_of_ne ht]

theorem inv_new (capacity : ℕ) : Inv (new capacity) (fun _ => []) [] where
  shard _ := LRUCache.inv_new hashSlice _
  home _ hx := absurd hx.2 (Nat.not_lt.mpr hx.1)

namespace Inv

theorem allocated (h : Inv c order held) (hx : x ∈ held ∨ Cached order x) : c.Allocated x := by
  refine (h.shard x.shard).counts.alloc x.entry ?_
  rcases hx with hx | hx
  · exact List.mem_append_left _ (mem_entriesOf.mpr hx)
  · exact List.mem_append_right _ hx

theorem live (h : Inv c order held) (hx : x ∈ held ∨ Cached order x) :
    (c.shard x.shard).live x.entry = true := by
  refine (h.shard x.shard).counts.live_of_mem ?_
  rcases hx with hx | hx
  · exact List.mem_append_left _ (mem_entriesOf.mpr hx)
  · exact List.mem_append_right _ hx

theorem perm (h : Inv c order held) {held' : List Handle} (hperm : held.Perm held') :
    Inv c order held' where
  shard s :=
    ⟨(h.shard s).counts.perm ((hperm.filterMap _).append_right _), (h.shard s).ring,
      (h.shard s).table⟩
  home := h.home

/-- **References**: one for each handle, and one for the list. -/
theorem refs (h : Inv c order held) (hx : c.Allocated x) :
    (c.shard x.shard).refs x.entry = held.count x + if Cached order x then 1 else 0 := by
  have hshard := h.shard x.shard
  rw [hshard.counts.refs x.entry hx.1 hx.2, List.count_append, count_entriesOf]
  by_cases hmem : Cached order x
  · rw [if_pos hmem, List.count_eq_one_of_mem hshard.table.nodup hmem]
  · rw [if_neg hmem, List.count_eq_zero_of_not_mem hmem]

theorem value_eq (h : Inv c order held) (hx : x ∈ held ∨ Cached order x) :
    c.value x = some (c.entry x).value := if_pos (h.live hx)

/-- One shard changes, and the handles into it. -/
theorem setShard (h : Inv c order held) {shard' : LRUCache} {order' : List ℕ} {held' : List Handle}
    (hshard : LRUCache.Inv hashSlice shard' order' (entriesOf s held'))
    (hrest : ∀ t, t ≠ s → entriesOf t held' = entriesOf t held)
    (hhome : ∀ x, (c.setShard s shard').Allocated x →
      shardOf ((c.setShard s shard').entry x).hash = x.shard) :
    Inv (c.setShard s shard') (update order s order') held' where
  home := hhome
  shard t := by
    by_cases ht : t = s
    · subst ht
      rw [setShard_self, Function.update_self]
      exact hshard
    · rw [setShard_of_ne ht, Function.update_of_ne ht, hrest t ht]
      exact h.shard t

theorem home_keeps (h : Inv c order held) (hkeeps : Keeps c c') (x : Handle)
    (hx : c'.Allocated x) : shardOf (c'.entry x).hash = x.shard := by
  rw [hkeeps.entry_eq]
  exact h.home x ((hkeeps.allocated_iff x).mp hx)

/-- A cached entry is in the shard of its key. -/
theorem shardOf_key (h : Inv c order held) (hx : Cached order x) :
    shardOf (hashSlice (c.entry x).key) = x.shard := by
  have hhash : (c.entry x).hash = hashSlice (c.entry x).key :=
    (h.shard x.shard).table.hashes x.entry hx
  rw [← hhash]
  exact h.home x (h.allocated (.inr hx))

theorem eq_of_key (h : Inv c order held) (hx : Cached order x) (hy : Cached order y)
    (hkey : (c.entry x).key = (c.entry y).key) : x = y := by
  have hs : x.shard = y.shard := by rw [← h.shardOf_key hx, ← h.shardOf_key hy, hkey]
  obtain ⟨s, a⟩ := x
  obtain ⟨t, b⟩ := y
  obtain rfl : s = t := hs
  exact congrArg (Handle.mk s) ((h.shard s).table.eq_of_key hx hy hkey)

/-- **`Lookup`.** The reference count is kept as long as it fits in 32 bits. -/
theorem lookup (h : Inv c order held) (k : Bytes) :
    (∃ x c', c.lookup k = some (some x, c') ∧ Cached order x ∧ (c.entry x).key = k ∧ Touches c c' ∧
      (c'.shard x.shard).refs x.entry = ((c.shard x.shard).refs x.entry + 1) % 2 ^ 32 ∧
      (held.count x + 2 < 2 ^ 32 → ∃ order', Inv c' order' (x :: held) ∧
        ∀ y, Cached order' y ↔ Cached order y)) ∨
    c.lookup k = some (none, c) ∧ ∀ x, Cached order x → (c.entry x).key ≠ k := by
  generalize hs : shardOf (hashSlice k) = s
  rcases (h.shard s).lookup k with
    ⟨e, he, next', prev', -, hkey, hlook, hinv⟩ | ⟨hlook, hnone⟩
  · left
    obtain ⟨shard', hshard', htouches, hrefs, hinv⟩ : ∃ shard', (c.shard s).lookup k (hashSlice k)
        = some (some e, shard') ∧ Touches c (c.setShard s shard') ∧
        shard'.refs e = ((c.shard s).refs e + 1) % 2 ^ 32 ∧
        ((entriesOf s held).count e + 2 < 2 ^ 32 →
          LRUCache.Inv hashSlice shard' ((order s).erase e ++ [e]) (e :: entriesOf s held)) :=
      ⟨_, hlook, setShard_touches ⟨rfl, rfl, rfl⟩ rfl rfl, Function.update_self .., hinv⟩
    refine ⟨⟨s, e⟩, c.setShard s shard', ?_, he, hkey, htouches, ?_, fun hfew => ?_⟩
    · rw [ShardedLRUCache.lookup]
      dsimp only
      rw [hs, hshard']
      rfl
    · rw [setShard_self]
      exact hrefs
    · rw [← count_entriesOf] at hfew
      have hset : Inv (c.setShard s shard') (update order s ((order s).erase e ++ [e]))
          (⟨s, e⟩ :: held) := by
        refine h.setShard ?_ (fun t ht => entriesOf_cons_of_ne ht held)
          (h.home_keeps htouches.toKeeps)
        rw [show entriesOf s (⟨s, e⟩ :: held) = _ from entriesOf_cons_self ⟨s, e⟩ held]
        exact hinv hfew
      refine ⟨_, hset, fun y => ?_⟩
      rw [Cached, Cached]
      by_cases hy : y.shard = s
      · rw [hy, Function.update_self]
        exact ((List.perm_append_singleton e _).trans (List.perm_cons_erase he).symm).mem_iff
      · rw [Function.update_of_ne hy]
  · right
    refine ⟨?_, fun x hx hk => ?_⟩
    · rw [ShardedLRUCache.lookup]
      dsimp only
      rw [hs, hlook]
      have hself : c.setShard s (c.shard s) = c := by
        rw [ShardedLRUCache.setShard, Function.update_eq_self]
      exact congrArg (fun c' => some (none, c')) hself
    · have hhome := h.shardOf_key hx
      rw [hk, hs] at hhome
      refine hnone x.entry ?_ ?_
      · rw [hhome]
        exact hx
      · rw [hhome]
        exact hk

/-- **`Insert`.** -/
theorem insert (h : Inv c order held) (k : Bytes) (value charge deleter : ℕ)
    (hcharge : charge < 2 ^ 64) (hfew : (c.shard (shardOf (hashSlice k))).elems < 2 ^ 31) :
    ∃ x c' order', c.insert k value charge deleter = some (x, c') ∧ Inv c' order' (x :: held) ∧
      ¬ c.Allocated x ∧ (∀ y, c'.Allocated y ↔ y = x ∨ c.Allocated y) ∧
      c'.entry = update c.entry x ⟨value, deleter, charge, k, hashSlice k⟩ ∧
      c'.lastId = c.lastId ∧ ∀ y, Cached order' y → y = x ∨ Cached order y := by
  generalize hs : shardOf (hashSlice k) = s at hfew
  have hshard := h.shard s
  rw [hshard.table.elems] at hfew
  obtain ⟨shard', order', hins, hinv, -, -, hfresh, hentry, -, hold, -⟩ :=
    hshard.insert k value charge deleter hcharge hfew
  obtain ⟨e, he⟩ : ∃ e, (c.shard s).fresh = e := ⟨_, rfl⟩
  rw [he] at hins hinv hfresh hentry hold
  have hallocated : ∀ y, (c.setShard s shard').Allocated y ↔ y = ⟨s, e⟩ ∨ c.Allocated y := by
    intro y
    obtain ⟨t, a⟩ := y
    rw [Allocated, Allocated]
    by_cases ht : t = s
    · subst ht
      have hpos := hshard.counts.fresh
      have hmk : (⟨t, a⟩ : Handle) = ⟨t, e⟩ ↔ a = e := by simp
      rw [setShard_self, hfresh, hmk]
      dsimp only
      omega
    · rw [setShard_of_ne ht]
      have hmk : (⟨t, a⟩ : Handle) ≠ ⟨s, e⟩ := fun heq => ht (congrArg Handle.shard heq)
      simp only [hmk, false_or]
  have hentry' : (c.setShard s shard').entry
      = update c.entry ⟨s, e⟩ ⟨value, deleter, charge, k, hashSlice k⟩ := by
    funext y
    obtain ⟨t, a⟩ := y
    by_cases ht : t = s
    · subst ht
      rw [entry, setShard_self, hentry]
      by_cases ha : a = e
      · subst ha
        rw [Function.update_self, Function.update_self]
      · rw [Function.update_of_ne ha, Function.update_of_ne (by simpa using ha)]
        rfl
    · rw [entry, setShard_of_ne ht,
        Function.update_of_ne fun heq => ht (congrArg Handle.shard heq)]
      rfl
  have hset : Inv (c.setShard s shard') (update order s order') (⟨s, e⟩ :: held) := by
    refine h.setShard ?_ (fun t ht => entriesOf_cons_of_ne ht held) fun y hy => ?_
    · rw [show entriesOf s (⟨s, e⟩ :: held) = _ from entriesOf_cons_self ⟨s, e⟩ held]
      exact hinv
    · rw [hentry']
      by_cases hnew : y = ⟨s, e⟩
      · subst hnew
        rw [Function.update_self]
        exact hs
      · rw [Function.update_of_ne hnew]
        exact h.home y (((hallocated y).mp hy).resolve_left hnew)
  refine ⟨⟨s, e⟩, c.setShard s shard', update order s order', ?_, hset, ?_, hallocated, hentry',
    rfl, ?_⟩
  · rw [ShardedLRUCache.insert]
    dsimp only
    rw [hs, hins]
    rfl
  · rintro ⟨-, hlt⟩
    exact Nat.ne_of_lt hlt he.symm
  · rintro ⟨t, a⟩ hy
    rw [Cached] at hy
    dsimp only at hy
    by_cases ht : t = s
    · subst ht
      rw [Function.update_self] at hy
      rcases hold a hy with rfl | hy
      · exact Or.inl rfl
      · exact Or.inr hy
    · rw [Function.update_of_ne ht] at hy
      exact Or.inr hy

/-- **`Release`.** -/
theorem release (h : Inv c order held) (hx : x ∈ held) :
    ∃ c', c.release x = some c' ∧ Inv c' order (held.erase x) ∧ Keeps c c' := by
  have hlive := h.live (.inl hx)
  have hhome := h.home x (h.allocated (.inl hx))
  obtain ⟨shard', hrel, hinv, hkeeps⟩ := (h.shard x.shard).release (mem_entriesOf.mpr hx)
  have hkeeps' := setShard_keeps hkeeps
  have hset : Inv (c.setShard x.shard shard') (update order x.shard (order x.shard))
      (held.erase x) := by
    refine h.setShard ?_ (fun t ht => entriesOf_erase_of_ne ht held) (h.home_keeps hkeeps')
    rw [entriesOf_erase_self]
    exact hinv
  rw [Function.update_eq_self] at hset
  refine ⟨_, ?_, hset, hkeeps'⟩
  rw [ShardedLRUCache.release, if_pos ⟨hlive, hhome⟩, hrel]
  rfl

end Inv

/-! ### Counting handles -/

/-- The handles of a shard that have not been released: the references that are not its own. -/
def unreleasedIn (c : LRUCache) : ℕ :=
  ∑ e ∈ Finset.Ico 1 c.fresh with c.live e,
    (c.refs e - if c.tableLookup (c.entry e).key (hashSlice (c.entry e).key) = some (some e)
      then 1 else 0)

/-- The handles that have not been released. -/
def unreleased (c : ShardedLRUCache) : ℕ := ∑ s, unreleasedIn (c.shard s)

theorem unreleasedIn_eq {c : LRUCache} {order pins : List ℕ}
    (h : LRUCache.Inv hashSlice c order pins) : unreleasedIn c = pins.length := by
  have hterm : ∀ e ∈ Finset.Ico 1 c.fresh, c.live e = true → (c.refs e
      - if c.tableLookup (c.entry e).key (hashSlice (c.entry e).key) = some (some e) then 1 else 0)
        = pins.count e := by
    intro e he hlive
    obtain ⟨hpos, hlt⟩ := Finset.mem_Ico.mp he
    obtain ⟨r, hr, hsome, hnone⟩ := h.table.lookup h.accessible h.length_lt.le (c.entry e).key
    rw [h.counts.refs e hpos hlt, List.count_append, hr]
    by_cases hmem : e ∈ order
    · have hself : some r = some (some e) := by
        cases r with
        | none => exact absurd rfl (hnone rfl e hmem)
        | some a =>
          obtain ⟨ha, hkey⟩ := hsome a rfl
          rw [h.table.eq_of_key ha hmem hkey]
      rw [if_pos hself, List.count_eq_one_of_mem h.table.nodup hmem, Nat.add_sub_cancel]
    · have hother : some r ≠ some (some e) := by
        intro heq
        exact hmem (hsome e (Option.some.inj heq)).1
      rw [if_neg hother, List.count_eq_zero_of_not_mem hmem, Nat.sub_zero, Nat.add_zero]
  have hsub : pins.toFinset ⊆ (Finset.Ico 1 c.fresh).filter fun e => c.live e = true := by
    intro e he
    have hmem := List.mem_append_left order (List.mem_toFinset.mp he)
    exact Finset.mem_filter.mpr
      ⟨Finset.mem_Ico.mpr (h.counts.alloc e hmem), h.counts.live_of_mem hmem⟩
  rw [unreleasedIn, ← List.sum_toFinset_count_eq_length, Finset.sum_subset hsub]
  · refine Finset.sum_congr rfl fun e he => ?_
    obtain ⟨hIco, hlive⟩ := Finset.mem_filter.mp he
    exact hterm e hIco hlive
  · intro e _ he
    exact List.count_eq_zero_of_not_mem fun hmem => he (List.mem_toFinset.mpr hmem)

theorem sum_length_entriesOf (held : List Handle) :
    ∑ s, (entriesOf s held).length = held.length := by
  induction held with
  | nil => exact Finset.sum_const_zero
  | cons x held ih =>
    have hlen : ∀ s, (entriesOf s (x :: held)).length
        = (entriesOf s held).length + if s = x.shard then 1 else 0 := by
      intro s
      by_cases hs : s = x.shard
      · subst hs
        rw [entriesOf_cons_self, if_pos rfl, List.length_cons]
      · rw [entriesOf_cons_of_ne hs, if_neg hs, Nat.add_zero]
    rw [Finset.sum_congr rfl fun s _ => hlen s, Finset.sum_add_distrib, ih, Finset.sum_ite_eq',
      if_pos (Finset.mem_univ _), List.length_cons]

/-- **The handles that are held are those that have not been released.** -/
theorem Inv.unreleased_eq (h : Inv c order held) : c.unreleased = held.length := by
  rw [unreleased, ← sum_length_entriesOf held]
  exact Finset.sum_congr rfl fun s _ => unreleasedIn_eq (h.shard s)

/-! ### Destruction -/

/-- What destroying some shards does. -/
theorem destroyShards {l : List (Fin kNumShards)} (hl : l.Nodup)
    (hall : ∀ s ∈ l, ∃ shard', (c.shard s).destroy = some shard') :
    ∃ c', l.foldlM (fun c s => do some (c.setShard s (← (c.shard s).destroy))) c = some c' ∧
      (∀ s ∈ l, (c.shard s).destroy = some (c'.shard s)) ∧
      (∀ s, s ∉ l → c'.shard s = c.shard s) ∧ c'.lastId = c.lastId := by
  induction l generalizing c with
  | nil => exact ⟨c, rfl, fun s hs => absurd hs List.not_mem_nil, fun _ _ => rfl, rfl⟩
  | cons s l ih =>
    obtain ⟨hs, hl'⟩ := List.nodup_cons.mp hl
    obtain ⟨shard', hdestroy⟩ := hall s List.mem_cons_self
    have hne : ∀ t ∈ l, t ≠ s := by
      rintro t ht rfl
      exact hs ht
    obtain ⟨c', hfold, hdone, hkept, hid⟩ := ih (c := c.setShard s shard') hl' fun t ht => by
      rw [setShard_of_ne (hne t ht)]
      exact hall t (List.mem_cons_of_mem s ht)
    refine ⟨c', ?_, fun t ht => ?_, fun t ht => ?_, hid⟩
    · rw [List.foldlM_cons, hdestroy]
      exact hfold
    · rcases List.mem_cons.mp ht with rfl | ht
      · rw [hkept t hs, setShard_self]
        exact hdestroy
      · rw [← hdone t ht, setShard_of_ne (hne t ht)]
    · rw [List.mem_cons, not_or] at ht
      rw [hkept t ht.2, setShard_of_ne ht.1]

/-- **The destructor**, when no handle is left. -/
theorem Inv.destroy (h : Inv c order []) :
    ∃ c', c.destroy = some c' ∧ Keeps c c' ∧ ∀ s, LRUCache.Counts (c'.shard s) [] := by
  have hshard : ∀ s, ∃ shard', (c.shard s).destroy = some shard' ∧ LRUCache.Counts shard' [] ∧
      LRUCache.Keeps (c.shard s) shard' := by
    intro s
    obtain ⟨shard', hdestroy, hcounts, hkeeps, -⟩ := LRUCache.Inv.destroy (h.shard s)
    exact ⟨shard', hdestroy, hcounts, hkeeps⟩
  obtain ⟨c', hfold, hdone, -, hid⟩ := destroyShards (c := c)
    (List.nodup_reverse.mpr (List.nodup_finRange kNumShards)) fun s _ =>
      ⟨_, (hshard s).choose_spec.1⟩
  have hafter : ∀ s, LRUCache.Counts (c'.shard s) [] ∧ LRUCache.Keeps (c.shard s) (c'.shard s) := by
    intro s
    obtain ⟨shard', hdestroy, hrest⟩ := hshard s
    have hs := hdone s (List.mem_reverse.mpr (List.mem_finRange s))
    obtain rfl := Option.some.inj (hdestroy.symm.trans hs)
    exact hrest
  refine ⟨c', hfold, ⟨?_, fun x => ?_, hid⟩, fun s => (hafter s).1⟩
  · funext x
    rw [entry, entry, (hafter x.shard).2.entry_eq]
  · rw [Allocated, Allocated, (hafter x.shard).2.fresh_eq]

/-! ### What has been deleted -/

/-- The calls of deleters, shard by shard. -/
def deletions (c : ShardedLRUCache) : List Deletion :=
  (List.finRange kNumShards).flatMap fun s => (c.shard s).deleted

/-- The values that deleters have been called for. -/
def deletedValues (c : ShardedLRUCache) : List ℕ := c.deletions.map Deletion.value

theorem Touches.deletedValues_eq (h : Touches c c') : c'.deletedValues = c.deletedValues := by
  rw [deletedValues, deletedValues, deletions, deletions]
  refine congrArg _ (List.flatMap_congr fun s _ => ?_)
  exact h.deleted_eq s

/-- The values that have been inserted are numbers below `next`, and all different. -/
structure Numbered (c : ShardedLRUCache) (next : ℕ) : Prop where
  lt : ∀ x, c.Allocated x → (c.entry x).value < next
  inj : ∀ x y, c.Allocated x → c.Allocated y → (c.entry x).value = (c.entry y).value → x = y

/-- Who refers to the entries of each shard. -/
def Counted (c : ShardedLRUCache) (R : Fin kNumShards → List ℕ) : Prop :=
  ∀ s, LRUCache.Counts (c.shard s) (R s)

theorem Inv.counted (h : Inv c order held) : Counted c fun s => entriesOf s held ++ order s :=
  fun s => (h.shard s).counts

namespace Numbered

variable {next : ℕ}

theorem new (capacity : ℕ) : Numbered (new capacity) 0 where
  lt _ hx := absurd hx.2 (Nat.not_lt.mpr hx.1)
  inj _ _ hx := absurd hx.2 (Nat.not_lt.mpr hx.1)

theorem keeps (h : Numbered c next) (hkeeps : Keeps c c') : Numbered c' next where
  lt x hx := by
    rw [hkeeps.entry_eq]
    exact h.lt x ((hkeeps.allocated_iff x).mp hx)
  inj x y hx hy := by
    rw [hkeeps.entry_eq]
    exact h.inj x y ((hkeeps.allocated_iff x).mp hx) ((hkeeps.allocated_iff y).mp hy)

theorem mono (h : Numbered c next) {next' : ℕ} (hle : next ≤ next') : Numbered c next' :=
  ⟨fun x hx => (h.lt x hx).trans_le hle, h.inj⟩

/-- One more value. -/
theorem insert (h : Numbered c next) {z : LRUEntry} (hle : next ≤ z.value)
    (hallocated : ∀ y, c'.Allocated y ↔ y = x ∨ c.Allocated y)
    (hentry : c'.entry = update c.entry x z) (hx : ¬ c.Allocated x) :
    Numbered c' (z.value + 1) := by
  have hold : ∀ y, c.Allocated y → c'.entry y = c.entry y := by
    intro y hy
    rw [hentry, Function.update_of_ne]
    rintro rfl
    exact hx hy
  have hnew : c'.entry x = z := by rw [hentry, Function.update_self]
  have hlt : ∀ y, c.Allocated y → (c'.entry y).value < z.value := by
    intro y hy
    rw [hold y hy]
    exact (h.lt y hy).trans_le hle
  constructor
  · intro y hy
    rcases (hallocated y).mp hy with rfl | hy
    · rw [hnew]
      exact Nat.lt_succ_self _
    · exact Nat.lt_succ_of_lt (hlt y hy)
  · intro y y' hy hy' heq
    rcases (hallocated y).mp hy with rfl | hy
    · rcases (hallocated y').mp hy' with rfl | hy'
      · rfl
      · rw [hnew] at heq
        exact absurd heq (Nat.ne_of_gt (hlt y' hy'))
    · rcases (hallocated y').mp hy' with rfl | hy'
      · rw [hnew] at heq
        exact absurd heq (Nat.ne_of_lt (hlt y hy))
      · rw [hold y hy, hold y' hy'] at heq
        exact h.inj y y' hy hy' heq

end Numbered

section

variable {next : ℕ} {R : Fin kNumShards → List ℕ}

/-- A call of a deleter is for an entry that nothing refers to. -/
theorem Counted.of_mem (h : Counted c R) {d : Deletion} (hd : d ∈ (c.shard s).deleted) :
    c.Allocated ⟨s, d.handle⟩ ∧ d.handle ∉ R s ∧ d.value = (c.entry ⟨s, d.handle⟩).value := by
  have hmem : d.handle ∈ (c.shard s).deleted.map Deletion.handle := List.mem_map_of_mem hd
  have hpos := List.count_pos_iff.mpr hmem
  rw [(h s).once] at hpos
  split at hpos
  · next hin => exact ⟨⟨hin.1, hin.2.1⟩, hin.2.2, congrArg Deletion.value ((h s).calls d hd)⟩
  · exact absurd hpos (Nat.lt_irrefl 0)

theorem Counted.of_mem_deletedValues (h : Counted c R) {value : ℕ} (hv : value ∈ c.deletedValues) :
    ∃ x, c.Allocated x ∧ x.entry ∉ R x.shard ∧ value = (c.entry x).value := by
  obtain ⟨d, hd, rfl⟩ := List.mem_map.mp hv
  obtain ⟨s, -, hd⟩ := List.mem_flatMap.mp hd
  exact ⟨⟨s, d.handle⟩, h.of_mem hd⟩

/-- **How often a value has been deleted.** -/
theorem Numbered.count_deletedValues (hn : Numbered c next) (h : Counted c R) (hx : c.Allocated x) :
    c.deletedValues.count (c.entry x).value = if x.entry ∈ R x.shard then 0 else 1 := by
  -- only the calls for `x` itself count, and these are in its shard
  have hcount : ∀ s, ((c.shard s).deleted.map Deletion.value).count (c.entry x).value
      = if s = x.shard then ((c.shard s).deleted.map Deletion.handle).count x.entry else 0 := by
    intro s
    rw [List.count, List.countP_map]
    split
    · next hs =>
      subst hs
      rw [List.count, List.countP_map]
      refine List.countP_congr fun d hd => ?_
      obtain ⟨hallocated, -, hvalue⟩ := h.of_mem hd
      simp only [Function.comp_apply, beq_iff_eq, hvalue]
      constructor
      · intro heq
        exact congrArg Handle.entry (hn.inj _ _ hallocated hx heq)
      · intro heq
        rw [heq]
    · next hs =>
      refine List.countP_eq_zero.mpr fun d hd heq => hs ?_
      obtain ⟨hallocated, -, hvalue⟩ := h.of_mem hd
      simp only [Function.comp_apply, beq_iff_eq, hvalue] at heq
      exact congrArg Handle.shard (hn.inj _ _ hallocated hx heq)
  rw [deletedValues, deletions, List.map_flatMap, List.count_flatMap]
  have hsum : ((List.finRange kNumShards).map (List.count (c.entry x).value ∘
      fun s => (c.shard s).deleted.map Deletion.value)).sum
        = ∑ s, if s = x.shard then
            ((c.shard s).deleted.map Deletion.handle).count x.entry else 0 := by
    rw [Fin.sum_univ_def]
    refine congrArg List.sum (List.map_congr_left fun s _ => ?_)
    exact hcount s
  rw [hsum, Finset.sum_ite_eq', if_pos (Finset.mem_univ _), (h x.shard).once]
  by_cases hmem : x.entry ∈ R x.shard
  · rw [if_pos hmem, if_neg fun hin => hin.2.2 hmem]
  · rw [if_neg hmem, if_pos ⟨hx.1, hx.2, hmem⟩]

end

end ShardedLRUCache

end Squirrel
