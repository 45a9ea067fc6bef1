import Squirrel.Table.BlockCache

/-!
# Who owns the blocks

Every block in memory that has not been deleted belongs to one iterator, or to the cache. The
invariant says so for the iterators over blocks that there are: what iterators own or have deleted
was never given to the cache, and the handles in other hands are those that iterators hold. From it
follows that the block of an iterator is there as long as the iterator is.

It also says what the cache has. A key stands for one block, whoever reads it (`Ledger.Names`), and
each entry that is cached or held has the block of its key.

## Main results

* `BlockMemory.Inv.access_eq`, `BlockMemory.Inv.deleteIterator` — what can be done with an iterator
* `BlockMemory.Inv.lookup_some`, `BlockMemory.Inv.insert` — iterators that hold a handle
* `CachedTable.blockReader_simulates` — `BlockReader` does what it does without a memory
-/

namespace Squirrel

open Coding Block Function

/-- What is known of the cache from outside. -/
structure Ledger where
  /-- There is a cache. -/
  cached : Bool
  /-- The last number that a table has got. -/
  lastId : ℕ
  /-- The blocks that keys stand for. -/
  Names : Bytes → Block → Prop

/-- A shard of the cache is full. -/
def Ledger.Full (g : Ledger) (e : Stop) : Prop := e = .tableFull ∧ g.cached = true

namespace DataIter

/-- The handles that the iterator holds. -/
def handles (it : DataIter) : List Handle := it.cleanup.filterMap fun
  | .deleteBlock _ => none
  | .releaseBlock h => some h

/-- The blocks that the iterator owns. -/
def owned (it : DataIter) : List ℕ := it.cleanup.filterMap fun
  | .deleteBlock b => some b
  | .releaseBlock _ => none

/-- The cleanup function of an iterator is for its block. -/
inductive Owns (c : ShardedLRUCache) : DataIter → Prop
  | nothing (iter : AnyIter) : Owns c ⟨iter, none, []⟩
  | block (iter : AnyIter) (b : ℕ) : Owns c ⟨iter, some b, [.deleteBlock b]⟩
  | handle (iter : AnyIter) (x : Handle) : Owns c ⟨iter, some (c.entry x).value, [.releaseBlock x]⟩

variable {c c' : ShardedLRUCache} {it : DataIter}

theorem Owns.congr (h : it.Owns c) (heq : ∀ x ∈ it.handles, c'.entry x = c.entry x) :
    it.Owns c' := by
  cases h with
  | nothing iter => exact .nothing iter
  | block iter b => exact .block iter b
  | handle iter x =>
    rw [← heq x (List.mem_singleton_self x)]
    exact .handle iter x

theorem Owns.length_handles_le (h : it.Owns c) : it.handles.length ≤ 1 := by
  cases h with
  | nothing iter => exact Nat.zero_le 1
  | block iter b => exact Nat.zero_le 1
  | handle iter x => exact Nat.le_refl 1

end DataIter

namespace BlockMemory

/-- The invariant, with the iterators over blocks that there are. -/
structure Inv (g : Ledger) (m : BlockMemory) (order : Fin kNumShards → List ℕ)
    (its : List DataIter) : Prop where
  isSome_eq : m.blockCache.isSome = g.cached
  lastId_eq : m.cache.lastId = g.lastId
  cache : ShardedLRUCache.Inv m.cache order (its.flatMap DataIter.handles)
  numbered : m.cache.Numbered m.fresh
  owns : ∀ it ∈ its, it.Owns m.cache
  nodup : (its.flatMap DataIter.owned ++ m.deleted).Nodup
  /-- What belongs to iterators was never given to the cache. -/
  apart : ∀ b ∈ its.flatMap DataIter.owned ++ m.deleted,
    b < m.fresh ∧ ∀ x, m.cache.Allocated x → (m.cache.entry x).value ≠ b
  /-- An entry has the block of its key. -/
  names : ∀ x, x ∈ its.flatMap DataIter.handles ∨ ShardedLRUCache.Cached order x →
    g.Names (m.cache.entry x).key (m.block (m.cache.entry x).value)

namespace Inv

variable {g : Ledger} {m : BlockMemory} {order : Fin kNumShards → List ℕ} {its its' : List DataIter}
  {it : DataIter} {b : ℕ} {x : Handle}

theorem perm (h : Inv g m order its) (hperm : its.Perm its') : Inv g m order its' where
  isSome_eq := h.isSome_eq
  lastId_eq := h.lastId_eq
  cache := h.cache.perm (hperm.flatMap_right _)
  numbered := h.numbered
  owns it hit := h.owns it (hperm.mem_iff.mpr hit)
  nodup := ((hperm.flatMap_right DataIter.owned).append_right _).nodup_iff.mp h.nodup
  apart b hb := h.apart b (((hperm.flatMap_right DataIter.owned).append_right _).mem_iff.mpr hb)
  names x hx := h.names x (hx.imp_left (hperm.flatMap_right DataIter.handles).mem_iff.mpr)

/-- More keys stand for blocks. -/
theorem mono (h : Inv g m order its) {Names : Bytes → Block → Prop}
    (hnames : ∀ k block, g.Names k block → Names k block) : Inv { g with Names } m order its :=
  { h with names := fun x hx => hnames _ _ (h.names x hx) }

/-- An iterator moves. -/
theorem move (h : Inv g m order (it :: its)) (iter : AnyIter) :
    Inv g m order ({ it with iter } :: its) where
  isSome_eq := h.isSome_eq
  lastId_eq := h.lastId_eq
  cache := h.cache
  numbered := h.numbered
  owns := by
    intro it' hit'
    rcases List.mem_cons.mp hit' with rfl | hit'
    · cases h.owns it List.mem_cons_self with
      | nothing _ => exact .nothing iter
      | block _ b => exact .block iter b
      | handle _ x => exact .handle iter x
    · exact h.owns it' (List.mem_cons_of_mem it hit')
  nodup := h.nodup
  apart := h.apart
  names := h.names

/-- An iterator that has no block. -/
theorem empty (h : Inv g m order its) (s : Status) :
    Inv g m order (⟨.empty s, none, []⟩ :: its) := by
  refine { h with owns := fun it hit => ?_ }
  rcases List.mem_cons.mp hit with rfl | hit
  · exact .nothing _
  · exact h.owns it hit

/-- The block of an entry that is cached or held is there. -/
theorem isLive_entry (h : Inv g m order its)
    (hx : x ∈ its.flatMap DataIter.handles ∨ ShardedLRUCache.Cached order x) :
    m.isLive (m.cache.entry x).value = true := by
  have hallocated := h.cache.allocated hx
  rw [BlockMemory.isLive, decide_eq_true_iff]
  refine ⟨h.numbered.lt x hallocated, fun hdeleted => ?_, ?_⟩
  · exact (h.apart _ (List.mem_append_right _ hdeleted)).2 x hallocated rfl
  · have hmem : x.entry ∈ ShardedLRUCache.entriesOf x.shard (its.flatMap DataIter.handles)
        ++ order x.shard :=
      List.mem_append.mpr (hx.imp_left ShardedLRUCache.mem_entriesOf.mpr)
    have hcount := h.numbered.count_deletedValues h.cache.counted hallocated
    rw [if_pos hmem] at hcount
    exact List.count_eq_zero.mp hcount

/-- **The block of an iterator is there.** -/
theorem isLive (h : Inv g m order its) (hit : it ∈ its) (hb : it.block = some b) :
    m.isLive b = true := by
  cases h.owns it hit with
  | nothing iter => cases hb
  | block iter b' =>
    obtain rfl := Option.some.inj hb
    have howned : b' ∈ its.flatMap DataIter.owned :=
      List.mem_flatMap.mpr ⟨_, hit, List.mem_singleton_self b'⟩
    obtain ⟨hlt, hne⟩ := h.apart b' (List.mem_append_left _ howned)
    rw [BlockMemory.isLive, decide_eq_true_iff]
    refine ⟨hlt, fun hdeleted => ?_, fun hdeleted => ?_⟩
    · exact (List.nodup_append.mp h.nodup).2.2 b' howned b' hdeleted rfl
    · obtain ⟨x, hx, -, heq⟩ := h.cache.counted.of_mem_deletedValues hdeleted
      exact hne x hx heq.symm
  | handle iter x =>
    obtain rfl := Option.some.inj hb
    exact h.isLive_entry (.inl (List.mem_flatMap.mpr ⟨_, hit, List.mem_singleton_self x⟩))

theorem access_eq (h : Inv g m order its) (hit : it ∈ its) : m.access it = .ok () := by
  rw [access]
  cases hb : it.block with
  | none => rfl
  | some b => exact if_pos (h.isLive hit hb)

theorem newIterator_eq {iter : AnyIter} {function : Cleanup}
    (h : Inv g m order (⟨iter, some b, [function]⟩ :: its)) :
    m.newIterator b function = .ok ⟨(m.block b).newIterator, some b, [function]⟩ :=
  if_pos (h.isLive List.mem_cons_self rfl)

/-- The cache changes, and what it has allocated does not. -/
theorem keeps (h : Inv g m order its) {c' : ShardedLRUCache} {order' : Fin kNumShards → List ℕ}
    (hsome : m.blockCache.isSome = true)
    (hcache : ShardedLRUCache.Inv c' order' (its'.flatMap DataIter.handles))
    (hkeeps : ShardedLRUCache.Keeps m.cache c')
    (hheld : ∀ x, x ∈ its'.flatMap DataIter.handles ∨ ShardedLRUCache.Cached order' x →
      x ∈ its.flatMap DataIter.handles ∨ ShardedLRUCache.Cached order x)
    (howned : its'.flatMap DataIter.owned = its.flatMap DataIter.owned)
    (howns : ∀ it ∈ its', it.Owns m.cache) :
    Inv g { m with blockCache := some c' } order' its' where
  isSome_eq := by
    rw [← h.isSome_eq, hsome]
    rfl
  lastId_eq := hkeeps.lastId_eq.trans h.lastId_eq
  cache := hcache
  numbered := h.numbered.keeps hkeeps
  owns it hit := (howns it hit).congr fun x _ => congrFun hkeeps.entry_eq x
  nodup := by
    rw [howned]
    exact h.nodup
  apart b hb := by
    rw [howned] at hb
    obtain ⟨hlt, hne⟩ := h.apart b hb
    refine ⟨hlt, fun x hx => ?_⟩
    have hx' := (hkeeps.allocated_iff x).mp hx
    have heq : c'.entry x = m.cache.entry x := congrFun hkeeps.entry_eq x
    rw [show ({ m with blockCache := some c' } : BlockMemory).cache.entry x = c'.entry x from rfl,
      heq]
    exact hne x hx'
  names x hx := by
    have heq : c'.entry x = m.cache.entry x := congrFun hkeeps.entry_eq x
    rw [show ({ m with blockCache := some c' } : BlockMemory).cache.entry x = c'.entry x from rfl,
      heq]
    exact h.names x (hheld x hx)

/-- Only a cache gives handles out. -/
theorem exists_cache (h : Inv g m order its) (hx : x ∈ its.flatMap DataIter.handles) :
    ∃ c, m.blockCache = some c := by
  have hallocated := h.cache.allocated (.inl hx)
  cases hc : m.blockCache with
  | none =>
    have hnew : m.cache = .new 0 := by rw [BlockMemory.cache, hc]; rfl
    rw [hnew] at hallocated
    exact absurd hallocated.2 (Nat.not_lt.mpr hallocated.1)
  | some c => exact ⟨c, rfl⟩

/-- **An iterator is destroyed.** -/
theorem deleteIterator (h : Inv g m order (it :: its)) :
    ∃ m', m.deleteIterator it = .ok m' ∧ Inv g m' order its := by
  have howns : ∀ it' ∈ its, it'.Owns m.cache := fun it' hit' =>
    h.owns it' (List.mem_cons_of_mem it hit')
  cases h.owns it List.mem_cons_self with
  | nothing iter => exact ⟨m, rfl, { h with owns := howns }⟩
  | block iter b =>
    refine ⟨{ m with deleted := b :: m.deleted }, ?_, ?_⟩
    · rw [BlockMemory.deleteIterator, List.foldlM_cons, cleanUp,
        if_pos (h.isLive List.mem_cons_self rfl)]
      rfl
    · have hperm : (its.flatMap DataIter.owned ++ (b :: m.deleted)).Perm
          ((⟨iter, some b, [.deleteBlock b]⟩ :: its : List DataIter).flatMap DataIter.owned
            ++ m.deleted) := List.perm_middle
      exact { h with
        owns := howns
        nodup := hperm.nodup_iff.mpr h.nodup
        apart := fun b' hb' => h.apart b' (hperm.mem_iff.mp hb') }
  | handle iter x =>
    have hheld : x ∈ (⟨iter, some (m.cache.entry x).value, [.releaseBlock x]⟩ :: its
        : List DataIter).flatMap DataIter.handles := List.mem_cons_self
    obtain ⟨c, hc⟩ := h.exists_cache hheld
    have hcache : m.cache = c := by rw [BlockMemory.cache, hc]; rfl
    obtain ⟨c', hrel, hinv, hkeeps⟩ := h.cache.release hheld
    rw [hcache] at hrel
    refine ⟨{ m with blockCache := some c' }, ?_, h.keeps (by rw [hc]; rfl) ?_ hkeeps ?_ rfl howns⟩
    · rw [BlockMemory.deleteIterator, List.foldlM_cons, cleanUp, hc]
      simp only [defined, bind, Except.bind, hrel]
      rfl
    · rw [show List.flatMap DataIter.handles (_ :: its) = x :: its.flatMap DataIter.handles
        from rfl, List.erase_cons_head] at hinv
      exact hinv
    · rintro y (hy | hy)
      · exact Or.inl (List.mem_cons_of_mem x hy)
      · exact Or.inr hy

/-- **An entry is found**, and an iterator over its block holds it. -/
theorem lookup_some (h : Inv g m order its) {c c' : ShardedLRUCache}
    {order' : Fin kNumShards → List ℕ} (hc : m.blockCache = some c)
    (hx : ShardedLRUCache.Cached order x) (hkeeps : ShardedLRUCache.Keeps c c')
    (hcache : ShardedLRUCache.Inv c' order' (x :: its.flatMap DataIter.handles))
    (hsame : ∀ y, ShardedLRUCache.Cached order' y ↔ ShardedLRUCache.Cached order y)
    (iter : AnyIter) :
    Inv g { m with blockCache := some c' } order'
      (⟨iter, some (m.cache.entry x).value, [.releaseBlock x]⟩ :: its) := by
  have hm : m.cache = c := by rw [BlockMemory.cache, hc]; rfl
  refine h.keeps (by rw [hc]; rfl) hcache (hm.symm ▸ hkeeps) ?_ rfl ?_
  · rintro y (hy | hy)
    · rcases List.mem_cons.mp hy with rfl | hy
      · exact Or.inr hx
      · exact Or.inl hy
    · exact Or.inr ((hsame y).mp hy)
  · intro it hit
    rcases List.mem_cons.mp hit with rfl | hit
    · exact .handle iter x
    · exact h.owns it hit

/-- **A block has been read**, and belongs to an iterator. -/
theorem newBlock (h : Inv g m order its) (data : Bytes) (iter : AnyIter) :
    Inv g (m.newBlock data) order (⟨iter, some m.fresh, [.deleteBlock m.fresh]⟩ :: its) where
  isSome_eq := h.isSome_eq
  lastId_eq := h.lastId_eq
  cache := h.cache
  numbered := h.numbered.mono (Nat.le_succ _)
  owns := by
    intro it hit
    rcases List.mem_cons.mp hit with rfl | hit
    · exact .block iter m.fresh
    · exact h.owns it hit
  nodup := by
    refine List.nodup_cons.mpr ⟨fun hmem => ?_, h.nodup⟩
    exact Nat.lt_irrefl _ (h.apart _ hmem).1
  apart := by
    intro b hb
    rcases List.mem_cons.mp hb with rfl | hb
    · refine ⟨Nat.lt_succ_self _, fun x hx => ?_⟩
      exact Nat.ne_of_lt (h.numbered.lt x hx)
    · exact ⟨Nat.lt_succ_of_lt (h.apart b hb).1, (h.apart b hb).2⟩
  names := by
    intro x hx
    have hlt := h.numbered.lt x (h.cache.allocated hx)
    have hblock : (m.newBlock data).block (m.cache.entry x).value
        = m.block (m.cache.entry x).value :=
      Function.update_of_ne (Nat.ne_of_lt hlt) _ _
    rw [show (m.newBlock data).cache = m.cache from rfl, hblock]
    exact h.names x hx

/-- **A block has been read and inserted**, and an iterator holds the entry. -/
theorem insert (h : Inv g m order its) (data : Bytes) {c' : ShardedLRUCache}
    {order' : Fin kNumShards → List ℕ} {z : LRUEntry} (hsome : m.blockCache.isSome = true)
    (hz : z.value = m.fresh) (hname : g.Names z.key (.new data))
    (hcache : ShardedLRUCache.Inv c' order' (x :: its.flatMap DataIter.handles))
    (hx : ¬ m.cache.Allocated x) (hallocated : ∀ y, c'.Allocated y ↔ y = x ∨ m.cache.Allocated y)
    (hentry : c'.entry = update m.cache.entry x z) (hid : c'.lastId = m.cache.lastId)
    (hold : ∀ y, ShardedLRUCache.Cached order' y → y = x ∨ ShardedLRUCache.Cached order y)
    (iter : AnyIter) :
    Inv g { m.newBlock data with blockCache := some c' } order'
      (⟨iter, some m.fresh, [.releaseBlock x]⟩ :: its) := by
  have hself : c'.entry x = z := by rw [hentry, Function.update_self]
  have hother : ∀ y, m.cache.Allocated y → c'.entry y = m.cache.entry y := by
    intro y hy
    rw [hentry, Function.update_of_ne]
    rintro rfl
    exact hx hy
  have hcache' : ({ m.newBlock data with blockCache := some c' } : BlockMemory).cache = c' := rfl
  exact {
    isSome_eq := by
      rw [← h.isSome_eq, hsome]
      rfl
    lastId_eq := hid.trans h.lastId_eq
    cache := hcache
    numbered := by
      have hnumbered := h.numbered.insert (Nat.le_of_eq hz.symm) hallocated hentry hx
      rwa [hz] at hnumbered
    owns := by
      intro it hit
      rcases List.mem_cons.mp hit with rfl | hit
      · rw [← hz, ← hself]
        exact .handle iter x
      · refine (h.owns it hit).congr fun y hy => hother y ?_
        exact h.cache.allocated (.inl (List.mem_flatMap.mpr ⟨it, hit, hy⟩))
    nodup := h.nodup
    apart := by
      intro b hb
      obtain ⟨hlt, hne⟩ := h.apart b hb
      refine ⟨Nat.lt_succ_of_lt hlt, fun y hy => ?_⟩
      rw [hcache']
      rcases (hallocated y).mp hy with rfl | hy
      · rw [hself, hz]
        exact Nat.ne_of_gt hlt
      · rw [hother y hy]
        exact hne y hy
    names := by
      intro y hy
      have hcases : y = x ∨ y ∈ its.flatMap DataIter.handles ∨ ShardedLRUCache.Cached order y := by
        rcases hy with hy | hy
        · exact (List.mem_cons.mp hy).imp_right Or.inl
        · exact (hold y hy).imp_right Or.inr
      rw [hcache']
      rcases hcases with rfl | hy
      · rw [hself, hz]
        have hblock : (m.newBlock data).block m.fresh = .new data := Function.update_self _ _ _
        exact (congrArg (g.Names z.key) hblock).mpr hname
      · have hlt := h.numbered.lt y (h.cache.allocated hy)
        have hblock : (m.newBlock data).block (m.cache.entry y).value
            = m.block (m.cache.entry y).value := Function.update_of_ne (Nat.ne_of_lt hlt) _ _
        rw [hother y (h.cache.allocated hy)]
        exact (congrArg (g.Names _) hblock).mpr (h.names y hy) }

end Inv

end BlockMemory

/-! ### `BlockReader` -/

theorem simulates_defined {α : Type} {excused : Stop → Prop} (a : Option α) :
    Simulates excused (fun x y => a = some x ∧ x = y) a (defined a) := by
  cases a with
  | none => exact Or.inl rfl
  | some x => exact Simulates.ok ⟨rfl, rfl⟩

theorem Block.size_new_le (data : Bytes) : (Block.new data).size ≤ data.length := by
  rw [Block.new]
  split
  · exact Nat.zero_le _
  · dsimp only
    split
    · exact Nat.zero_le _
    · exact Nat.le_refl _

namespace CachedTable

variable {sn : Snappy} {junk : ℕ → UInt8} {g : Ledger} {t : CachedTable} {m : BlockMemory}
  {order : Fin kNumShards → List ℕ} {its : List DataIter}

/-- Every entry that the iterators hold, and the cache with them, can be held `n` times more. -/
def Holdable (n : ℕ) (its : List DataIter) : Prop :=
  ∀ x ∈ its.flatMap DataIter.handles, 1 + (its.flatMap DataIter.handles).count x + n < 2 ^ 32

instance (n : ℕ) (its : List DataIter) : Decidable (Holdable n its) :=
  inferInstanceAs (Decidable (∀ x ∈ its.flatMap DataIter.handles,
    1 + (its.flatMap DataIter.handles).count x + n < 2 ^ 32))

theorem Holdable.count_lt (h : Holdable 1 its) (x : Handle) :
    (its.flatMap DataIter.handles).count x + 2 < 2 ^ 32 := by
  by_cases hx : x ∈ its.flatMap DataIter.handles
  · have := h x hx
    omega
  · rw [List.count_eq_zero.mpr hx]
    decide

/-- One of the times may be that of an iterator. -/
theorem Holdable.cons {its' : List DataIter} (h : Holdable 2 its) (hle : its'.length ≤ 1)
    (howns : ∀ it ∈ its', it.Owns m.cache) : Holdable 1 (its' ++ its) := by
  have hown : ∀ x, (its'.flatMap DataIter.handles).count x ≤ 1 := by
    intro x
    match its', hle, howns with
    | [], _, _ => exact Nat.zero_le 1
    | [it], _, howns =>
      rw [List.flatMap_singleton]
      exact List.count_le_length.trans (howns it List.mem_cons_self).length_handles_le
  intro x _
  rw [List.flatMap_append, List.count_append]
  have hle := hown x
  by_cases hx : x ∈ its.flatMap DataIter.handles
  · have := h x hx
    omega
  · rw [List.count_eq_zero.mpr hx]
    omega

/-- The value of the index stands for a block that can be read, and so does its key in the cache. -/
def Serves (sn : Snappy) (junk : ℕ → UInt8) (g : Ledger) (t : CachedTable) (indexValue : Bytes) :
    Prop :=
  ∃ handle rest block, BlockHandle.decodeFrom indexValue = .ok (handle, rest) ∧
    g.Names (cacheKey t.cacheId handle.offset) block ∧
    ∀ verify, ∃ contents, readBlock sn junk t.table.file verify handle = some (.success, contents) ∧
      Block.new contents.data = block ∧ contents.data.length < 2 ^ 64

/-- The iterator is there, and the memory is in order. -/
def Opens (g : Ledger) (its : List DataIter) (iter : AnyIter) (r : DataIter × BlockMemory) : Prop :=
  iter = r.1.iter ∧ ∃ order, r.2.Inv g order (r.1 :: its)

/-- A block is read from the file. If there is a cache, the block is the one that its key stands
for. -/
theorem readFile_simulates (h : m.Inv g order its) (options : ReadOptions) {handle : BlockHandle}
    (hname : g.cached = true → ∀ s contents,
      readBlock sn junk t.table.file options.verifyChecksums handle = some (s, contents) →
      g.Names (cacheKey t.cacheId handle.offset) (.new contents.data) ∧
        contents.data.length < 2 ^ 64) :
    Simulates g.Full (Opens g its)
      (do
        let (s, contents) ← readBlock sn junk t.table.file options.verifyChecksums handle
        if s.ok then some (Block.newIterator (.new contents.data)) else some (.empty s))
      (t.readFile sn junk options handle m) := by
  rw [readFile]
  refine Simulates.bind (simulates_defined _) ?_
  rintro ⟨s, contents⟩ _ ⟨hread, rfl⟩
  have hblock : (m.newBlock contents.data).block m.fresh = .new contents.data :=
    Function.update_self _ _ _
  dsimp only
  by_cases hok : s.ok = true
  swap
  · rw [if_neg hok, if_neg hok]
    exact Simulates.ok ⟨rfl, order, h.empty s⟩
  rw [if_pos hok, if_pos hok]
  split
  · next hinsert =>
    have hsome : m.blockCache.isSome = true := hinsert.1
    obtain ⟨hname, hlen⟩ := hname (by rw [← h.isSome_eq, hsome]) s contents hread
    obtain ⟨c, hc⟩ := Option.isSome_iff_exists.mp hsome
    have hm : m.cache = c := by rw [BlockMemory.cache, hc]; rfl
    have hc' : (m.newBlock contents.data).blockCache = some c := hc
    rw [BlockMemory.insert, hc']
    simp only [defined, bind, Except.bind, hblock]
    by_cases hfew : (c.shard (ShardedLRUCache.shardOf
        (ShardedLRUCache.hashSlice (cacheKey t.cacheId handle.offset)))).elems < 2 ^ 31
    · have hcharge := (Block.size_new_le contents.data).trans_lt hlen
      have hcache := h.cache
      rw [hm] at hcache
      obtain ⟨x, c', order', hins, hinv, hx, hallocated, hentry, hid, hold⟩ :=
        hcache.insert (cacheKey t.cacheId handle.offset) m.fresh (Block.new contents.data).size
          BlockMemory.kDeleteCacheBlock hcharge hfew
      rw [← hm] at hx hallocated hentry hid
      have hheld := h.insert contents.data hsome rfl hname hinv hx hallocated hentry hid hold
      rw [if_pos hfew, hins]
      dsimp only
      rw [(hheld (.empty .success)).newIterator_eq]
      refine Simulates.ok ⟨?_, order', hheld _⟩
      exact (congrArg Block.newIterator hblock).symm
    · rw [if_neg hfew]
      exact Or.inr ⟨rfl, by rw [← h.isSome_eq, hsome]⟩
  · rw [(h.newBlock contents.data (.empty .success)).newIterator_eq, hblock]
    exact Simulates.ok ⟨rfl, order, h.newBlock contents.data _⟩

/-- **`BlockReader` with the memory** does what it does without, unless a shard of the cache is
full. Without a cache nothing has to be known of the file. -/
theorem blockReader_simulates (h : m.Inv g order its)
    (hnames : g.cached = true → ∀ k block block', g.Names k block → g.Names k block' →
      block = block')
    (hfew : g.cached = true → Holdable 1 its) {indexValue : Bytes}
    (hserves : g.cached = true → t.Serves sn junk g indexValue) (options : ReadOptions) :
    Simulates g.Full (Opens g its)
      (Table.blockReader sn junk options.verifyChecksums t.table indexValue)
      (t.blockReader sn junk options indexValue m) := by
  rw [Table.blockReader, blockReader]
  cases hdecode : BlockHandle.decodeFrom indexValue with
  | error s => exact Simulates.ok ⟨rfl, order, h.empty s⟩
  | ok p =>
    obtain ⟨handle, rest⟩ := p
    have hread : g.cached = true → ∃ contents,
        readBlock sn junk t.table.file options.verifyChecksums handle = some (.success, contents) ∧
        g.Names (cacheKey t.cacheId handle.offset) (.new contents.data) ∧
        contents.data.length < 2 ^ 64 := by
      intro hcached
      obtain ⟨handle', rest', block, hdecode', hname, hread⟩ := hserves hcached
      rw [hdecode] at hdecode'
      cases hdecode'
      obtain ⟨contents, hcontents, rfl, hlen⟩ := hread options.verifyChecksums
      exact ⟨contents, hcontents, hname, hlen⟩
    have hfile := readFile_simulates h options fun hcached s contents hcontents => by
      obtain ⟨contents', hcontents', hname⟩ := hread hcached
      rw [hcontents] at hcontents'
      cases hcontents'
      exact hname
    dsimp only
    cases hc : m.blockCache with
    | none => exact hfile
    | some c =>
      have hcached : g.cached = true := by rw [← h.isSome_eq, hc]; rfl
      have hm : m.cache = c := by rw [BlockMemory.cache, hc]; rfl
      have hcache := h.cache
      rw [hm] at hcache
      rcases hcache.lookup (cacheKey t.cacheId handle.offset) with
        ⟨x, c', hlook, hx, hkey, htouches, -, hinv⟩ | ⟨hlook, -⟩
      · -- a hit: the block in the cache is the one that would be read
        obtain ⟨contents, hcontents, hname, -⟩ := hread hcached
        obtain ⟨order', hinv, hsame⟩ := hinv ((hfew hcached).count_lt x)
        have hheld := h.lookup_some hc hx htouches.toKeeps hinv hsame
        have hvalue : c'.value x = some (m.cache.entry x).value := by
          rw [hinv.value_eq (.inl List.mem_cons_self), htouches.entry_eq, hm]
        have hblock : m.block (m.cache.entry x).value = .new contents.data := by
          have hentry := h.names x (.inr hx)
          rw [hm, hkey, ← hm] at hentry
          exact hnames hcached _ _ _ hentry hname
        simp only [hlook, defined, bind, Except.bind, hvalue, hcontents, Option.bind_some,
          Status.ok_success, if_true]
        rw [(hheld (.empty .success)).newIterator_eq]
        refine Simulates.ok ⟨?_, order', hheld _⟩
        exact (congrArg Block.newIterator hblock).symm
      · have hsame : ({ m with blockCache := some c } : BlockMemory) = m := by rw [← hc]
        simp only [hlook, defined, bind, Except.bind, hsame]
        exact hfile

end CachedTable

end Squirrel
