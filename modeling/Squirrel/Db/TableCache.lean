import Squirrel.Db.FileName
import Squirrel.Table.IteratorWrapper
import Squirrel.Util.Env
import Squirrel.Util.ShardedCache
import Mathlib.Data.List.Flatten

/-!
# The table cache

`TableCache` keeps tables open in a sharded cache. An entry owns a file and the table that reads it,
by way of a `TableAndFile`, and the deleter of the entry deletes all three. Who uses a table holds a
handle to its entry: `Get` while it runs, and an iterator until it is destroyed, when it calls the
cleanup function that releases the handle.

`new` gives addresses here, and the memory at the addresses is not modelled, apart from the pointers
in `TableAndFile` objects. What is deleted is what `FindTable` deletes itself, and what the calls of
the deleter delete (`deleted`). The status of each call that opens a file or a table is an input of
the operation, and may depend on the name of the file.

## Main definitions

* `TableCache.Reachable` — the states of a table cache with the iterators that are alive
* `TableCache.Sound` — what holds of them

## Main results

* `TableCache.reachable_sound` — every reachable state, every operation from it, and destruction
-/

namespace Squirrel

open Coding Function

structure TableAndFile where
  file : ℕ
  table : ℕ
  deriving DecidableEq, Inhabited

structure TableCache where
  dbname : Bytes
  cache : ShardedLRUCache
  /-- The address `new` returns next. -/
  fresh : ℕ
  /-- The `TableAndFile` objects. -/
  tableAndFile : ℕ → TableAndFile
  /-- The files that `FindTable` has deleted. -/
  closed : List ℕ

/-- What the calls return that open a file and a table of some size. -/
structure Opening where
  newRandomAccessFile : Bytes → Status
  tableOpen : ℕ → Status

namespace TableCache

/-- The deleter of all entries, as a pointer. -/
def kDeleteEntry : ℕ := 1

/-- The constructor. `NewLRUCache` takes a `size_t`. -/
def new (dbname : Bytes) (entries : ℤ) : TableCache :=
  ⟨dbname, .new (entries % 2 ^ 64).toNat, 0, default, []⟩

/-- `DeleteEntry`: what it deletes. -/
def deleteEntry (tableAndFile : ℕ → TableAndFile) (value : ℕ) : List ℕ :=
  [(tableAndFile value).table, (tableAndFile value).file, value]

/-- All that has been deleted. -/
def deleted (t : TableCache) : List ℕ :=
  t.closed ++ t.cache.deletedValues.flatMap (deleteEntry t.tableAndFile)

def cacheKey (fileNumber : ℕ) : Bytes := encodeFixed64 fileNumber

/-- The file that `FindTable` opens, under one of two names. -/
def openFile (t : TableCache) (opening : Opening) (fileNumber : ℕ) :
    Option (Status × Option ℕ × TableCache) := do
  let fname ← tableFileName t.dbname fileNumber
  let s := opening.newRandomAccessFile fname
  if s.ok then some (s, some t.fresh, { t with fresh := t.fresh + 1 })
  else
    let oldFname ← sstTableFileName t.dbname fileNumber
    if (opening.newRandomAccessFile oldFname).ok then
      some (.success, some t.fresh, { t with fresh := t.fresh + 1 })
    else some (s, none, t)

def findTable (t : TableCache) (opening : Opening) (fileNumber fileSize : ℕ) :
    Option (Status × Option Handle × TableCache) := do
  match ← t.cache.lookup (cacheKey fileNumber) with
  | (some h, cache) => some (.success, some h, { t with cache })
  | (none, cache) =>
    match ← { t with cache }.openFile opening fileNumber with
    | (s, none, t) => some (s, none, t)
    | (_, some file, t) =>
      let s := opening.tableOpen fileSize
      if s.ok then
        let table := t.fresh
        let tf := t.fresh + 1
        let (h, cache) ← t.cache.insert (cacheKey fileNumber) tf 1 kDeleteEntry
        some (s, some h, { t with
          cache
          fresh := t.fresh + 2
          tableAndFile := update t.tableAndFile tf ⟨file, table⟩ })
      else some (s, none, { t with closed := t.closed ++ [file] })

/-- The table that the entry of a handle owns; nothing if it has been deleted. -/
def tableOf (t : TableCache) (h : Handle) : Option ℕ := do
  let value ← t.cache.value h
  let table := (t.tableAndFile value).table
  if value ∉ t.deleted ∧ table ∉ t.deleted then some table else none

/-! ### Iterators -/

/-- An iterator that `NewIterator` has returned: over a table, or an error iterator. The cleanup
functions registered with it are calls of `UnrefEntry`, which differ in their handles. -/
structure TableIterator where
  status : Status
  table : Option ℕ
  cleanup : List Handle

def newIterator (t : TableCache) (opening : Opening) (fileNumber fileSize : ℕ) :
    Option (TableIterator × TableCache) := do
  match ← t.findTable opening fileNumber fileSize with
  | (s, handle, t) =>
    if s.ok then
      let h ← handle
      let table ← t.tableOf h
      some (⟨.success, some table, registerCleanup h []⟩, t)
    else some (⟨s, none, []⟩, t)

/-- `Iterator::~Iterator`, with `UnrefEntry` as the only kind of cleanup function. -/
def deleteIterator (t : TableCache) (it : TableIterator) : Option TableCache :=
  it.cleanup.foldlM (fun t h => do some { t with cache := ← t.cache.release h }) t

/-- `Get`, for a table on which `InternalGet` returns `found`. -/
def get (t : TableCache) (opening : Opening) (fileNumber fileSize : ℕ) (found : Status) :
    Option (Status × TableCache) := do
  match ← t.findTable opening fileNumber fileSize with
  | (s, handle, t) =>
    if s.ok then
      let h ← handle
      let _ ← t.tableOf h
      some (found, { t with cache := ← t.cache.release h })
    else some (s, t)

/-- The destructor. -/
def destroy (t : TableCache) : Option TableCache := do
  some { t with cache := ← t.cache.destroy }

/-! ### Runs -/

/-- A table cache, and the iterators that have been returned and not destroyed. -/
structure World where
  tableCache : TableCache
  iterators : List TableIterator

inductive Op
  | newIterator (opening : Opening) (fileNumber fileSize : ℕ)
  | deleteIterator (i : ℕ)
  | get (opening : Opening) (fileNumber fileSize : ℕ) (found : Status)

def step (w : World) : Op → Option World
  | .newIterator opening fileNumber fileSize => do
    let (it, t) ← w.tableCache.newIterator opening fileNumber fileSize
    some ⟨t, it :: w.iterators⟩
  | .deleteIterator i => do
    let it ← w.iterators[i]?
    some ⟨← w.tableCache.deleteIterator it, w.iterators.eraseIdx i⟩
  | .get opening fileNumber fileSize found => do
    let (_, t) ← w.tableCache.get opening fileNumber fileSize found
    some ⟨t, w.iterators⟩

/-- Only iterators that are alive are destroyed. -/
def Allowed (w : World) : Op → Prop
  | .deleteIterator i => i < w.iterators.length
  | _ => True

/-- The number passes the assertion of `TableFileName`, and the cache stays within the 32 bits of
`refs` and of `new_length`. -/
structure Within (t : TableCache) (fileNumber : ℕ) : Prop where
  pos : 0 < fileNumber
  refs : ∀ x c', t.cache.lookup (cacheKey fileNumber) = some (some x, c') →
    (t.cache.shard x.shard).refs x.entry + 1 < 2 ^ 32
  elems : ∀ c', t.cache.lookup (cacheKey fileNumber) = some (none, c') →
    (t.cache.shard
      (ShardedLRUCache.shardOf (ShardedLRUCache.hashSlice (cacheKey fileNumber)))).elems
      < 2 ^ 31

/-- The operation stays within the limits. -/
def InRange (w : World) : Op → Prop
  | .newIterator _ fileNumber _ => w.tableCache.Within fileNumber
  | .get _ fileNumber _ _ => w.tableCache.Within fileNumber
  | .deleteIterator _ => True

/-- The states that operations which are `ok` lead to. -/
inductive Reachable (dbname : Bytes) (entries : ℤ) (ok : World → Op → Prop) : World → Prop
  | new : Reachable dbname entries ok ⟨new dbname entries, []⟩
  | step {w w' : World} (op : Op) : Reachable dbname entries ok w → ok w op →
      step w op = some w' → Reachable dbname entries ok w'

/-- What holds of a table cache and the iterators that are alive. -/
structure Sound (w : World) : Prop where
  /-- The handles that have not been released are those of the iterators over tables. -/
  handles : w.tableCache.cache.unreleased = w.iterators.countP fun it => it.table.isSome
  /-- The table of an iterator has not been deleted, nor has its file. -/
  alive : ∀ it ∈ w.iterators, ∀ table, it.table = some table → ∃ h value, it.cleanup = [h] ∧
    w.tableCache.cache.value h = some value ∧ (w.tableCache.tableAndFile value).table = table ∧
    ∀ p ∈ deleteEntry w.tableCache.tableAndFile value, p ∉ w.tableCache.deleted
  /-- Nothing is deleted twice. -/
  once : w.tableCache.deleted.Nodup

/-! ### Who owns what -/

/-- The table of the entry that a handle points to. -/
def tableAt (t : TableCache) (x : Handle) : ℕ := (t.tableAndFile (t.cache.entry x).value).table

/-- The handles `held` are in other hands, and the objects `opened` have been inserted. -/
structure Inv (t : TableCache) (order : Fin kNumShards → List ℕ) (held : List Handle)
    (opened : List ℕ) : Prop where
  cache : ShardedLRUCache.Inv t.cache order held
  numbered : t.cache.Numbered t.fresh
  opened_iff : ∀ v, v ∈ opened ↔ ∃ x, t.cache.Allocated x ∧ (t.cache.entry x).value = v
  nodup : opened.Nodup
  /-- What has been allocated is a file that `FindTable` deleted, or belongs to an object. -/
  addresses : (t.closed ++ opened.flatMap (deleteEntry t.tableAndFile)).Perm (List.range t.fresh)

variable {t t' : TableCache} {order : Fin kNumShards → List ℕ} {held : List Handle}
  {opened : List ℕ} {x : Handle}

/-- Fewer objects, and what they own. -/
theorem subperm_flatMap {l l' : List ℕ} (h : l.Subperm l') (f : ℕ → List ℕ) :
    (l.flatMap f).Subperm (l'.flatMap f) := by
  obtain ⟨m, hperm, hsub⟩ := h
  exact ⟨m.flatMap f, hperm.flatMap_right f, hsub.flatMap f⟩

namespace Inv

theorem new (dbname : Bytes) (entries : ℤ) :
    Inv (new dbname entries) (fun _ => []) [] [] where
  cache := ShardedLRUCache.inv_new _
  numbered := .new _
  opened_iff v := by
    refine ⟨fun hv => absurd hv List.not_mem_nil, ?_⟩
    rintro ⟨x, hx, -⟩
    exact absurd hx.2 (Nat.not_lt.mpr hx.1)
  nodup := List.nodup_nil
  addresses := List.Perm.refl _

theorem count_opened (h : Inv t order held opened) (hx : t.cache.Allocated x) :
    opened.count (t.cache.entry x).value = 1 :=
  List.count_eq_one_of_mem h.nodup ((h.opened_iff _).mpr ⟨x, hx, rfl⟩)

theorem count_deletedValues (h : Inv t order held opened) (hx : t.cache.Allocated x) :
    t.cache.deletedValues.count (t.cache.entry x).value
      = if x ∈ held ∨ ShardedLRUCache.Cached order x then 0 else 1 := by
  rw [h.numbered.count_deletedValues h.cache.counted hx]
  refine if_congr ?_ rfl rfl
  rw [List.mem_append, ShardedLRUCache.mem_entriesOf]
  exact Iff.rfl

/-- What has been deleted had been opened. -/
theorem mem_opened (h : Inv t order held opened) {v : ℕ} (hv : v ∈ t.cache.deletedValues) :
    ∃ x, t.cache.Allocated x ∧ v = (t.cache.entry x).value ∧
      ¬ (x ∈ held ∨ ShardedLRUCache.Cached order x) := by
  obtain ⟨x, hx, hnot, rfl⟩ := h.cache.counted.of_mem_deletedValues hv
  refine ⟨x, hx, rfl, fun hmem => hnot ?_⟩
  rw [List.mem_append, ShardedLRUCache.mem_entriesOf]
  exact hmem

theorem deletedValues_subperm (h : Inv t order held opened) :
    t.cache.deletedValues.Subperm opened := by
  refine List.subperm_iff_count.mpr fun v => ?_
  by_cases hv : v ∈ t.cache.deletedValues
  · obtain ⟨x, hx, rfl, -⟩ := h.mem_opened hv
    rw [h.count_opened hx, h.count_deletedValues hx]
    split
    · exact Nat.zero_le 1
    · exact Nat.le_refl 1
  · rw [List.count_eq_zero_of_not_mem hv]
    exact Nat.zero_le _

theorem deleted_nodup (h : Inv t order held opened) : t.deleted.Nodup := by
  have hsub : t.deleted.Subperm (t.closed ++ opened.flatMap (deleteEntry t.tableAndFile)) :=
    (List.subperm_append_left _).mpr (subperm_flatMap h.deletedValues_subperm _)
  obtain ⟨l, hperm, hsub⟩ := hsub
  have hnodup := h.addresses.nodup_iff.mpr List.nodup_range
  exact hperm.nodup_iff.mp (hnodup.sublist hsub)

/-- **What is held is not deleted.** -/
theorem notMem_deleted (h : Inv t order held opened) (hx : x ∈ held) {p : ℕ}
    (hp : p ∈ deleteEntry t.tableAndFile (t.cache.entry x).value) : p ∉ t.deleted := by
  obtain ⟨v, hv⟩ : ∃ v, (t.cache.entry x).value = v := ⟨_, rfl⟩
  have hallocated := h.cache.allocated (.inl hx)
  have hopened : v ∈ opened := (h.opened_iff v).mpr ⟨x, hallocated, hv⟩
  have hdeleted : v ∉ t.cache.deletedValues := by
    have hcount := h.count_deletedValues hallocated
    rw [if_pos (Or.inl hx), hv] at hcount
    exact List.count_eq_zero.mp hcount
  -- what has been deleted belongs to the other objects
  have hothers : t.cache.deletedValues.Subperm (opened.erase v) := by
    have hsub := h.deletedValues_subperm.erase v
    rwa [List.erase_of_not_mem hdeleted] at hsub
  have hsub : t.deleted.Subperm
      (t.closed ++ (opened.erase v).flatMap (deleteEntry t.tableAndFile)) :=
    (List.subperm_append_left _).mpr (subperm_flatMap hothers _)
  have hperm : (deleteEntry t.tableAndFile v ++ (t.closed
      ++ (opened.erase v).flatMap (deleteEntry t.tableAndFile))).Perm (List.range t.fresh) := by
    refine List.Perm.trans ?_ h.addresses
    have hcons := (List.perm_cons_erase hopened).flatMap_right (deleteEntry t.tableAndFile)
    rw [List.flatMap_cons] at hcons
    refine List.Perm.trans ?_ (hcons.symm.append_left t.closed)
    rw [← List.append_assoc, ← List.append_assoc]
    exact List.perm_append_comm.append_right _
  have hnodup := hperm.nodup_iff.mpr List.nodup_range
  rw [hv] at hp
  intro hmem
  exact (List.nodup_append.mp hnodup).2.2 p hp p (hsub.subset hmem) rfl

theorem tableOf_eq (h : Inv t order held opened) (hx : x ∈ held) :
    t.tableOf x = some (t.tableAt x) := by
  have hvalue := h.notMem_deleted hx (p := (t.cache.entry x).value) (by simp [deleteEntry])
  have htable := h.notMem_deleted hx (p := t.tableAt x) (by simp [deleteEntry, tableAt])
  rw [tableOf, h.cache.value_eq (.inl hx)]
  exact if_pos ⟨hvalue, htable⟩

/-- The cache changes, and what it has allocated does not. -/
theorem keeps (h : Inv t order held opened) {c' : ShardedLRUCache}
    {order' : Fin kNumShards → List ℕ} {held' : List Handle}
    (hcache : ShardedLRUCache.Inv c' order' held') (hkeeps : ShardedLRUCache.Keeps t.cache c') :
    Inv { t with cache := c' } order' held' opened where
  cache := hcache
  numbered := h.numbered.keeps hkeeps
  opened_iff v := by
    rw [h.opened_iff, hkeeps.entry_eq]
    exact exists_congr fun x => and_congr_left fun _ => (hkeeps.allocated_iff x).symm
  nodup := h.nodup
  addresses := h.addresses

/-- A file has been opened, and deleted again. -/
theorem close (h : Inv t order held opened) :
    Inv { t with fresh := t.fresh + 1, closed := t.closed ++ [t.fresh] } order held opened where
  cache := h.cache
  numbered := h.numbered.mono (Nat.le_succ _)
  opened_iff := h.opened_iff
  nodup := h.nodup
  addresses := by
    rw [List.range_succ]
    refine List.Perm.trans ?_ (h.addresses.append_right [t.fresh])
    rw [List.append_assoc, List.append_assoc]
    exact List.perm_append_comm.append_left t.closed

/-- **A file and a table have been opened** and inserted. -/
theorem link (h : Inv t order held opened) {c' : ShardedLRUCache}
    {order' : Fin kNumShards → List ℕ} {z : LRUEntry} (hz : z.value = t.fresh + 2)
    (hcache : ShardedLRUCache.Inv c' order' (x :: held)) (hx : ¬ t.cache.Allocated x)
    (hallocated : ∀ y, c'.Allocated y ↔ y = x ∨ t.cache.Allocated y)
    (hentry : c'.entry = update t.cache.entry x z) :
    Inv { t with
      cache := c', fresh := t.fresh + 3,
      tableAndFile := update t.tableAndFile (t.fresh + 2) ⟨t.fresh, t.fresh + 1⟩ }
      order' (x :: held) ((t.fresh + 2) :: opened) where
  cache := hcache
  numbered := by
    have hnumbered := h.numbered.insert (by omega) hallocated hentry hx
    rwa [hz] at hnumbered
  opened_iff v := by
    rw [List.mem_cons, h.opened_iff, hentry]
    constructor
    · rintro (rfl | ⟨y, hy, rfl⟩)
      · refine ⟨x, (hallocated x).mpr (Or.inl rfl), ?_⟩
        rw [Function.update_self, hz]
      · refine ⟨y, (hallocated y).mpr (Or.inr hy), ?_⟩
        rw [Function.update_of_ne]
        rintro rfl
        exact hx hy
    · rintro ⟨y, hy, rfl⟩
      by_cases hyx : y = x
      · subst hyx
        rw [Function.update_self, hz]
        exact Or.inl rfl
      · rw [Function.update_of_ne hyx]
        exact Or.inr ⟨y, ((hallocated y).mp hy).resolve_left hyx, rfl⟩
  nodup := by
    refine List.nodup_cons.mpr ⟨fun hmem => ?_, h.nodup⟩
    obtain ⟨y, hy, heq⟩ := (h.opened_iff _).mp hmem
    have hlt := h.numbered.lt y hy
    omega
  addresses := by
    have hold : opened.flatMap (deleteEntry
        (update t.tableAndFile (t.fresh + 2) ⟨t.fresh, t.fresh + 1⟩))
          = opened.flatMap (deleteEntry t.tableAndFile) := by
      refine List.flatMap_congr fun v hv => ?_
      obtain ⟨y, hy, rfl⟩ := (h.opened_iff v).mp hv
      have hlt := h.numbered.lt y hy
      rw [deleteEntry, Function.update_of_ne (by omega)]
      rfl
    have hnew : deleteEntry (update t.tableAndFile (t.fresh + 2) ⟨t.fresh, t.fresh + 1⟩)
        (t.fresh + 2) = [t.fresh + 1, t.fresh, t.fresh + 2] := by
      rw [deleteEntry, Function.update_self]
    have hrange : List.range (t.fresh + 3)
        = List.range t.fresh ++ [t.fresh, t.fresh + 1, t.fresh + 2] := by
      rw [List.range_succ, List.range_succ, List.range_succ, List.append_assoc, List.append_assoc]
      rfl
    simp only [List.flatMap_cons, hold, hnew, hrange]
    have hswap : [t.fresh + 1, t.fresh, t.fresh + 2].Perm [t.fresh, t.fresh + 1, t.fresh + 2] :=
      List.Perm.swap _ _ _
    refine List.Perm.trans ?_ (h.addresses.append hswap)
    rw [List.append_assoc]
    exact List.perm_append_comm.append_left t.closed

end Inv

/-! ### The operations -/

theorem openFile_cases (t : TableCache) (opening : Opening) {fileNumber : ℕ}
    (hpos : 0 < fileNumber) :
    (∃ s, t.openFile opening fileNumber = some (s, none, t) ∧ s.ok = false) ∨
      ∃ s, t.openFile opening fileNumber
        = some (s, some t.fresh, { t with fresh := t.fresh + 1 }) ∧ s.ok = true := by
  simp only [openFile, tableFileName, sstTableFileName, withNumber, if_pos hpos,
    Option.bind_eq_bind, Option.bind_some]
  split
  · next hok => exact Or.inr ⟨_, rfl, hok⟩
  · next hok =>
    split
    · exact Or.inr ⟨_, rfl, rfl⟩
    · exact Or.inl ⟨_, rfl, by simpa using hok⟩

/-- **`FindTable`**: a handle to the table, or an error and nothing new. -/
theorem findTable_spec (h : Inv t order held opened) (opening : Opening) {fileNumber : ℕ}
    (hwithin : t.Within fileNumber) (fileSize : ℕ) :
    ∃ s handle t' order' opened', t.findTable opening fileNumber fileSize = some (s, handle, t') ∧
      (∀ y ∈ held, t'.tableAt y = t.tableAt y) ∧
      ((s.ok = true ∧ ∃ x, handle = some x ∧ Inv t' order' (x :: held) opened') ∨
        s.ok = false ∧ handle = none ∧ t'.cache = t.cache ∧ Inv t' order' held opened') := by
  rcases h.cache.lookup (cacheKey fileNumber) with
    ⟨x, c', hlook, hx, -, htouches, -, hinv⟩ | ⟨hlook, -⟩
  · have hrefs := hwithin.refs x c' hlook
    rw [h.cache.refs (h.cache.allocated (.inr hx)), if_pos hx] at hrefs
    obtain ⟨order', hinv, -⟩ := hinv hrefs
    refine ⟨.success, some x, { t with cache := c' }, order', opened, ?_, fun y _ => ?_,
      Or.inl ⟨rfl, x, rfl, h.keeps hinv htouches.toKeeps⟩⟩
    · rw [findTable, hlook]
      rfl
    · rw [tableAt, tableAt, htouches.entry_eq]
  · have hfew := hwithin.elems t.cache hlook
    rcases openFile_cases t opening hwithin.pos with ⟨s, hopen, hs⟩ | ⟨s, hopen, hs⟩
    · refine ⟨s, none, t, order, opened, ?_, fun _ _ => rfl, Or.inr ⟨hs, rfl, rfl, h⟩⟩
      rw [findTable, hlook]
      simp only [Option.bind_eq_bind, Option.bind_some, hopen]
    · by_cases hok : (opening.tableOpen fileSize).ok = true
      · obtain ⟨x, c', order', hins, hinv, hx, hallocated, hentry, -⟩ :=
          h.cache.insert (cacheKey fileNumber) (t.fresh + 2) 1 kDeleteEntry (by norm_num) hfew
        refine ⟨_, some x, _, order', (t.fresh + 2) :: opened, ?_, fun y hy => ?_,
          Or.inl ⟨hok, x, rfl, h.link rfl hinv hx hallocated hentry⟩⟩
        · rw [findTable, hlook]
          simp only [Option.bind_eq_bind, Option.bind_some, hopen, if_pos hok]
          rw [hins]
          rfl
        · have hy' := h.cache.allocated (.inl hy)
          have hlt := h.numbered.lt y hy'
          have hne : y ≠ x := by
            rintro rfl
            exact hx hy'
          rw [tableAt, tableAt, hentry, Function.update_of_ne hne]
          dsimp only
          rw [Function.update_of_ne (by omega)]
      · refine ⟨_, none, _, order, opened, ?_, fun _ _ => ?_,
          Or.inr ⟨by simpa using hok, rfl, ?_, h.close⟩⟩
        · rw [findTable, hlook]
          simp only [Option.bind_eq_bind, Option.bind_some, hopen, if_neg hok]
        · rfl
        · rfl

theorem openFile_cache {opening : Opening} {fileNumber : ℕ} {s : Status} {file : Option ℕ}
    (h : t.openFile opening fileNumber = some (s, file, t')) : t'.cache = t.cache := by
  have hpos : 0 < fileNumber := by
    by_contra hzero
    rw [openFile, tableFileName, withNumber, if_neg hzero] at h
    cases h
  rcases openFile_cases t opening hpos with ⟨s', hopen, -⟩ | ⟨s', hopen, -⟩
  · rw [hopen] at h
    cases h
    rfl
  · rw [hopen] at h
    cases h
    rfl

/-- A failed `FindTable` leaves the cache as it is. -/
theorem findTable_error (h : Inv t order held opened) {opening : Opening} {fileNumber fileSize : ℕ}
    {s : Status} {handle : Option Handle}
    (hfind : t.findTable opening fileNumber fileSize = some (s, handle, t')) (hs : s.ok = false) :
    handle = none ∧ t'.cache = t.cache := by
  rcases h.cache.lookup (cacheKey fileNumber) with ⟨x, c', hlook, -⟩ | ⟨hlook, -⟩
  · rw [findTable, hlook] at hfind
    cases hfind
    cases hs
  · rw [findTable, hlook, Option.bind_eq_bind, Option.bind_some] at hfind
    dsimp only at hfind
    obtain ⟨⟨s₁, file, t₁⟩, hopen, hfind⟩ := Option.bind_eq_some_iff.mp hfind
    have hcache : t₁.cache = t.cache := openFile_cache hopen
    cases file with
    | none =>
      cases hfind
      exact ⟨rfl, hcache⟩
    | some file =>
      dsimp only at hfind
      split at hfind
      · next hok =>
        obtain ⟨⟨x, c'⟩, -, hfind⟩ := Option.bind_eq_some_iff.mp hfind
        cases hfind
        rw [hs] at hok
        cases hok
      · cases hfind
        exact ⟨rfl, hcache⟩

theorem release_spec (h : Inv t order held opened) (hx : x ∈ held) :
    ∃ c', t.cache.release x = some c' ∧ Inv { t with cache := c' } order (held.erase x) opened ∧
      ∀ y, ({ t with cache := c' } : TableCache).tableAt y = t.tableAt y := by
  obtain ⟨c', hrel, hinv, hkeeps⟩ := h.cache.release hx
  refine ⟨c', hrel, h.keeps hinv hkeeps, fun y => ?_⟩
  rw [tableAt, tableAt, hkeeps.entry_eq]

/-- An iterator over a table has one cleanup function, and an error iterator has none. -/
def TableIterator.Owns (t : TableCache) (it : TableIterator) : Prop :=
  it.table = none ∧ it.cleanup = [] ∨ ∃ x, it.cleanup = [x] ∧ it.table = some (t.tableAt x)

/-- The handles in other hands are those of the iterators. -/
structure WorldInv (w : World) (order : Fin kNumShards → List ℕ) (opened : List ℕ) : Prop where
  inv : Inv w.tableCache order (w.iterators.flatMap TableIterator.cleanup) opened
  owns : ∀ it ∈ w.iterators, it.Owns w.tableCache

theorem TableIterator.Owns.congr {it : TableIterator} (h : it.Owns t)
    (heq : ∀ y ∈ it.cleanup, t'.tableAt y = t.tableAt y) : it.Owns t' := by
  rcases h with hnone | ⟨x, hx, htable⟩
  · exact Or.inl hnone
  · rw [hx] at heq
    exact Or.inr ⟨x, hx, by rw [heq x (List.mem_singleton_self x)]; exact htable⟩

namespace WorldInv

variable {w : World}

theorem owns_congr (h : WorldInv w order opened)
    (heq : ∀ y ∈ w.iterators.flatMap TableIterator.cleanup, t'.tableAt y = w.tableCache.tableAt y) :
    ∀ it ∈ w.iterators, it.Owns t' := fun it hit =>
  (h.owns it hit).congr fun y hy => heq y (List.mem_flatMap.mpr ⟨it, hit, hy⟩)

theorem newIterator (h : WorldInv w order opened) (opening : Opening) {fileNumber : ℕ}
    (hwithin : w.tableCache.Within fileNumber) (fileSize : ℕ) :
    ∃ w' order' opened', step w (.newIterator opening fileNumber fileSize) = some w' ∧
      WorldInv w' order' opened' := by
  obtain ⟨s, handle, t', order', opened', hfind, hsame, ⟨hs, x, rfl, hinv⟩ | ⟨hs, rfl, -, hinv⟩⟩ :=
    findTable_spec h.inv opening hwithin fileSize
  · refine ⟨⟨t', ⟨.success, some (t'.tableAt x), [x]⟩ :: w.iterators⟩, order', opened', ?_,
      hinv, fun it hit => ?_⟩
    · simp only [step, TableCache.newIterator, hfind, Option.bind_eq_bind, Option.bind_some, hs,
        if_true, hinv.tableOf_eq List.mem_cons_self]
      rfl
    · rcases List.mem_cons.mp hit with rfl | hit
      · exact Or.inr ⟨x, rfl, rfl⟩
      · exact h.owns_congr hsame it hit
  · refine ⟨⟨t', ⟨s, none, []⟩ :: w.iterators⟩, order', opened', ?_, hinv, fun it hit => ?_⟩
    · simp only [step, TableCache.newIterator, hfind, Option.bind_eq_bind, Option.bind_some, hs,
        Bool.false_eq_true, if_false]
    · rcases List.mem_cons.mp hit with rfl | hit
      · exact Or.inl ⟨rfl, rfl⟩
      · exact h.owns_congr hsame it hit

theorem deleteIterator (h : WorldInv w order opened) {i : ℕ} (hi : i < w.iterators.length) :
    ∃ w', step w (.deleteIterator i) = some w' ∧ WorldInv w' order opened := by
  have hperm : w.iterators.Perm (w.iterators[i] :: w.iterators.eraseIdx i) :=
    (List.getElem_cons_eraseIdx_perm hi).symm
  have hheld := hperm.flatMap_right TableIterator.cleanup
  rw [List.flatMap_cons] at hheld
  have hsub : ∀ it ∈ w.iterators.eraseIdx i, it ∈ w.iterators := fun it hit =>
    List.mem_of_mem_eraseIdx hit
  have hget : w.iterators[i]? = some w.iterators[i] := List.getElem?_eq_getElem hi
  have hinv : Inv w.tableCache order (w.iterators[i].cleanup
      ++ (w.iterators.eraseIdx i).flatMap TableIterator.cleanup) opened :=
    ⟨h.inv.cache.perm hheld, h.inv.numbered, h.inv.opened_iff, h.inv.nodup, h.inv.addresses⟩
  rcases h.owns _ (List.getElem_mem hi) with ⟨-, hnone⟩ | ⟨x, hx, -⟩
  · rw [hnone, List.nil_append] at hinv
    refine ⟨⟨w.tableCache, w.iterators.eraseIdx i⟩, ?_, hinv, fun it hit => h.owns it (hsub it hit)⟩
    rw [step, hget, Option.bind_eq_bind, Option.bind_some, TableCache.deleteIterator, hnone]
    rfl
  · rw [hx, List.singleton_append] at hinv
    obtain ⟨c', hrel, hinv', hsame⟩ := release_spec hinv List.mem_cons_self
    rw [List.erase_cons_head] at hinv'
    refine ⟨⟨{ w.tableCache with cache := c' }, w.iterators.eraseIdx i⟩, ?_, hinv', fun it hit =>
      ?_⟩
    · rw [step, hget, Option.bind_eq_bind, Option.bind_some, TableCache.deleteIterator, hx,
        List.foldlM_cons, hrel]
      rfl
    · exact (h.owns it (hsub it hit)).congr fun y _ => hsame y

theorem get (h : WorldInv w order opened) (opening : Opening) {fileNumber : ℕ}
    (hwithin : w.tableCache.Within fileNumber) (fileSize : ℕ) (found : Status) :
    ∃ w' order' opened', step w (.get opening fileNumber fileSize found) = some w' ∧
      WorldInv w' order' opened' := by
  obtain ⟨s, handle, t', order', opened', hfind, hsame, ⟨hs, x, rfl, hinv⟩ | ⟨hs, rfl, -, hinv⟩⟩ :=
    findTable_spec h.inv opening hwithin fileSize
  · obtain ⟨c', hrel, hinv', hsame'⟩ := release_spec hinv List.mem_cons_self
    rw [List.erase_cons_head] at hinv'
    refine ⟨⟨{ t' with cache := c' }, w.iterators⟩, order', opened', ?_, hinv',
      h.owns_congr fun y hy => (hsame' y).trans (hsame y hy)⟩
    simp only [step, TableCache.get, hfind, Option.bind_eq_bind, Option.bind_some, hs, if_true,
      hinv.tableOf_eq List.mem_cons_self, hrel]
  · refine ⟨⟨t', w.iterators⟩, order', opened', ?_, hinv, h.owns_congr hsame⟩
    simp only [step, TableCache.get, hfind, Option.bind_eq_bind, Option.bind_some, hs,
      Bool.false_eq_true, if_false]

/-- **One operation** returns, and keeps the invariant. -/
theorem step (h : WorldInv w order opened) {op : Op} (hok : Allowed w op) (hrange : InRange w op) :
    ∃ w' order' opened', TableCache.step w op = some w' ∧ WorldInv w' order' opened' := by
  cases op with
  | newIterator opening fileNumber fileSize => exact h.newIterator opening hrange fileSize
  | deleteIterator i =>
    obtain ⟨w', hstep, hinv⟩ := h.deleteIterator hok
    exact ⟨w', order, opened, hstep, hinv⟩
  | get opening fileNumber fileSize found => exact h.get opening hrange fileSize found

theorem toSound (h : WorldInv w order opened) : Sound w where
  handles := by
    rw [h.inv.cache.unreleased_eq, List.length_flatMap]
    have howns := h.owns
    generalize w.iterators = iterators at howns
    induction iterators with
    | nil => rfl
    | cons it iterators ih =>
      rw [List.map_cons, List.sum_cons, ih fun it' hit' => howns it' (List.mem_cons_of_mem it hit'),
        Nat.add_comm, List.countP_cons]
      rcases howns it List.mem_cons_self with ⟨htable, hnone⟩ | ⟨x, hx, htable⟩
      · rw [hnone, htable]
        rfl
      · rw [hx, htable]
        rfl
  alive := by
    intro it hit table htable
    rcases h.owns it hit with ⟨hnone, -⟩ | ⟨x, hx, htable'⟩
    · rw [hnone] at htable
      cases htable
    · have hheld : x ∈ w.iterators.flatMap TableIterator.cleanup :=
        List.mem_flatMap.mpr ⟨it, hit, by rw [hx]; exact List.mem_singleton_self x⟩
      refine ⟨x, _, hx, h.inv.cache.value_eq (.inl hheld), ?_, fun p hp =>
        h.inv.notMem_deleted hheld hp⟩
      exact Option.some.inj (htable'.symm.trans htable)
  once := h.inv.deleted_nodup

/-- **Destruction.** -/
theorem destroy (h : WorldInv w order opened) (hnone : w.iterators = []) :
    ∃ t', w.tableCache.destroy = some t' ∧ ∀ p < w.tableCache.fresh, t'.deleted.count p = 1 := by
  have hinv := h.inv
  rw [hnone, List.flatMap_nil] at hinv
  obtain ⟨c', hdestroy, hkeeps, hcounts⟩ := hinv.cache.destroy
  refine ⟨{ w.tableCache with cache := c' },
    by rw [TableCache.destroy, hdestroy]; rfl, fun p hp => ?_⟩
  have hnumbered := hinv.numbered.keeps hkeeps
  have hcounted : ShardedLRUCache.Counted c' fun _ => [] := hcounts
  -- the deleters have been called for all that was opened
  have hperm : c'.deletedValues.Perm opened := by
    refine List.perm_iff_count.mpr fun v => ?_
    by_cases hv : v ∈ opened
    · rw [List.count_eq_one_of_mem hinv.nodup hv]
      obtain ⟨x, hx, rfl⟩ := (hinv.opened_iff v).mp hv
      rw [← hkeeps.entry_eq,
        hnumbered.count_deletedValues hcounted ((hkeeps.allocated_iff x).mpr hx)]
      rfl
    · rw [List.count_eq_zero_of_not_mem hv]
      refine List.count_eq_zero_of_not_mem fun hmem => hv ?_
      obtain ⟨x, hx, -, rfl⟩ := hcounted.of_mem_deletedValues hmem
      rw [hkeeps.entry_eq]
      exact (hinv.opened_iff _).mpr ⟨x, (hkeeps.allocated_iff x).mp hx, rfl⟩
  have hall : ({ w.tableCache with cache := c' } : TableCache).deleted.Perm
      (List.range w.tableCache.fresh) :=
    ((hperm.flatMap_right _).append_left _).trans hinv.addresses
  rw [hall.count_eq, List.count_eq_one_of_mem List.nodup_range (List.mem_range.mpr hp)]

end WorldInv

theorem reachable_inv {dbname : Bytes} {entries : ℤ} {w : World}
    (h : Reachable dbname entries (fun w op => Allowed w op ∧ InRange w op) w) :
    ∃ order opened, WorldInv w order opened := by
  induction h with
  | new => exact ⟨_, _, Inv.new dbname entries, fun it hit => absurd hit List.not_mem_nil⟩
  | step op _ hok hstep ih =>
    obtain ⟨order, opened, hinv⟩ := ih
    obtain ⟨w', order', opened', hstep', hinv'⟩ := hinv.step hok.1 hok.2
    obtain rfl := Option.some.inj (hstep.symm.trans hstep')
    exact ⟨order', opened', hinv'⟩

/-- **The table cache neither leaks nor frees what is in use.** In every state that operations in
range lead to, the handles that have not been released are those of the iterators over tables, none
of which has lost its table or file; every operation in range returns; a failed `FindTable` leaves
the cache as it is; and when all iterators have been destroyed, destruction deletes what is left, so
that all that was ever allocated has been deleted once. -/
theorem reachable_sound {dbname : Bytes} {entries : ℤ} {w : World}
    (h : Reachable dbname entries (fun w op => Allowed w op ∧ InRange w op) w) :
    Sound w ∧ (∀ op, Allowed w op → InRange w op → ∃ w', step w op = some w') ∧
      (∀ opening fileNumber fileSize s handle t',
        w.tableCache.findTable opening fileNumber fileSize = some (s, handle, t') → s.ok = false →
        handle = none ∧ t'.cache = w.tableCache.cache) ∧
      (w.iterators = [] → ∃ t', w.tableCache.destroy = some t' ∧
        ∀ p < w.tableCache.fresh, t'.deleted.count p = 1) := by
  obtain ⟨order, opened, hinv⟩ := reachable_inv h
  refine ⟨hinv.toSound, fun op hok hrange => ?_, fun opening fileNumber fileSize s handle t' hfind
    hs => findTable_error hinv.inv hfind hs, hinv.destroy⟩
  obtain ⟨w', -, -, hstep, -⟩ := hinv.step hok hrange
  exact ⟨w', hstep⟩

theorem within_new (dbname : Bytes) (entries : ℤ) {fileNumber : ℕ} (hpos : 0 < fileNumber) :
    (new dbname entries).Within fileNumber where
  pos := hpos
  refs x c' hlook := by
    rcases (Inv.new dbname entries).cache.lookup (cacheKey fileNumber) with
      ⟨y, c₁, -, hy, -⟩ | ⟨hnone, -⟩
    · exact absurd hy List.not_mem_nil
    · rw [hnone] at hlook
      cases hlook
  elems _ _ := Nat.two_pow_pos 31

/-- An environment in which everything can be opened. -/
def always : Opening := ⟨fun _ => .success, fun _ => .success⟩

/-- With no room the entry is evicted at once, and what it owns stays as long as the iterator. -/
theorem reachable_sound_evicted :
    ∃ w w', step ⟨new [] 0, []⟩ (.newIterator always 1 0) = some w ∧ Sound w ∧
    w.tableCache.deleted = [] ∧ step w (.deleteIterator 0) = some w' ∧ Sound w' ∧
    w'.tableCache.deleted = [1, 0, 2] := by
  obtain ⟨w, w', hopen, hdelete, hlen, hnone, hall⟩ : ∃ w w',
      step ⟨new [] 0, []⟩ (.newIterator always 1 0) = some w ∧
      step w (.deleteIterator 0) = some w' ∧ w.iterators.length = 1 ∧ w.tableCache.deleted = [] ∧
      w'.tableCache.deleted = [1, 0, 2] := ⟨_, _, rfl, rfl, rfl, rfl, rfl⟩
  have hreach : Reachable [] 0 (fun w op => Allowed w op ∧ InRange w op) w :=
    .step (.newIterator always 1 0) .new ⟨trivial, within_new [] 0 Nat.one_pos⟩ hopen
  have hreach' : Reachable [] 0 (fun w op => Allowed w op ∧ InRange w op) w' :=
    .step (.deleteIterator 0) hreach ⟨by rw [Allowed, hlen]; exact Nat.one_pos, trivial⟩ hdelete
  exact ⟨w, w', hopen, (reachable_sound hreach).1, hnone, hdelete, (reachable_sound hreach').1,
    hall⟩

/-! ### At the limits -/

/-- Some operations in a row. -/
def run (w : World) (ops : List Op) : Option World := ops.foldlM step w

theorem run_concat {w w' : World} {ops : List Op} (h : run w ops = some w') (op : Op) :
    run w (ops ++ [op]) = step w' op := by
  rw [run, List.foldlM_append, show ops.foldlM step w = some w' from h, Option.bind_eq_bind,
    Option.bind_some, List.foldlM_cons, Option.bind_eq_bind]
  simp

/-- Another iterator over a table that is cached. -/
theorem newIterator_cached {w : World} (h : WorldInv w order opened)
    (hx : ShardedLRUCache.Cached order x) (hkey : (w.tableCache.cache.entry x).key = cacheKey 1)
    (hheld : x ∈ w.iterators.flatMap TableIterator.cleanup) :
    ∃ w' it, step w (.newIterator always 1 0) = some w' ∧ w'.iterators = it :: w.iterators ∧
      it.cleanup = [x] ∧ w'.tableCache.cache.entry = w.tableCache.cache.entry ∧
      (w'.tableCache.cache.shard x.shard).live x.entry = true ∧
      (w'.tableCache.cache.shard x.shard).refs x.entry
        = ((w.iterators.flatMap TableIterator.cleanup).count x + 2) % 2 ^ 32 ∧
      ((w.iterators.flatMap TableIterator.cleanup).count x + 2 < 2 ^ 32 →
        ∃ order', WorldInv w' order' opened ∧ ShardedLRUCache.Cached order' x) := by
  rcases h.inv.cache.lookup (cacheKey 1) with
    ⟨y, c', hlook, hy, hkey', htouches, hrefs, hinv⟩ | ⟨-, hnone⟩
  · obtain rfl := h.inv.cache.eq_of_key hy hx (hkey'.trans hkey.symm)
    have hallocated := h.inv.cache.allocated (.inr hx)
    rw [h.inv.cache.refs hallocated, if_pos hx] at hrefs
    have hlive := h.inv.cache.live (.inr hx)
    rw [← htouches.live_eq] at hlive
    have htable : ({ w.tableCache with cache := c' } : TableCache).tableOf y
        = some (w.tableCache.tableAt y) := by
      rw [← h.inv.tableOf_eq hheld, tableOf, tableOf, deleted, deleted, htouches.deletedValues_eq,
        h.inv.cache.value_eq (.inr hx), ShardedLRUCache.value, if_pos hlive, htouches.entry_eq]
    refine ⟨⟨{ w.tableCache with cache := c' }, _⟩,
      ⟨.success, some (w.tableCache.tableAt y), [y]⟩, ?_, rfl, rfl, htouches.entry_eq, hlive, hrefs,
      fun hfew => ?_⟩
    · simp only [step, TableCache.newIterator, findTable, hlook, Option.bind_eq_bind,
        Option.bind_some, Status.ok_success, if_true, htable]
      rfl
    · obtain ⟨order', hinv, hcached⟩ := hinv hfew
      refine ⟨order', ⟨h.inv.keeps hinv htouches.toKeeps, fun it hit => ?_⟩, (hcached y).mpr hx⟩
      have hsame : ∀ z, ({ w.tableCache with cache := c' } : TableCache).tableAt z
          = w.tableCache.tableAt z := by
        intro z
        rw [tableAt, tableAt, htouches.entry_eq]
      rcases List.mem_cons.mp hit with rfl | hit
      · exact Or.inr ⟨y, rfl, by rw [hsame]⟩
      · exact (h.owns it hit).congr fun z _ => hsame z
  · exact absurd hkey (hnone x hx)

/-- The iterators over one table add up. -/
theorem run_newIterators (n : ℕ) (hn : n + 2 < 2 ^ 32) :
    ∃ w order opened x, run ⟨new [] 16, []⟩ (List.replicate (n + 1) (.newIterator always 1 0))
        = some w ∧ WorldInv w order opened ∧ ShardedLRUCache.Cached order x ∧
      (w.tableCache.cache.entry x).key = cacheKey 1 ∧
      w.iterators.flatMap TableIterator.cleanup = List.replicate (n + 1) x := by
  induction n with
  | zero =>
    obtain ⟨w, hopen, x, hheld, hkey, hlook⟩ : ∃ w,
        step ⟨new [] 16, []⟩ (.newIterator always 1 0) = some w ∧
        ∃ x, w.iterators.flatMap TableIterator.cleanup = [x] ∧
          (w.tableCache.cache.entry x).key = cacheKey 1 ∧
          (w.tableCache.cache.lookup (cacheKey 1)).map Prod.fst = some (some x) :=
      ⟨_, rfl, _, rfl, rfl, rfl⟩
    have hreach : Reachable [] 16 (fun w op => Allowed w op ∧ InRange w op) w :=
      .step (.newIterator always 1 0) .new ⟨trivial, within_new [] 16 Nat.one_pos⟩ hopen
    obtain ⟨order, opened, hinv⟩ := reachable_inv hreach
    refine ⟨w, order, opened, x, ?_, hinv, ?_, hkey, hheld⟩
    · rw [List.replicate_one, run, List.foldlM_cons, hopen]
      rfl
    · rcases hinv.inv.cache.lookup (cacheKey 1) with ⟨y, c', hlook', hy, -⟩ | ⟨hlook', -⟩
      · rw [hlook'] at hlook
        cases hlook
        exact hy
      · rw [hlook'] at hlook
        cases hlook
  | succ n ih =>
    obtain ⟨w, order, opened, x, hrun, hinv, hx, hkey, hheld⟩ := ih (by omega)
    have hmem : x ∈ w.iterators.flatMap TableIterator.cleanup := by
      rw [hheld]
      exact List.mem_replicate.mpr ⟨Nat.succ_ne_zero n, rfl⟩
    obtain ⟨w', it, hstep, hiterators, hit, hentry, -, -, hinv'⟩ :=
      newIterator_cached hinv hx hkey hmem
    rw [hheld, List.count_replicate_self] at hinv'
    obtain ⟨order', hinv', hx'⟩ := hinv' (by omega)
    refine ⟨w', order', opened, x, ?_, hinv', hx', by rw [hentry]; exact hkey, ?_⟩
    · rw [List.replicate_succ', run_concat hrun]
      exact hstep
    · rw [hiterators, List.flatMap_cons, hit, hheld]
      rfl

/-- **The limits are real.** The number zero fails the assertion of `TableFileName`. And the
reference count wraps: with `2 ^ 32 - 1` iterators over a table it is zero, and the first that is
destroyed fails the assertion of `Unref`. -/
theorem not_sound :
    step ⟨new [] 16, []⟩ (.newIterator always 0 0) = none ∧
      ∃ w, run ⟨new [] 16, []⟩ (List.replicate (2 ^ 32 - 1) (.newIterator always 1 0)) = some w ∧
        Allowed w (.deleteIterator 0) ∧ step w (.deleteIterator 0) = none := by
  refine ⟨rfl, ?_⟩
  obtain ⟨n, hn⟩ : ∃ n, n + 3 = 2 ^ 32 := ⟨2 ^ 32 - 3, by norm_num⟩
  obtain ⟨w, order, opened, x, hrun, hinv, hx, hkey, hheld⟩ := run_newIterators n (by omega)
  have hmem : x ∈ w.iterators.flatMap TableIterator.cleanup := by
    rw [hheld]
    exact List.mem_replicate.mpr ⟨Nat.succ_ne_zero n, rfl⟩
  obtain ⟨w', it, hstep, hiterators, hit, -, -, hrefs, -⟩ := newIterator_cached hinv hx hkey hmem
  rw [hheld, List.count_replicate_self, show n + 1 + 2 = 2 ^ 32 by omega, Nat.mod_self] at hrefs
  refine ⟨w', ?_, ?_, ?_⟩
  · rw [show 2 ^ 32 - 1 = n + 1 + 1 by omega, List.replicate_succ', run_concat hrun]
    exact hstep
  · rw [Allowed, hiterators]
    exact Nat.succ_pos _
  · rw [step, hiterators, List.getElem?_cons_zero, Option.bind_eq_bind, Option.bind_some,
      TableCache.deleteIterator, hit, List.foldlM_cons, ShardedLRUCache.release, LRUCache.release,
      LRUCache.unref, if_pos (Or.inr hrefs)]
    split <;> rfl

end TableCache

end Squirrel
