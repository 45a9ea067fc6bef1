import Squirrel.Lib.Simulation
import Squirrel.Table.Table
import Squirrel.Util.ShardedCache

/-!
# The block cache

Tables that are opened with a block cache keep the blocks they have read in it, under the table's
number in the cache and the offset of the block. An iterator over a block refers to it by its
address. It either owns the block and deletes it when it is destroyed itself, or it holds a handle
of the cache and releases it; the cache deletes the block once it has evicted the entry and nobody
holds it any more.

Blocks are in a memory here, and whoever follows a pointer to a block that has been deleted does
something undefined. There is one cache for all tables, or none. Without a cache every iterator owns
its block.

`World` is what a program has: the memory, the tables it has opened and its iterators. `Plain` is
the same without any memory: tables read their file whenever they need a block, and an iterator has
the block itself. That is how `Table` describes tables, and what the program is meant to see.

## Main definitions

* `blockReader` — `Table::BlockReader`
* `BlockCache.step` — the operations on tables and iterators
* `BlockCache.plainStep` — the same without memory
-/

namespace Squirrel

open Coding Block Cursor Function

structure ReadOptions where
  verifyChecksums : Bool
  fillCache : Bool

/-- The functions that are registered with iterators over blocks, with their arguments. -/
inductive Cleanup
  | deleteBlock (block : ℕ)
  | releaseBlock (handle : Handle)

/-- An iterator over a block, or an empty one, which has no block. -/
structure DataIter where
  iter : AnyIter
  /-- The address of the block. -/
  block : Option ℕ
  cleanup : List Cleanup

/-- Why an operation does not return: a failed assertion or something undefined, or the loop of
`HandleTable::Resize`. -/
inductive Stop
  | undefined
  | tableFull
  deriving DecidableEq

def defined {α : Type} : Option α → Except Stop α
  | some a => .ok a
  | none => .error .undefined

structure BlockMemory where
  blockCache : Option ShardedLRUCache
  /-- The address `new` returns next. -/
  fresh : ℕ
  /-- The blocks. -/
  block : ℕ → Block
  /-- The blocks that iterators have deleted. -/
  deleted : List ℕ

namespace BlockMemory

/-- The deleter of all entries, as a pointer. -/
def kDeleteCacheBlock : ℕ := 1

/-- The cache, which is empty if there is none. -/
def cache (m : BlockMemory) : ShardedLRUCache := m.blockCache.getD (.new 0)

/-- There is a block at the address, and nobody has deleted it. -/
def isLive (m : BlockMemory) (b : ℕ) : Bool :=
  b < m.fresh ∧ b ∉ m.deleted ∧ b ∉ m.cache.deletedValues

/-- `new Block`. -/
def newBlock (m : BlockMemory) (data : Bytes) : BlockMemory :=
  { m with fresh := m.fresh + 1, block := update m.block m.fresh (.new data) }

/-- `Block::NewIterator`, and the function that is registered with the iterator. -/
def newIterator (m : BlockMemory) (b : ℕ) (function : Cleanup) : Except Stop DataIter :=
  if m.isLive b then .ok ⟨(m.block b).newIterator, some b, registerCleanup function []⟩
  else .error .undefined

/-- `Insert`, for a key that has not been found. A table of `2 ^ 31` entries cannot grow. -/
def insert (m : BlockMemory) (key : Bytes) (b : ℕ) : Except Stop (Handle × BlockMemory) := do
  let cache ← defined m.blockCache
  if (cache.shard (ShardedLRUCache.shardOf (ShardedLRUCache.hashSlice key))).elems < 2 ^ 31 then
    let (h, cache) ← defined (cache.insert key b (m.block b).size kDeleteCacheBlock)
    .ok (h, { m with blockCache := some cache })
  else .error .tableFull

/-- What the iterator is about to look at is still there. -/
def access (m : BlockMemory) (it : DataIter) : Except Stop Unit :=
  match it.block with
  | none => .ok ()
  | some b => if m.isLive b then .ok () else .error .undefined

/-- One cleanup function. -/
def cleanUp (m : BlockMemory) : Cleanup → Except Stop BlockMemory
  | .deleteBlock b =>
    if m.isLive b then .ok { m with deleted := b :: m.deleted } else .error .undefined
  | .releaseBlock h => do
    let cache ← defined m.blockCache
    let cache ← defined (cache.release h)
    .ok { m with blockCache := some cache }

/-- `Iterator::~Iterator`. -/
def deleteIterator (m : BlockMemory) (it : DataIter) : Except Stop BlockMemory :=
  it.cleanup.foldlM cleanUp m

end BlockMemory

/-! ### Tables -/

/-- A table with its number in the cache, which is zero if there is none. -/
structure CachedTable where
  table : Table
  cacheId : ℕ

namespace CachedTable

variable (sn : Snappy) (junk : ℕ → UInt8) (t : CachedTable) (options : ReadOptions)

def cacheKey (cacheId offset : ℕ) : Bytes := encodeFixed64 cacheId ++ encodeFixed64 offset

/-- What `BlockReader` does to get a block from the file. -/
def readFile (handle : BlockHandle) (m : BlockMemory) : Except Stop (DataIter × BlockMemory) := do
  let (s, contents) ← defined (readBlock sn junk t.table.file options.verifyChecksums handle)
  if s.ok then
    let b := m.fresh
    let m := m.newBlock contents.data
    if m.blockCache.isSome ∧ contents.cacheable ∧ options.fillCache then
      let (h, m) ← m.insert (cacheKey t.cacheId handle.offset) b
      .ok (← m.newIterator b (.releaseBlock h), m)
    else .ok (← m.newIterator b (.deleteBlock b), m)
  else .ok (⟨.empty s, none, []⟩, m)

/-- `BlockReader`. -/
def blockReader (indexValue : Bytes) (m : BlockMemory) : Except Stop (DataIter × BlockMemory) :=
  match BlockHandle.decodeFrom indexValue with
  | .error s => .ok (⟨.empty s, none, []⟩, m)
  | .ok (handle, _) =>
    match m.blockCache with
    | none => t.readFile sn junk options handle m
    | some cache => do
      match ← defined (cache.lookup (cacheKey t.cacheId handle.offset)) with
      | (some h, cache) =>
        let b ← defined (cache.value h)
        let m := { m with blockCache := some cache }
        .ok (← m.newIterator b (.releaseBlock h), m)
      | (none, cache) => t.readFile sn junk options handle { m with blockCache := some cache }

/-! ### Iterators over tables -/

/-- An iterator over a table: a two-level iterator whose data iterators are over blocks in
memory. -/
abbrev Iter := TwoLevelIterator AnyIter DataIter Bytes

/-- The two levels. The block function needs the memory, and is not called in this way. -/
def levels : Levels AnyIter DataIter Bytes Bytes where
  index := AnyIter.iterator t.table.options.comparator.compare
  indexStatus := AnyIter.status
  data := {
    step := fun it op => ((AnyIter.iterator t.table.options.comparator.compare).step it.iter op).map
      fun iter => { it with iter }
    entry := fun it => it.iter.entry }
  dataStatus := fun it => it.iter.status
  blockFunction := fun _ => none

/-- `SetDataIterator`, which deletes the old data iterator. -/
def setDataIterator (dataIter : Option DataIter) (it : Iter) (m : BlockMemory) :
    Except Stop (Iter × BlockMemory) :=
  match it.dataIter with
  | none => .ok (it.setDataIterator t.levels dataIter, m)
  | some w => do
    let m ← m.deleteIterator w.iter
    .ok (it.setDataIterator t.levels dataIter, m)

/-- `InitDataBlock`. -/
def initDataBlock (it : Iter) (m : BlockMemory) : Except Stop (Iter × BlockMemory) :=
  match it.indexIter.key with
  | none => t.setDataIterator none it m
  | some _ => do
    let handle ← defined (it.indexIter.value t.levels.index)
    if it.dataIter.isSome ∧ handle = it.dataBlockHandle then .ok (it, m)
    else
      let (iter, m) ← t.blockReader sn junk options handle m
      t.setDataIterator (some iter) { it with dataBlockHandle := handle } m

/-- Move the data iterator, if there is one. -/
def moveData (op : Op Bytes) (it : Iter) (m : BlockMemory) : Except Stop (Iter × BlockMemory) :=
  match it.dataIter with
  | none => .ok (it, m)
  | some w => do
    m.access w.iter
    let it ← defined (it.moveData t.levels op)
    .ok (it, m)

/-- Move the index iterator, open the block it leads to, and place the data iterator. -/
def moveBoth (indexOp dataOp : Op Bytes) (it : Iter) (m : BlockMemory) :
    Except Stop (Iter × BlockMemory) := do
  let it ← defined (it.moveIndex t.levels indexOp)
  let (it, m) ← t.initDataBlock sn junk options it m
  t.moveData dataOp it m

/-- The loop that skips blocks. -/
def skipEmptyDataBlocks (indexOp dataOp : Op Bytes) :
    ℕ → Iter → BlockMemory → Except Stop (Iter × BlockMemory)
  | 0, _, _ => .error .undefined
  | rounds + 1, it, m =>
    if it.valid then .ok (it, m)
    else
      match it.indexIter.key with
      | none => t.setDataIterator none it m
      | some _ => do
        let (it, m) ← t.moveBoth sn junk options indexOp dataOp it m
        skipEmptyDataBlocks indexOp dataOp rounds it m

/-- The rounds that the loops have. No block has more entries than bytes. -/
def rounds : ℕ := t.table.indexBlock.data.length + 2

/-- `Seek`, `SeekToFirst`, `SeekToLast`, `Next` and `Prev`. -/
def move (op : Op Bytes) (it : Iter) (m : BlockMemory) : Except Stop (Iter × BlockMemory) :=
  match op with
  | .seek target => do
    let (it, m) ← t.moveBoth sn junk options (.seek target) (.seek target) it m
    t.skipEmptyDataBlocks sn junk options .next .seekToFirst t.rounds it m
  | .seekToFirst => do
    let (it, m) ← t.moveBoth sn junk options .seekToFirst .seekToFirst it m
    t.skipEmptyDataBlocks sn junk options .next .seekToFirst t.rounds it m
  | .seekToLast => do
    let (it, m) ← t.moveBoth sn junk options .seekToLast .seekToLast it m
    t.skipEmptyDataBlocks sn junk options .prev .seekToLast t.rounds it m
  | .next =>
    if it.valid then do
      let (it, m) ← t.moveData .next it m
      t.skipEmptyDataBlocks sn junk options .next .seekToFirst t.rounds it m
    else .error .undefined
  | .prev =>
    if it.valid then do
      let (it, m) ← t.moveData .prev it m
      t.skipEmptyDataBlocks sn junk options .prev .seekToLast t.rounds it m
    else .error .undefined

/-- `NewIterator`. -/
def newIterator : Iter := .new t.levels t.table.indexBlock.newIterator

/-- `Valid`, `key`, `value` and `status`. The value is in the block. -/
def shown (it : Iter) (m : BlockMemory) : Except Stop (Option (Bytes × Bytes) × Status) :=
  match it.dataIter with
  | none => .ok (it.entry t.levels, it.status t.levels)
  | some w => do
    m.access w.iter
    .ok (it.entry t.levels, it.status t.levels)

/-- `~TwoLevelIterator`. -/
def deleteIterator (it : Iter) (m : BlockMemory) : Except Stop BlockMemory :=
  match it.dataIter with
  | none => .ok m
  | some w => m.deleteIterator w.iter

/-- `InternalGet`: its result, and the calls that it makes of `saver`. -/
def internalGet (k : Bytes) (m : BlockMemory) :
    Except Stop ((Status × List (Bytes × Bytes)) × BlockMemory) := do
  let iiter ← defined
    ((AnyIter.iterator t.table.options.comparator.compare).step t.table.indexBlock.newIterator
      (.seek k))
  match iiter.entry with
  | none => .ok ((iiter.status, []), m)
  | some (_, handleValue) =>
    if t.table.filterExcludes handleValue k then .ok ((iiter.status, []), m)
    else
      let (blockIter, m) ← t.blockReader sn junk options handleValue m
      m.access blockIter
      let moved ← defined (t.levels.data.step blockIter (.seek k))
      let s := t.levels.dataStatus moved
      let saved := (t.levels.data.entry moved).toList
      let m ← m.deleteIterator moved
      .ok ((if s.ok then iiter.status else s, saved), m)

end CachedTable

/-! ### Programs -/

namespace BlockCache

/-- An iterator that `NewIterator` has returned, with what it was given. -/
structure OpenIterator where
  table : CachedTable
  options : ReadOptions
  iter : CachedTable.Iter

structure World where
  memory : BlockMemory
  tables : List CachedTable
  iterators : List OpenIterator

inductive Op
  | openTable (options : Options) (file : RandomAccessFile)
  | newIterator (table : ℕ) (options : ReadOptions)
  | move (i : ℕ) (op : Cursor.Op Bytes)
  | look (i : ℕ)
  | deleteIterator (i : ℕ)
  | internalGet (table : ℕ) (options : ReadOptions) (k : Bytes)

/-- What the program sees of an operation. -/
inductive Output
  | done
  | opened (s : Status)
  | shown (entry : Option (Bytes × Bytes)) (s : Status)
  | got (s : Status) (saved : List (Bytes × Bytes))
  deriving DecidableEq

/-- Before any table is opened. -/
def new (capacity : Option ℕ) : World :=
  ⟨⟨capacity.map ShardedLRUCache.new, 0, fun _ => .new [], []⟩, [], []⟩

variable (sn : Snappy) (junk : ℕ → UInt8)

/-- The number of a new table in the cache. -/
def newId (m : BlockMemory) : ℕ × BlockMemory :=
  match m.blockCache with
  | none => (0, m)
  | some cache => (cache.newId.1, { m with blockCache := some cache.newId.2 })

def step (w : World) : Op → Except Stop (Output × World)
  | .openTable options file => do
    match ← defined (Table.openTable sn junk options file file.contents.length) with
    | (s, none) => .ok (.opened s, w)
    | (s, some table) =>
      let (cacheId, memory) := newId w.memory
      .ok (.opened s, { w with memory, tables := w.tables ++ [⟨table, cacheId⟩] })
  | .newIterator i options => do
    let t ← defined w.tables[i]?
    .ok (.done, { w with iterators := ⟨t, options, t.newIterator⟩ :: w.iterators })
  | .move i op => do
    let it ← defined w.iterators[i]?
    let (iter, memory) ← it.table.move sn junk it.options op it.iter w.memory
    .ok (.done, { w with memory, iterators := w.iterators.set i { it with iter } })
  | .look i => do
    let it ← defined w.iterators[i]?
    let (entry, s) ← it.table.shown it.iter w.memory
    .ok (.shown entry s, w)
  | .deleteIterator i => do
    let it ← defined w.iterators[i]?
    let memory ← CachedTable.deleteIterator it.iter w.memory
    .ok (.done, { w with memory, iterators := w.iterators.eraseIdx i })
  | .internalGet i options k => do
    let t ← defined w.tables[i]?
    let ((s, saved), memory) ← t.internalGet sn junk options k w.memory
    .ok (.got s saved, { w with memory })

/-! ### Without memory -/

structure PlainIterator where
  table : Table
  verifyChecksums : Bool
  iter : TwoLevelIterator AnyIter AnyIter Bytes

structure Plain where
  tables : List Table
  iterators : List PlainIterator

def plainStep (w : Plain) : Op → Option (Output × Plain)
  | .openTable options file => do
    match ← Table.openTable sn junk options file file.contents.length with
    | (s, none) => some (.opened s, w)
    | (s, some table) => some (.opened s, { w with tables := w.tables ++ [table] })
  | .newIterator i options => do
    let t ← w.tables[i]?
    some (.done, { w with iterators := ⟨t, options.verifyChecksums,
      t.newIterator sn junk options.verifyChecksums⟩ :: w.iterators })
  | .move i op => do
    let it ← w.iterators[i]?
    let iter ← (it.table.iterator sn junk it.verifyChecksums).step it.iter op
    some (.done, { w with iterators := w.iterators.set i { it with iter } })
  | .look i => do
    let it ← w.iterators[i]?
    let L := it.table.levels sn junk it.verifyChecksums
    some (.shown (it.iter.entry L) (it.iter.status L), w)
  | .deleteIterator i => do
    let _ ← w.iterators[i]?
    some (.done, { w with iterators := w.iterators.eraseIdx i })
  | .internalGet i options k => do
    let t ← w.tables[i]?
    let (s, saved) ← t.internalGet sn junk options.verifyChecksums k
    some (.got s saved, w)

end BlockCache

end Squirrel
