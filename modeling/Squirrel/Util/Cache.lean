import Squirrel.Lib.LittleEndian
import Mathlib.Logic.Function.Basic

/-!
# The LRU cache

One shard of the cache: a hash table and a list, both threaded through the same handles. A handle is
the number of its allocation and `lru_`, the dummy head of the list, is handle `0`. The fields of
all handles are kept as one map for each field, so that an assignment to `e->next` is an update of
`next` at `e`.

`malloc` never gives a handle twice. A freed handle is no longer `live`, and going through a pointer
to it is an error, like a failed assertion. The deleter's calls are recorded in the order they are
made. The loops follow pointers and run on fuel, one unit for every handle ever allocated.

The hash table and the reference counts are those of the source, 32-bit wraps included; of the
fields of a handle only `in_cache` is left out, which nothing reads or writes.

## Main definitions

* `LRUCache.insert`, `LRUCache.lookup`, `LRUCache.release`, `LRUCache.erase`, `LRUCache.destroy`
-/

namespace Squirrel

/-- The fields of an `LRUHandle` that are written once. -/
structure LRUEntry where
  /-- `value`, a `void*`. -/
  value : ℕ
  /-- `deleter`, a pointer to a function. -/
  deleter : ℕ
  charge : ℕ
  key : Bytes
  hash : ℕ
  deriving DecidableEq, Inhabited

/-- One call of a deleter, and the handle it was made for. -/
structure Deletion where
  handle : ℕ
  deleter : ℕ
  key : Bytes
  value : ℕ
  deriving DecidableEq

structure LRUCache where
  capacity : ℕ
  usage : ℕ
  entry : ℕ → LRUEntry
  refs : ℕ → ℕ
  next : ℕ → ℕ
  prev : ℕ → ℕ
  nextHash : ℕ → Option ℕ
  /-- Allocated and not freed; `lru_` always is. -/
  live : ℕ → Bool
  /-- The handle `malloc` returns next. -/
  fresh : ℕ
  /-- `table_.list_`, of `table_.length_` buckets. -/
  list : List (Option ℕ)
  /-- `table_.elems_`. -/
  elems : ℕ
  deleted : List Deletion

namespace LRUCache

open Function (update)

/-- `e->key()`. A handle that is its own successor is taken for a temporary one, whose `value`
points to a slice; no handle of a cache is made that way. -/
def key (c : LRUCache) (e : ℕ) : Option Bytes :=
  if c.live e = false ∨ c.next e = e then none else some (c.entry e).key

/-! ### `HandleTable` -/

/-- What `FindPointer` returns: the address of a bucket or of a `next_hash`. -/
inductive Slot
  | bucket (i : ℕ)
  | nextHash (e : ℕ)
  deriving DecidableEq

/-- `*ptr`. -/
def load (c : LRUCache) : Slot → Option ℕ
  | .bucket i => c.list.getD i none
  | .nextHash e => c.nextHash e

/-- `*ptr = p`. -/
def store (c : LRUCache) (p : Option ℕ) : Slot → LRUCache
  | .bucket i => { c with list := c.list.set i p }
  | .nextHash e => { c with nextHash := update c.nextHash e p }

def findPointerLoop (c : LRUCache) (key : Bytes) (hash : ℕ) : ℕ → Slot → Option Slot
  | 0, _ => none
  | fuel + 1, ptr =>
    match c.load ptr with
    | none => some ptr
    | some h =>
      if c.live h = false then none
      else if (c.entry h).hash ≠ hash then findPointerLoop c key hash fuel (.nextHash h)
      else do
        if key ≠ (← c.key h) then findPointerLoop c key hash fuel (.nextHash h) else some ptr

/-- `FindPointer`. -/
def findPointer (c : LRUCache) (key : Bytes) (hash : ℕ) : Option Slot :=
  findPointerLoop c key hash (c.fresh + 1) (.bucket (hash &&& (c.list.length - 1)))

/-- The loop of `Resize` that doubles `new_length`, a `uint32_t`. From `2 ^ 31` on it is zero and
the loop does not end. -/
def newLengthLoop (elems : ℕ) : ℕ → ℕ → Option ℕ
  | 0, _ => none
  | fuel + 1, newLength =>
    if newLength < elems then newLengthLoop elems fuel (newLength * 2 % 2 ^ 32) else some newLength

/-- What `Resize` works on: the links of the handles, `new_list` and `count`. -/
structure Rehash where
  nextHash : ℕ → Option ℕ
  newList : List (Option ℕ)
  count : ℕ

/-- The inner loop of `Resize`: the handles from `h` on are moved to the front of their new
lists. -/
def rehashChain (c : LRUCache) : ℕ → Rehash → Option ℕ → Option Rehash
  | _, st, none => some st
  | 0, _, some _ => none
  | fuel + 1, st, some h =>
    if c.live h = false then none
    else
      let next := st.nextHash h
      let i := (c.entry h).hash &&& (st.newList.length - 1)
      rehashChain c fuel
        ⟨update st.nextHash h (st.newList.getD i none), st.newList.set i (some h),
          (st.count + 1) % 2 ^ 32⟩ next

/-- `Resize`, with its assertion. -/
def resize (c : LRUCache) : Option LRUCache := do
  let newLength ← newLengthLoop c.elems 32 4
  let st ← (List.range c.list.length).foldlM
    (fun st i => rehashChain c c.fresh st (c.list.getD i none))
    ⟨c.nextHash, List.replicate newLength none, 0⟩
  if c.elems = st.count then some { c with nextHash := st.nextHash, list := st.newList } else none

/-- `table_.Lookup`. -/
def tableLookup (c : LRUCache) (key : Bytes) (hash : ℕ) : Option (Option ℕ) := do
  some (c.load (← c.findPointer key hash))

/-- `table_.Insert`: the entry that was replaced, if any. -/
def tableInsert (c : LRUCache) (h : ℕ) : Option (Option ℕ × LRUCache) := do
  let ptr ← c.findPointer (← c.key h) (c.entry h).hash
  let old := c.load ptr
  let c := { c with nextHash := update c.nextHash h (old.bind c.nextHash) }
  let c := c.store (some h) ptr
  if old = none then
    let c := { c with elems := (c.elems + 1) % 2 ^ 32 }
    if c.list.length < c.elems then some (old, ← c.resize) else some (old, c)
  else some (old, c)

/-- `table_.Remove`: the entry that was removed, if any. -/
def tableRemove (c : LRUCache) (key : Bytes) (hash : ℕ) : Option (Option ℕ × LRUCache) := do
  let ptr ← c.findPointer key hash
  match c.load ptr with
  | none => some (none, c)
  | some result =>
    let c := c.store (c.nextHash result) ptr
    some (some result, { c with elems := (c.elems + 2 ^ 32 - 1) % 2 ^ 32 })

/-! ### The list -/

/-- `LRU_Remove`. -/
def lruRemove (c : LRUCache) (e : ℕ) : Option LRUCache :=
  if c.live e ∧ c.live (c.next e) ∧ c.live (c.prev e) then
    let c := { c with prev := update c.prev (c.next e) (c.prev e) }
    some { c with next := update c.next (c.prev e) (c.next e) }
  else none

/-- `LRU_Append`: `e` becomes the newest entry. -/
def lruAppend (c : LRUCache) (e : ℕ) : Option LRUCache :=
  let c := { c with next := update c.next e 0 }
  let c := { c with prev := update c.prev e (c.prev 0) }
  if c.live e ∧ c.live (c.prev e) then
    let c := { c with next := update c.next (c.prev e) e }
    some { c with prev := update c.prev (c.next e) e }
  else none

/-- `Unref`. -/
def unref (c : LRUCache) (e : ℕ) : Option LRUCache := do
  if c.live e = false ∨ c.refs e = 0 then none
  else
    let c := { c with refs := update c.refs e (c.refs e - 1) }
    if c.refs e = 0 then
      let c := { c with usage := (c.usage + 2 ^ 64 - (c.entry e).charge) % 2 ^ 64 }
      let key ← c.key e
      let call : Deletion := ⟨e, (c.entry e).deleter, key, (c.entry e).value⟩
      some { c with deleted := c.deleted ++ [call], live := update c.live e false }
    else some c

/-! ### The operations -/

/-- The constructor, and `SetCapacity`. The first `Resize` makes four empty buckets. -/
def new (capacity : ℕ) : LRUCache where
  capacity := capacity
  usage := 0
  entry := default
  refs := fun _ => 0
  next := fun _ => 0
  prev := fun _ => 0
  nextHash := fun _ => none
  live := fun e => e = 0
  fresh := 1
  list := List.replicate 4 none
  elems := 0
  deleted := []

def lookup (c : LRUCache) (key : Bytes) (hash : ℕ) : Option (Option ℕ × LRUCache) := do
  match ← c.tableLookup key hash with
  | none => some (none, c)
  | some e =>
    let c := { c with refs := update c.refs e ((c.refs e + 1) % 2 ^ 32) }
    let c ← c.lruRemove e
    some (some e, ← c.lruAppend e)

def release (c : LRUCache) (handle : ℕ) : Option LRUCache := c.unref handle

/-- The loop at the end of `Insert`: the oldest entry goes while there is too much. -/
def evictLoop : ℕ → LRUCache → Option LRUCache
  | 0, _ => none
  | fuel + 1, c =>
    if c.capacity < c.usage ∧ c.next 0 ≠ 0 then do
      let old := c.next 0
      let c ← c.lruRemove old
      let (_, c) ← c.tableRemove (← c.key old) (c.entry old).hash
      evictLoop fuel (← c.unref old)
    else some c

/-- `Insert`. The fields of the new handle that are not written yet keep what was there. -/
def insert (c : LRUCache) (key : Bytes) (hash value charge deleter : ℕ) :
    Option (ℕ × LRUCache) := do
  let e := c.fresh
  let c := { c with
    fresh := e + 1
    live := update c.live e true
    entry := update c.entry e ⟨value, deleter, charge, key, hash⟩
    refs := update c.refs e 2 }
  let c ← c.lruAppend e
  let c := { c with usage := (c.usage + charge) % 2 ^ 64 }
  let (old, c) ← c.tableInsert e
  let c ← match old with
    | none => some c
    | some old => do (← c.lruRemove old).unref old
  some (e, ← evictLoop c.fresh c)

def erase (c : LRUCache) (key : Bytes) (hash : ℕ) : Option LRUCache := do
  let (e, c) ← c.tableRemove key hash
  match e with
  | none => some c
  | some e => (← c.lruRemove e).unref e

/-- The loop of the destructor. -/
def destroyLoop : ℕ → LRUCache → ℕ → Option LRUCache
  | 0, _, _ => none
  | fuel + 1, c, e =>
    if e = 0 then some c
    else
      let next := c.next e
      if c.refs e = 1 then do destroyLoop fuel (← c.unref e) next else none

/-- The destructor, which asserts that nothing is left with a handle. -/
def destroy (c : LRUCache) : Option LRUCache := destroyLoop c.fresh c (c.next 0)

end LRUCache

end Squirrel
