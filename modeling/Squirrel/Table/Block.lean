import Squirrel.Lib.Cursor
import Squirrel.Util.Coding
import Squirrel.Util.Env

/-!
# Blocks

A block is a sequence of entries followed by an array of restart points and their number. An entry
stores how many bytes its key shares with the key before it, so entries can only be parsed from a
restart point on, where nothing is shared.

`Block::Iter` walks over bytes that nobody has checked: all lengths and offsets come from the block.
Pointers into the block are offsets here, and every access goes through `Region.read`, which fails
outside of it; a failed assertion fails as well. The operations return nothing in both cases, and
also when a loop runs out of fuel, so that a returned state says that none of that happened.

`DecodeEntry` is a parameter of the operations. `decodeEntry` is the function of the source, with
the 32-bit sum it makes of two lengths; `wellFormedEntry` is what an entry should be. Between the
two lies all that can go wrong.
-/

namespace Squirrel

open Coding

/-! ### `Block` -/

/-- A `Block`; `size` is `0` to mark bad contents, which leave the restart offset unset. -/
structure Block where
  data : Bytes
  size : ℕ
  restartOffset : ℕ

namespace Block

/-- `NumRestarts`: the last four bytes. -/
def numRestarts (data : Bytes) : ℕ := decodeFixed32 (data.drop (data.length - 4))

/-- The constructor. -/
def new (data : Bytes) : Block :=
  if data.length < 4 then ⟨data, 0, 0⟩
  else
    let maxRestartsAllowed := (data.length - 4) / 4
    if maxRestartsAllowed < numRestarts data then ⟨data, 0, 0⟩
    else
      ⟨data, data.length, (data.length - (1 + numRestarts data) % 2 ^ 32 * 4) % 2 ^ 32⟩

/-! ### Entries -/

/-- The decoded beginning of an entry: three lengths, and the offset of the key's own bytes. -/
structure Entry where
  shared : ℕ
  nonShared : ℕ
  valueLength : ℕ
  keyPtr : ℕ
  deriving DecidableEq

/-- The value starts where the key ends. -/
def Entry.valuePtr (e : Entry) : ℕ := e.keyPtr + e.nonShared

/-- The next entry starts where the value ends. -/
def Entry.limit (e : Entry) : ℕ := e.valuePtr + e.valueLength

/-- The three lengths at the front of `p`, and what follows them. The first branch is a shortcut for
three varints of one byte. -/
def decodeLengths (p : Bytes) : Option ((ℕ × ℕ × ℕ) × Bytes) :=
  if p.length < 3 then none
  else if byteAt p 0 ||| byteAt p 1 ||| byteAt p 2 < 128 then
    some ((byteAt p 0, byteAt p 1, byteAt p 2), p.drop 3)
  else do
    let (shared, p) ← getVarint32Ptr p
    let (nonShared, p) ← getVarint32Ptr p
    let (valueLength, p) ← getVarint32Ptr p
    some ((shared, nonShared, valueLength), p)

/-- `DecodeEntry(data + p, data + limit)`. The lengths are added as `uint32_t`. -/
def decodeEntry (data : Bytes) (limit p : ℕ) : Option Entry :=
  match decodeLengths ((data.take limit).drop p) with
  | none => none
  | some ((shared, nonShared, valueLength), rest) =>
    if rest.length % 2 ^ 32 < (nonShared + valueLength) % 2 ^ 32 then none
    else some ⟨shared, nonShared, valueLength, limit - rest.length⟩

/-- The entry at `p`, if there is one that ends at `limit` or before. -/
def wellFormedEntry (data : Bytes) (limit p : ℕ) : Option Entry :=
  match decodeLengths ((data.take limit).drop p) with
  | none => none
  | some ((shared, nonShared, valueLength), rest) =>
    if rest.length < nonShared + valueLength then none
    else some ⟨shared, nonShared, valueLength, limit - rest.length⟩

/-! ### `Block::Iter` -/

/-- The constant members of an `Iter`: the block, where its restart points are, and how many. -/
structure Region where
  data : Bytes
  restarts : ℕ
  numRestarts : ℕ

/-- A slice of the block. -/
structure Extent where
  offset : ℕ
  size : ℕ
  deriving DecidableEq

/-- The variable members of an `Iter`. `value` is nothing when it is a slice of no block. -/
structure Iter where
  current : ℕ
  restartIndex : ℕ
  key : Bytes
  value : Option Extent
  status : Status
  deriving DecidableEq

namespace Region

/-- `n` bytes of the block, from `offset` on. -/
def read (r : Region) (offset n : ℕ) : Option Bytes :=
  if offset + n ≤ r.data.length then some ((r.data.drop offset).take n) else none

/-- `GetRestartPoint`. -/
def getRestartPoint (r : Region) (index : ℕ) : Option ℕ :=
  if index < r.numRestarts then (r.read (r.restarts + index * 4) 4).map decodeFixed32 else none

/-- The loop at the end of `ParseNextKey`, which moves to the last restart point before `current`
(at most `fuel` steps on). -/
def skipRestarts (r : Region) (current : ℕ) : ℕ → ℕ → Option ℕ
  | 0, index => some index
  | fuel + 1, index =>
    if index + 1 < r.numRestarts then do
      if (← r.getRestartPoint (index + 1)) < current then r.skipRestarts current fuel (index + 1)
      else some index
    else some index

/-- The first loop of `Prev`: the last restart point up to `index` that is before `original`, if
there is one. -/
def scanBack (r : Region) (original : ℕ) : ℕ → Option (Option ℕ)
  | 0 => do
    if original ≤ (← r.getRestartPoint 0) then some none else some (some 0)
  | index + 1 => do
    if original ≤ (← r.getRestartPoint (index + 1)) then r.scanBack original index
    else some (some (index + 1))

end Region

namespace Iter

/-- The constructor. -/
def new (r : Region) : Iter := ⟨r.restarts, r.numRestarts, [], none, .success⟩

/-- `Valid`. -/
def Valid (r : Region) (it : Iter) : Prop := it.current < r.restarts

instance (r : Region) (it : Iter) : Decidable (it.Valid r) := inferInstanceAs (Decidable (_ < _))

/-- `NextEntryOffset`. -/
def nextEntryOffset (it : Iter) : Option ℕ := it.value.map fun v => (v.offset + v.size) % 2 ^ 32

/-- `SeekToRestartPoint`. -/
def seekToRestartPoint (r : Region) (index : ℕ) (it : Iter) : Option Iter := do
  let offset ← r.getRestartPoint index
  some { it with key := [], restartIndex := index, value := some ⟨offset, 0⟩ }

/-- What `ParseNextKey` and `Prev` do where there is no entry. -/
def invalidate (r : Region) (it : Iter) : Iter :=
  { it with current := r.restarts, restartIndex := r.numRestarts }

/-- `CorruptionError`. -/
def corruptionError (r : Region) : Iter :=
  ⟨r.restarts, r.numRestarts, [], none, .corruption "bad entry in block"⟩

/-- `ParseNextKey`. -/
def parseNextKey (decode : Bytes → ℕ → ℕ → Option Entry) (r : Region) (it : Iter) :
    Option (Bool × Iter) := do
  let current ← it.nextEntryOffset
  if r.restarts ≤ current then some (false, it.invalidate r)
  else
    match decode r.data r.restarts current with
    | none => some (false, corruptionError r)
    | some e =>
      if it.key.length < e.shared then some (false, corruptionError r)
      else
        let delta ← r.read e.keyPtr e.nonShared
        let index ← r.skipRestarts current (r.numRestarts - it.restartIndex) it.restartIndex
        some (true, { it with
          current
          restartIndex := index
          key := it.key.take e.shared ++ delta
          value := some ⟨e.valuePtr, e.valueLength⟩ })

/-- The loops of `Prev` and `SeekToLast`: parse entries until one ends at `bound` or behind it. -/
def parseUntil (decode : Bytes → ℕ → ℕ → Option Entry) (r : Region) (bound : ℕ) :
    ℕ → Iter → Option Iter
  | 0, _ => none
  | fuel + 1, it => do
    match ← it.parseNextKey decode r with
    | (false, it) => some it
    | (true, it) =>
      if (← it.nextEntryOffset) < bound then it.parseUntil decode r bound fuel else some it

/-- The linear search of `Seek`. -/
def parseUpTo (cmp : Bytes → Bytes → Ordering) (decode : Bytes → ℕ → ℕ → Option Entry) (r : Region)
    (target : Bytes) : ℕ → Iter → Option Iter
  | 0, _ => none
  | fuel + 1, it => do
    match ← it.parseNextKey decode r with
    | (false, it) => some it
    | (true, it) =>
      if cmp it.key target ≠ .lt then some it else it.parseUpTo cmp decode r target fuel

/-- The binary search of `Seek`: the last restart point with a key before `target`, or nothing if
the entry at some restart point is bad. -/
def bisect (cmp : Bytes → Bytes → Ordering) (decode : Bytes → ℕ → ℕ → Option Entry) (r : Region)
    (target : Bytes) : ℕ → ℕ → ℕ → Option (Option ℕ)
  | 0, _, _ => none
  | fuel + 1, left, right =>
    if left < right then do
      let mid := (left + right + 1) / 2
      let regionOffset ← r.getRestartPoint mid
      match decode r.data r.restarts regionOffset with
      | none => some none
      | some e =>
        if e.shared ≠ 0 then some none
        else
          let midKey ← r.read e.keyPtr e.nonShared
          if cmp midKey target = .lt then bisect cmp decode r target fuel mid right
          else bisect cmp decode r target fuel left (mid - 1)
    else some (some left)

/-- `Seek`. -/
def seek (cmp : Bytes → Bytes → Ordering) (decode : Bytes → ℕ → ℕ → Option Entry) (r : Region)
    (target : Bytes) (it : Iter) : Option Iter := do
  match ← bisect cmp decode r target r.numRestarts 0 (r.numRestarts - 1) with
  | none => some (corruptionError r)
  | some left => (← it.seekToRestartPoint r left).parseUpTo cmp decode r target (r.restarts + 1)

/-- `SeekToFirst`. -/
def seekToFirst (decode : Bytes → ℕ → ℕ → Option Entry) (r : Region) (it : Iter) : Option Iter := do
  let (_, it) ← (← it.seekToRestartPoint r 0).parseNextKey decode r
  some it

/-- `SeekToLast`. -/
def seekToLast (decode : Bytes → ℕ → ℕ → Option Entry) (r : Region) (it : Iter) : Option Iter := do
  (← it.seekToRestartPoint r (r.numRestarts - 1)).parseUntil decode r r.restarts (r.restarts + 1)

/-- `Next`. -/
def next (decode : Bytes → ℕ → ℕ → Option Entry) (r : Region) (it : Iter) : Option Iter :=
  if it.Valid r then do
    let (_, it) ← it.parseNextKey decode r
    some it
  else none

/-- `Prev`. -/
def prev (decode : Bytes → ℕ → ℕ → Option Entry) (r : Region) (it : Iter) : Option Iter :=
  if it.Valid r then do
    match ← r.scanBack it.current it.restartIndex with
    | none => some (it.invalidate r)
    | some index =>
      (← it.seekToRestartPoint r index).parseUntil decode r it.current (r.restarts + 1)
  else none

/-- All operations. -/
def step (cmp : Bytes → Bytes → Ordering) (decode : Bytes → ℕ → ℕ → Option Entry) (r : Region)
    (it : Iter) : Cursor.Op Bytes → Option Iter
  | .seek target => it.seek cmp decode r target
  | .seekToFirst => it.seekToFirst decode r
  | .seekToLast => it.seekToLast decode r
  | .next => it.next decode r
  | .prev => it.prev decode r

end Iter

/-! ### `Block::NewIterator` -/

/-- The iterators that blocks give out. An empty one has only a status. -/
inductive AnyIter
  | empty (status : Status)
  | entries (r : Region) (it : Iter)

/-- `NewIterator`. -/
def newIterator (b : Block) : AnyIter :=
  if b.size < 4 then .empty (.corruption "bad block contents")
  else if numRestarts b.data = 0 then .empty .success
  else
    let r : Region := ⟨b.data, b.restartOffset, numRestarts b.data⟩
    .entries r (.new r)

namespace AnyIter

/-- `Valid`. -/
def Valid : AnyIter → Prop
  | empty _ => False
  | entries r it => it.Valid r

/-- The operations. An `EmptyIterator` ignores the seeks and asserts that nothing else is called. -/
def step (cmp : Bytes → Bytes → Ordering) (decode : Bytes → ℕ → ℕ → Option Entry) :
    AnyIter → Cursor.Op Bytes → Option AnyIter
  | empty s, .seek _ => some (empty s)
  | empty s, .seekToFirst => some (empty s)
  | empty s, .seekToLast => some (empty s)
  | empty _, _ => none
  | entries r it, op => (it.step cmp decode r op).map (entries r)

/-- `status`. -/
def status : AnyIter → Status
  | empty s => s
  | entries _ it => it.status

/-- `key` and `value`, if the iterator is valid. -/
def entry : AnyIter → Option (Bytes × Bytes)
  | empty _ => none
  | entries r it =>
    if it.Valid r then do
      let v ← it.value
      some (it.key, (r.data.drop v.offset).take v.size)
    else none

end AnyIter

end Block

end Squirrel
