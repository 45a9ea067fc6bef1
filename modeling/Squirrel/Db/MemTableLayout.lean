import Squirrel.Db.MemTableIterator
import Squirrel.Db.SkipListLayout

/-!
# How a memtable is stored

`Add` gets a buffer from the arena, encodes the entry into it piece by piece, and inserts the
pointer into the skip list, whose nodes are in the same arena. From then on the entry is known by
its address: the comparator, `Get` and iterators decode its lengths out of memory and follow
pointers that they have computed. A lookup key and the target of a seek are somewhere else in memory
while they are compared with entries.

In memory every byte that is read must have been written. `addAll_stored` says that nothing else is
read, and that the memtable does there what `MemTable` says of lists of bytes.

## Main definitions

* `MemTableLayout.add`, `MemTableLayout.get`, `MemTableLayout.step`

## Main results

* `Holds.add` — one call of `Add`
* `addAll_stored` — reads and iterators after any calls of `Add`
-/

namespace Squirrel

open Std Carving Coding MemTable SkipListLayout

namespace MemTableLayout

/-- `GetVarint32Ptr(p, p + 5, &value)`: the value, and where it ends. -/
def getVarint32Ptr (mem : ByteMemory) (p : ℕ) : Option (ℕ × ℕ) := do
  let bytes := mem.span p 5
  let (value, rest) ← Coding.getVarint32Ptr bytes
  some (value, p + (bytes.length - rest.length))

/-- `GetLengthPrefixedSlice(data)`: where the slice is, and its length. -/
def getLengthPrefixedSlice (mem : ByteMemory) (data : ℕ) : Option (ℕ × ℕ) := do
  let (len, p) ← getVarint32Ptr mem data
  some (p, len)

/-- The bytes of that slice. -/
def readSlice (mem : ByteMemory) (data : ℕ) : Option Bytes := do
  let (p, len) ← getLengthPrefixedSlice mem data
  mem.read p len

/-- `KeyComparator`. -/
def keyComparator (c : Comparator) (mem : ByteMemory) (aptr bptr : ℕ) : Option Ordering := do
  let a ← readSlice mem aptr
  let b ← readSlice mem bptr
  some (InternalKeyComparator.compare c a b)

/-- `encoded_len` of `Add`. -/
def encodedLen (key value : Bytes) : ℕ :=
  let internalKeySize := key.length + 8
  varintLength internalKeySize + internalKeySize + varintLength value.length + value.length

/-- Bytes that are stored at `p`, and the address behind them. -/
def put (mem : ByteMemory) (p : ℕ) (bytes : Bytes) : ByteMemory × ℕ :=
  (mem.write p bytes, p + bytes.length)

/-- `Add`, where the skip list draws `height`. The arena asks the runtime first for the buffer, then
for the node. -/
def add (c : Comparator) (rounds : ℕ) (forBuf forNode : Runtime) (m : SkipListLayout) (s : ℕ)
    (type : ValueType) (key value : Bytes) (height : ℕ) : Option SkipListLayout :=
  let keySize := key.length
  let valSize := value.length
  let internalKeySize := keySize + 8
  let (buf, arena) := m.arena.allocate forBuf (encodedLen key value)
  let (mem, p) := put m.mem buf (encodeVarint32 (internalKeySize % 2 ^ 32))
  let (mem, p) := put mem p key
  let (mem, p) := put mem p (encodeFixed64 (tag s type))
  let (mem, p) := put mem p (encodeVarint32 (valSize % 2 ^ 32))
  let mem := mem.write p value
  if p + valSize - buf = encodedLen key value then
    SkipListLayout.insert (keyComparator c) forNode rounds { m with arena := arena, mem := mem } buf
      height
  else none

/-- `ApproximateMemoryUsage`. -/
def approximateMemoryUsage (m : SkipListLayout) : ℕ := m.arena.memoryUsage

/-- What `Get` does with the entry that its seek has found. -/
def readEntry (c : Comparator) (mem : ByteMemory) (entry : ℕ) (userKey value : Bytes) (s : Status) :
    Option (Bool × Bytes × Status) := do
  let (keyLength, keyPtr) ← getVarint32Ptr mem entry
  if keyLength < 8 then none
  else
    let user ← mem.read keyPtr (keyLength - 8)
    if c.compare user userKey = .eq then
      let tag ← mem.read (keyPtr + keyLength - 8) 8
      match ValueType.ofNat? (decodeFixed64 tag &&& 0xff) with
      | some .kTypeValue => do
        let v ← readSlice mem (keyPtr + keyLength)
        some (true, v, s)
      | some .kTypeDeletion => some (true, value, .notFound "")
      | none => some (false, value, s)
    else some (false, value, s)

/-- The memory while other bytes are at `start`. -/
def withBytes (m : SkipListLayout) (start : ℕ) (bytes : Bytes) : SkipListLayout :=
  { m with mem := m.mem.write start bytes }

/-- `Get`, with the lookup key at `start`. -/
def get (c : Comparator) (rounds : ℕ) (m : SkipListLayout) (start : ℕ) (key : LookupKey)
    (value : Bytes) (s : Status) : Option (Bool × Bytes × Status) := do
  let m := withBytes m start key.memtableKey
  let node ← SkipListLayout.iterStep (keyComparator c) rounds m 0 (.seek start)
  if node = 0 then some (false, value, s)
  else readEntry c m.mem (← m.key node) key.userKey value s

/-- The operations of a `MemTableIterator`, whose `iter_` is at the node `it`. A seek encodes its
target into `tmp_`, which is at some address then. -/
def step (c : Comparator) (rounds : ℕ) (m : SkipListLayout) (it : ℕ) :
    Cursor.Op (ℕ × Bytes) → Option ℕ
  | .seek (tmp, k) =>
    SkipListLayout.iterStep (keyComparator c) rounds (withBytes m tmp (encodeKey k)) it (.seek tmp)
  | .seekToFirst => SkipListLayout.iterStep (keyComparator c) rounds m it .seekToFirst
  | .seekToLast => SkipListLayout.iterStep (keyComparator c) rounds m it .seekToLast
  | .next => SkipListLayout.iterStep (keyComparator c) rounds m it .next
  | .prev => SkipListLayout.iterStep (keyComparator c) rounds m it .prev

/-- `key`. -/
def key (m : SkipListLayout) (it : ℕ) : Option Bytes :=
  if it = 0 then none else do readSlice m.mem (← m.key it)

/-- `value`: the slice behind the key. -/
def value (m : SkipListLayout) (it : ℕ) : Option Bytes :=
  if it = 0 then none else do
    let (p, len) ← getLengthPrefixedSlice m.mem (← m.key it)
    readSlice m.mem (p + len)

/-! ### Runs -/

/-- A call of `Add`, and what the runtime answers in it. -/
structure Call where
  entry : Entry
  forBuf : Runtime
  forNode : Runtime

/-- Calls of `Add` one after another. -/
def addAll (c : Comparator) (rounds : ℕ) (m : SkipListLayout) (calls : List Call) :
    Option SkipListLayout :=
  calls.foldlM
    (fun m call => add c rounds call.forBuf call.forNode m call.entry.sequence call.entry.type
    call.entry.key call.entry.value call.entry.height) m

/-- The arena with the buffer of an entry. -/
def bufArena (a : Arena) (call : Call) : Arena :=
  (a.allocate call.forBuf (encodedLen call.entry.key call.entry.value)).2

/-- The arena behind the call. -/
def nodeArena (a : Arena) (call : Call) : Arena :=
  ((bufArena a call).allocateAligned call.forNode (nodeSize call.entry.height)).2

/-- What is assumed of the runtime: the arena is `Live` after each allocation. -/
def LiveCalls : Arena → List Call → Prop
  | _, [] => True
  | a, call :: calls => (bufArena a call).Live ∧ (nodeArena a call).Live ∧
    LiveCalls (nodeArena a call) calls

/-! ### Slices in memory -/

variable {mem : ByteMemory} {p : ℕ} {k rest : Bytes}

theorem length_encodeVarint32_le {v : ℕ} (hv : v < 2 ^ 32) : (encodeVarint32 v).length ≤ 5 := by
  rw [encodeVarint32_eq hv]
  exact LittleEndian.length_base128_le (Nat.lt_trans hv (by norm_num))

theorem getVarint32Ptr_of_read {v : ℕ} (hv : v < 2 ^ 32)
    (h : mem.read p (encodeVarint32 v).length = some (encodeVarint32 v)) :
    getVarint32Ptr mem p = some (v, p + (encodeVarint32 v).length) := by
  have hspan := ByteMemory.span_of_read h (5 - (encodeVarint32 v).length)
  rw [Nat.add_sub_cancel' (length_encodeVarint32_le hv)] at hspan
  rw [getVarint32Ptr, hspan, getVarint32Ptr_encodeVarint32 hv, Option.bind_eq_bind,
    Option.bind_some]
  dsimp only
  rw [List.length_append, Nat.add_sub_cancel]

/-- A slice behind its length. -/
theorem getLengthPrefixedSlice_of_read (hk : k.length < 2 ^ 32)
    (h : mem.read p (encodeVarint32 k.length ++ (k ++ rest)).length
      = some (encodeVarint32 k.length ++ (k ++ rest))) :
    ∃ q, getVarint32Ptr mem p = some (k.length, q) ∧ getLengthPrefixedSlice mem p
      = some (q, k.length) ∧
      mem.read q (k ++ rest).length = some (k ++ rest) := by
  have hptr := getVarint32Ptr_of_read hk (ByteMemory.read_left h)
  refine ⟨_, hptr, ?_, ByteMemory.read_right h⟩
  rw [getLengthPrefixedSlice, hptr]
  rfl

theorem readSlice_of_read (hk : k.length < 2 ^ 32)
    (h : mem.read p (encodeVarint32 k.length ++ (k ++ rest)).length
      = some (encodeVarint32 k.length ++ (k ++ rest))) : readSlice mem p = some k := by
  obtain ⟨q, -, hslice, hread⟩ := getLengthPrefixedSlice_of_read hk h
  rw [readSlice, hslice, Option.bind_eq_bind, Option.bind_some]
  exact ByteMemory.read_left hread

/-- The bytes at `p` are `bytes`, which have a key behind its length in front. -/
def Denotes (mem : ByteMemory) (p : ℕ) (bytes : Bytes) : Prop :=
  mem.read p bytes.length = some bytes ∧
    ∃ k rest : Bytes, k.length < 2 ^ 32 ∧ bytes = encodeVarint32 k.length ++ (k ++ rest)

theorem keyComparator_of_denotes (c : Comparator) (mem : ByteMemory) (p q : ℕ) (a b : Bytes)
    (ha : Denotes mem p a) (hb : Denotes mem q b) :
    keyComparator c mem p q = some (MemTable.keyComparator c a b) := by
  obtain ⟨hread, k, rest, hk, rfl⟩ := ha
  obtain ⟨hread', k', rest', hk', rfl⟩ := hb
  rw [keyComparator, readSlice_of_read hk hread, readSlice_of_read hk' hread',
    MemTable.keyComparator, getLengthPrefixedSlice_encode hk, getLengthPrefixedSlice_encode hk']
  rfl

/-! ### Entries in memory -/

variable {c : Comparator} {e : Entry}

theorem denotes_bytes (he : e.Sized) (h : mem.read p e.bytes.length = some e.bytes) :
    Denotes mem p e.bytes :=
  ⟨h, e.internalKey, _, he.length_internalKey, rfl⟩

/-- The value, as a slice behind its length. -/
theorem readSlice_value {q : ℕ} (he : e.Sized)
    (h : mem.read q (encodeVarint32 e.value.length ++ e.value).length
      = some (encodeVarint32 e.value.length ++ e.value)) : readSlice mem q = some e.value := by
  have hlt : e.value.length < 2 ^ 32 := Nat.lt_of_lt_of_le he.value (Nat.sub_le _ _)
  have hbytes : mem.read q (encodeVarint32 e.value.length ++ (e.value ++ [])).length
      = some (encodeVarint32 e.value.length ++ (e.value ++ [])) := by rwa [List.append_nil]
  exact readSlice_of_read hlt hbytes

/-- The parts of an entry, each at its place. -/
theorem read_parts (he : e.Sized) (h : mem.read p e.bytes.length = some e.bytes) :
    ∃ q, getVarint32Ptr mem p = some (e.key.length + 8, q) ∧
      getLengthPrefixedSlice mem p = some (q, e.key.length + 8) ∧
      mem.read q e.key.length = some e.key ∧
      mem.read (q + e.key.length) 8 = some (encodeFixed64 (tag e.sequence e.type)) ∧
      readSlice mem (q + (e.key.length + 8)) = some e.value := by
  obtain ⟨q, hptr, hslice, hread⟩ := getLengthPrefixedSlice_of_read he.length_internalKey h
  have hlen : e.internalKey.length = e.key.length + 8 := length_encodeInternalKey ..
  have hvalue := ByteMemory.read_right hread
  have hkey := ByteMemory.read_left hread
  rw [hlen] at hptr hslice hvalue
  rw [Entry.internalKey, encodeInternalKey] at hkey
  have htag := ByteMemory.read_right hkey
  rw [length_encodeFixed64] at htag
  exact ⟨q, hptr, hslice, ByteMemory.read_left hkey, htag, readSlice_value he hvalue⟩

/-- What `Get` does with an entry. -/
theorem readEntry_eq (he : e.Sized) (h : mem.read p e.bytes.length = some e.bytes) (u value : Bytes)
    (s : Status) :
    readEntry c mem p u value s = MemTable.read c u (some e.bytes) value s := by
  obtain ⟨q, hptr, -, huser, htag, hvalue⟩ := read_parts he h
  have hlen : e.internalKey.length = e.key.length + 8 := length_encodeInternalKey ..
  have hdrop : (e.internalKey ++ (encodeVarint32 e.value.length ++ e.value)).drop e.key.length
      = encodeFixed64 (tag e.sequence e.type) ++ (encodeVarint32 e.value.length ++ e.value) := by
    rw [Entry.internalKey, encodeInternalKey, List.append_assoc, List.drop_left' rfl]
  have hshown : (e.internalKey ++ (encodeVarint32 e.value.length ++ e.value)).take e.key.length
      = e.key := by
    rw [Entry.internalKey, encodeInternalKey, List.append_assoc, List.take_left' rfl]
  have hdecode : decodeFixed64 (encodeFixed64 (tag e.sequence e.type))
      = decodeFixed64
        (encodeFixed64 (tag e.sequence e.type) ++ (encodeVarint32 e.value.length ++ e.value)) := by
    have hnil := decodeFixed64_encodeFixed64 (tag e.sequence e.type) []
    rw [List.append_nil] at hnil
    rw [hnil, decodeFixed64_encodeFixed64]
  have hbehind : MemTable.getLengthPrefixedSlice (encodeVarint32 e.value.length ++ e.value)
      = some (e.value, []) := by
    have hslice := getLengthPrefixedSlice_encode (Nat.lt_of_lt_of_le he.value (Nat.sub_le _ _)) []
    rwa [List.append_nil] at hslice
  have hplace : q + (e.key.length + 8) - 8 = q + e.key.length := by omega
  have hparse : Coding.getVarint32Ptr e.bytes
      = some (e.key.length + 8, e.internalKey ++ (encodeVarint32 e.value.length ++ e.value)) := by
    rw [Entry.bytes, getVarint32Ptr_encodeVarint32 he.length_internalKey, hlen]
  have hlong : ¬ (e.key.length + 8 < 8 ∨
      (e.internalKey ++ (encodeVarint32 e.value.length ++ e.value)).length < e.key.length + 8) := by
    rw [List.length_append, hlen]
    omega
  rw [readEntry, hptr, MemTable.read, hparse]
  simp only [Option.bind_eq_bind, Option.bind_some]
  rw [if_neg hlong, if_neg (by omega), Nat.add_sub_cancel, huser, hplace, htag, hvalue, hshown,
    hdrop, ← hlen, List.drop_left' rfl, hbehind, ← hdecode]
  rfl

/-! ### `Add` -/

theorem put_put (m : ByteMemory) (p : ℕ) (x y : Bytes) :
    put (put m p x).1 (put m p x).2 y = put m p (x ++ y) := by
  rw [put, put, put, ByteMemory.write_append, List.length_append, Nat.add_assoc]

/-- The buffer is as long as what is written into it. -/
theorem bytes_eq (he : e.Sized) :
    encodeVarint32 ((e.key.length + 8) % 2 ^ 32) ++ (e.key ++ (encodeFixed64 (tag e.sequence e.type)
      ++ encodeVarint32 (e.value.length % 2 ^ 32))) ++ e.value = e.bytes ∧
      e.bytes.length = encodedLen e.key e.value := by
  have henc := he.encodeEntry_eq
  rw [encodeEntry, Option.ite_none_right_eq_some] at henc
  obtain ⟨hlen, hbytes⟩ := henc
  have hbytes := Option.some.inj hbytes
  rw [hbytes] at hlen
  simp only [List.append_assoc] at hbytes ⊢
  exact ⟨hbytes, hlen⟩

variable {m : SkipListLayout} {t : MemTable} {rounds : ℕ}

theorem length_bytes_pos (he : e.Sized) : 0 < e.bytes.length := by
  rw [Entry.bytes, List.length_append]
  exact Nat.add_pos_left (length_encodeVarint32_pos he.length_internalKey) _

theorem length_bytes_lt (he : e.Sized) : e.bytes.length < 2 ^ 63 := by
  have hkey := he.length_internalKey
  have hvalue : e.value.length < 2 ^ 32 := Nat.lt_of_lt_of_le he.value (Nat.sub_le _ _)
  have hle := length_encodeVarint32_le hkey
  have hle' := length_encodeVarint32_le hvalue
  simp only [Entry.bytes, List.length_append]
  omega

/-- What is inserted is a pointer to the bytes of the entry. -/
theorem add_eq (he : e.Sized) (forBuf forNode : Runtime) :
    add c rounds forBuf forNode m e.sequence e.type e.key e.value e.height
      = SkipListLayout.insert (keyComparator c) forNode rounds
        { m with
          arena := (m.arena.allocate forBuf (encodedLen e.key e.value)).2
          mem := m.mem.write (m.arena.allocate forBuf (encodedLen e.key e.value)).1 e.bytes }
        (m.arena.allocate forBuf (encodedLen e.key e.value)).1 e.height := by
  obtain ⟨hbytes, hlen⟩ := bytes_eq he
  simp only [add]
  generalize m.arena.allocate forBuf (encodedLen e.key e.value) = grant
  obtain ⟨buf, arena⟩ := grant
  dsimp only
  rw [put_put, put_put, put_put, put]
  dsimp only
  rw [ByteMemory.write_append, hbytes, Nat.add_assoc, ← List.length_append, hbytes,
    Nat.add_sub_cancel_left, if_pos hlen]

theorem nodeSize_pos (height : ℕ) : 0 < nodeSize height := Nat.add_pos_left (by decide) _

theorem nodeSize_lt {height : ℕ} (h : height ≤ kMaxHeight) : nodeSize height < 2 ^ 63 := by
  rw [kMaxHeight] at h
  rw [nodeSize]
  omega

/-- What calls of `Add` keep: the memtable in memory, the one of lists, the entries that have been
added, the latest first, and what the arena has granted. -/
structure Holds (c : Comparator) (m : SkipListLayout) (t : MemTable) (entries : List Entry)
    (log : List Arena.Grant) : Prop where
  kept : m.arena.Kept log
  live : m.arena.Live
  sized : ∀ e ∈ entries, e.Sized
  stores : ∃ addr keyAt, Stores Denotes m t.table addr keyAt (log.map Arena.Grant.extent)
  holds : ∃ order, SkipList.Holds (MemTable.keyComparator c) t.table
    (entries.map fun e => (e.bytes, e.height)) order
  length_eq : t.table.nodes.length = entries.length + 1

variable {entries : List Entry} {log : List Arena.Grant}
variable {addr : ℕ → ℕ} {keyAt : ℕ → Extent} {granted : List Extent}

theorem Holds.fuel_le (h : Holds c m t entries log) :
    t.table.fuel ≤ entries.length + 1 + kMaxHeight := by
  obtain ⟨order, hholds⟩ := h.holds
  have hmax := hholds.levels.maxHeight.2
  rw [SkipList.fuel, h.length_eq]
  omega

/-- Bytes in a piece of memory of their own leave the memtable alone, and so does a new arena. -/
theorem stores_write (hs : Stores Denotes m t.table addr keyAt granted) (arena : Arena) {start : ℕ}
    {bytes : Bytes} (hapart : ∀ o ∈ granted, o.Apart ⟨start, bytes.length⟩) :
    Stores Denotes { m with arena := arena, mem := m.mem.write start bytes } t.table addr keyAt
      (granted ++ [⟨start, bytes.length⟩]) := by
  refine hs.frame rfl rfl (fun o ho => ByteMemory.agreeOn_write (hapart o ho) m.mem)
    (List.subset_append_left _ _) ?_
  refine ByteMemory.written_write (fun x hx => ?_)
    (List.mem_append_right _ (List.mem_singleton.mpr rfl)) (.refl _)
  obtain ⟨o, ho, hx⟩ := hs.written x hx
  exact ⟨o, List.mem_append_left _ ho, hx⟩

theorem stores_withBytes (hs : Stores Denotes m t.table addr keyAt granted) {start : ℕ}
    {bytes : Bytes} (hapart : ∀ o ∈ granted, o.Apart ⟨start, bytes.length⟩) :
    Stores Denotes (withBytes m start bytes) t.table addr keyAt
      (granted ++ [⟨start, bytes.length⟩]) :=
  stores_write hs m.arena hapart

/-- What the arena has granted behind a call of `Add`: the buffer at `b` and the node at `x`. -/
def grantedBy (log : List Arena.Grant) (call : Call) (b x : ℕ) : List Arena.Grant :=
  log ++ [⟨.allocate (encodedLen call.entry.key call.entry.value), b⟩]
    ++ [⟨.allocateAligned (nodeSize call.entry.height), x⟩]

/-- The arena has room for the buffer and the node, apart from everything else. -/
theorem Holds.exists_granted (h : Holds c m t entries log) {call : Call} (he : call.entry.Sized)
    (hbuf : (bufArena m.arena call).Live) (hnode : (nodeArena m.arena call).Live) :
    ∃ b x, (m.arena.allocate call.forBuf (encodedLen call.entry.key call.entry.value)).1 = b ∧
      ((bufArena m.arena call).allocateAligned call.forNode (nodeSize call.entry.height)).1 = x ∧
      (nodeArena m.arena call).Kept (grantedBy log call b x) ∧
      (0 < b ∧ b < 2 ^ 64) ∧ (0 < x ∧ x < 2 ^ 64) ∧
      (∀ o ∈ log.map Arena.Grant.extent, o.Apart ⟨b, call.entry.bytes.length⟩) ∧
      ∀ o ∈ log.map Arena.Grant.extent ++ [⟨b, call.entry.bytes.length⟩],
        o.Apart ⟨x, nodeSize call.entry.height⟩ := by
  obtain ⟨-, hlen⟩ := bytes_eq he
  have hpos := length_bytes_pos he
  have hlt := length_bytes_lt he
  rw [hlen] at hpos hlt ⊢
  obtain ⟨b, hb, hkept, hblt, hapart⟩ := h.kept.grant call.forBuf
    (.allocate (encodedLen call.entry.key call.entry.value)) hpos hlt hbuf
  obtain ⟨x, hx, hkept', hxlt, hapart'⟩ := hkept.grant call.forNode
    (.allocateAligned (nodeSize call.entry.height)) (nodeSize_pos _) (nodeSize_lt he.height.2) hnode
  rw [List.map_append] at hapart'
  exact ⟨b, x, hb, hx, hkept', hblt, hxlt, hapart, hapart'⟩

/-- **One call of `Add`.** -/
theorem Holds.add [TransCmp c.compare] (h : Holds c m t entries log) {call : Call}
    (he : call.entry.Sized) (hne : ∀ e ∈ entries, InternalKeyComparator.compare c e.internalKey
      call.entry.internalKey ≠ .eq)
    (hbuf : (bufArena m.arena call).Live) (hnode : (nodeArena m.arena call).Live)
    (hrounds : entries.length + 1 + kMaxHeight ≤ rounds) :
    ∃ m' t' log', MemTableLayout.add c rounds call.forBuf call.forNode m call.entry.sequence
        call.entry.type call.entry.key call.entry.value call.entry.height = some m' ∧
      MemTable.add c t call.entry.sequence call.entry.type call.entry.key call.entry.value
        call.entry.height = some t' ∧
      m'.arena = nodeArena m.arena call ∧ Holds c m' t' (call.entry :: entries) log' ∧
      Arena.requested log' = Arena.requested log + call.entry.bytes.length
        + nodeSize call.entry.height := by
  obtain ⟨-, hlen⟩ := bytes_eq he
  obtain ⟨order, hholds⟩ := h.holds
  obtain ⟨addr, keyAt, hstores⟩ := h.stores
  obtain ⟨b, x, hb, hx, hkept, hblt, hxlt, hbapart, hxapart⟩ := h.exists_granted he hbuf hnode
  have hpos : 0 < t.table.nodes.length := by
    rw [h.length_eq]
    exact Nat.succ_pos _
  -- the buffer is filled
  have hfilled : Stores Denotes
      { m with arena := bufArena m.arena call, mem := m.mem.write b call.entry.bytes } t.table addr
      keyAt (log.map Arena.Grant.extent ++ [⟨b, call.entry.bytes.length⟩]) :=
    stores_write hstores _ hbapart
  have hdenotes : ∀ mem, ByteMemory.AgreeOn ⟨b, call.entry.bytes.length⟩
      (m.mem.write b call.entry.bytes) mem → Denotes mem b call.entry.bytes := by
    intro mem hagree
    have hread := ByteMemory.read_write m.mem b call.entry.bytes
    rw [← hagree.read le_rfl le_rfl] at hread
    exact denotes_bytes he hread
  -- the pointer is inserted
  have hfresh : ∀ e' ∈ entries.map fun e => (e.bytes, e.height),
      MemTable.keyComparator c e'.1 call.entry.bytes ≠ .eq := by
    intro e' he'
    obtain ⟨e, hmem, rfl⟩ := List.mem_map.mp he'
    rw [keyComparator_bytes (h.sized e hmem) he]
    exact hne e hmem
  obtain ⟨table, order', hins, hholds'⟩ :=
    hholds.insert (e := (call.entry.bytes, call.entry.height)) hfresh he.height
  obtain ⟨m', hins', harena, hstores', hlength⟩ :=
    hfilled.insert (keyComparator_of_denotes c) hpos call.forNode (h.fuel_le.trans hrounds)
      (Nat.lt_of_lt_of_le Nat.zero_lt_one he.height.1) hblt.2
      (List.mem_append_right _ (List.mem_singleton.mpr rfl))
      (fun i hi => hbapart _ (hstores.node_mem i hi)) hdenotes hx hxlt hxapart hins
  have hadd : MemTableLayout.add c rounds call.forBuf call.forNode m call.entry.sequence
      call.entry.type call.entry.key call.entry.value call.entry.height = some m' := by
    rw [← hb] at hins'
    rw [add_eq he]
    exact hins'
  have hvalue : MemTable.add c t call.entry.sequence call.entry.type call.entry.key call.entry.value
      call.entry.height = some ⟨table⟩ := by
    rw [MemTable.add_eq he, hins, Option.map_some]
  have hextents : (grantedBy log call b x).map Arena.Grant.extent
      = log.map Arena.Grant.extent ++ [⟨b, call.entry.bytes.length⟩]
        ++ [⟨x, nodeSize call.entry.height⟩] := by
    rw [grantedBy, List.map_append, List.map_append, hlen]
    rfl
  refine ⟨m', ⟨table⟩, grantedBy log call b x, hadd, hvalue, harena, ?_, ?_⟩
  · constructor
    · rw [harena]
      exact hkept
    · rw [harena]
      exact hnode
    · intro e hmem
      rcases List.mem_cons.mp hmem with rfl | hmem
      · exact he
      · exact h.sized e hmem
    · rw [hextents]
      exact ⟨_, _, hstores'⟩
    · exact ⟨order', hholds'⟩
    · rw [hlength, h.length_eq, List.length_cons]
  · rw [grantedBy, Arena.requested_append, Arena.requested_append, hlen]
    rfl

/-- **Calls of `Add`.** -/
theorem Holds.addAll [TransCmp c.compare] (h : Holds c m t entries log) {calls : List Call}
    (hsized : ∀ call ∈ calls, call.entry.Sized)
    (hne : ((calls.map Call.entry).reverse ++ entries).Pairwise fun a b =>
      InternalKeyComparator.compare c b.internalKey a.internalKey ≠ .eq)
    (hlive : LiveCalls m.arena calls)
    (hrounds : calls.length + entries.length + kMaxHeight ≤ rounds) :
    ∃ m' t' log', MemTableLayout.addAll c rounds m calls = some m' ∧
      MemTable.addAll c t (calls.map Call.entry) = some t' ∧
        m'.arena = calls.foldl nodeArena m.arena ∧
      Holds c m' t' ((calls.map Call.entry).reverse ++ entries) log' ∧
      Arena.requested log' = Arena.requested log
        + (calls.map fun call => call.entry.bytes.length + nodeSize call.entry.height).sum := by
  induction calls generalizing m t entries log with
  | nil => exact ⟨m, t, log, rfl, rfl, rfl, h, rfl⟩
  | cons call calls ih =>
    rw [List.map_cons, List.reverse_cons, List.append_assoc, List.singleton_append] at hne
    rw [List.length_cons] at hrounds
    obtain ⟨hbuf, hnode, hlive⟩ := hlive
    have hfirst := List.pairwise_cons.mp (List.pairwise_append.mp hne).2.1
    obtain ⟨m₁, t₁, log₁, hadd, hvalue, harena, h₁, hrequested⟩ :=
      h.add (hsized call List.mem_cons_self) hfirst.1 hbuf hnode (Nat.le_trans (by omega) hrounds)
    obtain ⟨m', t', log', hall, hvalues, harena', h', hrequested'⟩ :=
      ih h₁ (fun call' hcall' => hsized call' (List.mem_cons_of_mem _ hcall')) hne (by rwa [harena])
        (by rw [List.length_cons]; omega)
    refine ⟨m', t', log', ?_, ?_, ?_, ?_, ?_⟩
    · rw [MemTableLayout.addAll, List.foldlM_cons, hadd]
      exact hall
    · rw [MemTable.addAll, List.map_cons, List.foldlM_cons, hvalue]
      exact hvalues
    · rw [harena', harena, List.foldl_cons]
    · rw [List.map_cons, List.reverse_cons, List.append_assoc, List.singleton_append]
      exact h'
    · rw [hrequested', hrequested, List.map_cons, List.sum_cons]
      omega

theorem holds_new (c : Comparator) (rt : Runtime) (hlive : (SkipListLayout.new rt).arena.Live) :
    ∃ log, Holds c (SkipListLayout.new rt) MemTable.new [] log ∧
      Arena.requested log = nodeSize kMaxHeight := by
  rw [arena_new] at hlive
  obtain ⟨x, hx, hkept, hxlt, -⟩ := Arena.kept_new.grant rt (.allocateAligned (nodeSize kMaxHeight))
    (nodeSize_pos _) (nodeSize_lt le_rfl) hlive
  refine ⟨[⟨.allocateAligned (nodeSize kMaxHeight), x⟩], ?_, rfl⟩
  constructor
  · rw [arena_new]
    exact hkept
  · rw [arena_new]
    exact hlive
  · intro e he
    cases he
  · exact ⟨_, fun _ => ⟨0, 0⟩, stores_new Denotes _ rt hx hxlt⟩
  · exact ⟨[], SkipList.holds_new⟩
  · rfl

/-! ### Reads -/

/-- Every node but `head_` is one of an entry. -/
theorem Holds.entry_of [TransCmp c.compare] (h : Holds c m t entries log) {j : ℕ}
    (hj : 0 < j ∧ j < t.table.nodes.length) :
    ∃ e : Entry, e.Sized ∧ t.table.key j = e.bytes := by
  obtain ⟨order, hholds⟩ := h.holds
  have hlen : order.length = entries.length := by
    simpa only [List.length_map] using hholds.perm.length_eq
  have hall := h.length_eq
  have hsub : order ⊆ List.range' 1 entries.length := by
    intro n hn
    have hn := hholds.levels.alloc n hn
    rw [List.mem_range'_1]
    omega
  have hperm : order.Perm (List.range' 1 entries.length) :=
    (List.subperm_of_subset (List.nodup_cons.mp hholds.levels.nodup).2 hsub).perm_of_length_le (by
      rw [List.length_range', hlen])
  have hmem : j ∈ order := by
    rw [hperm.mem_iff, List.mem_range'_1]
    omega
  obtain ⟨e, he, heq⟩ := List.mem_map.mp (hholds.perm.subset (List.mem_map.mpr ⟨j, hmem, rfl⟩))
  exact ⟨e, h.sized e he, (congrArg Prod.fst heq).symm⟩

/-- Other objects are in memory together with the blocks of the arena. -/
def Outside (m : SkipListLayout) (start size : ℕ) : Prop :=
  ∀ b ∈ m.arena.blocks.elements, b.Apart ⟨start, size⟩

theorem Holds.apart_of_outside (h : Holds c m t entries log) {start size : ℕ}
    (hout : Outside m start size) :
    ∀ o ∈ log.map Arena.Grant.extent, o.Apart ⟨start, size⟩ := by
  intro o ho
  obtain ⟨b, hb, hwithin⟩ := h.kept.sound.within o ho
  exact (hout b hb).mono hwithin (.refl _)

/-- What is at a node of the list, in memory. -/
theorem Holds.read_key [TransCmp c.compare] (h : Holds c m t entries log) {m' : SkipListLayout}
    (hs : Stores Denotes m' t.table addr keyAt granted) {j : ℕ}
    (hj : 0 < j ∧ j < t.table.nodes.length) :
    ∃ e : Entry, ∃ p, e.Sized ∧ t.table.key j = e.bytes ∧ m'.key (addr j) = some p ∧
      m'.mem.read p e.bytes.length = some e.bytes := by
  obtain ⟨e, he, hkey⟩ := h.entry_of hj
  obtain ⟨p, hp, hdenotes⟩ := hs.key_eq j hj.2 hj.1
  obtain ⟨hread, -⟩ := hdenotes m'.mem (.refl _ _)
  rw [hkey] at hread
  exact ⟨e, p, he, hkey, hp, hread⟩

/-- A seek of the list finds a node or the end. -/
theorem Holds.seek [TransCmp c.compare] (h : Holds c m t entries log) (target : Bytes) :
    ∃ it, SkipList.iterStep (MemTable.keyComparator c) t.table none (.seek target) = some it := by
  obtain ⟨order, hholds⟩ := h.holds
  obtain ⟨prev, hfind, -⟩ := hholds.levels.findGreaterOrEqual_eq target
  refine ⟨order.find? fun n => !SkipList.before (MemTable.keyComparator c) t.table target n, ?_⟩
  rw [SkipList.iterStep, hfind]
  rfl

/-- **`Get`.** -/
theorem Holds.get_eq [TransCmp c.compare] (h : Holds c m t entries log)
    (hrounds : entries.length + 1 + kMaxHeight ≤ rounds) {u : Bytes} {s : ℕ} {k : LookupKey}
    {start : ℕ} (hu : u.length < 2 ^ 32 - 8) (hk : LookupKey.new u s = some k)
    (hout : Outside m start k.memtableKey.length) (value : Bytes) (status : Status) :
    get c rounds m start k value status = MemTable.get c t k value status := by
  have hs : s ≤ kMaxSequenceNumber := by
    by_contra hgt
    simp only [LookupKey.new, packSequenceAndType, hgt, if_false] at hk
    cases hk
  have hsize : u.length + 8 < 2 ^ 32 := by omega
  have hkey : k.memtableKey = encodeVarint32 (u.length + 8)
      ++ encodeInternalKey u s kValueTypeForSeek := by
    rw [LookupKey.new_eq hsize hs] at hk
    rw [← Option.some.inj hk]
  obtain ⟨addr, keyAt, hstores⟩ := h.stores
  have hstores' := stores_withBytes hstores (h.apart_of_outside hout)
  have hdenotes : Denotes (withBytes m start k.memtableKey).mem start k.memtableKey := by
    refine ⟨ByteMemory.read_write _ _ _, encodeInternalKey u s kValueTypeForSeek, [], ?_, ?_⟩
    · rwa [length_encodeInternalKey]
    · rw [hkey, length_encodeInternalKey, List.append_nil]
  obtain ⟨it, hit⟩ := h.seek k.memtableKey
  obtain ⟨hseek, hpoints⟩ := hstores'.iterStep (k := start) (keyComparator_of_denotes c)
    (by rw [h.length_eq]; exact Nat.succ_pos _) (h.fuel_le.trans hrounds)
    (fun j (hj : none = some j) => by cases hj)
    (fun target htarget => by cases htarget; exact hdenotes) hit
  have hseek : SkipListLayout.iterStep (keyComparator c) rounds
      (withBytes m start k.memtableKey) 0 (.seek start) = some (pointer addr it) := hseek
  rw [MemTable.get, hit, Option.bind_eq_bind, Option.bind_some, get, hseek, Option.bind_eq_bind,
    Option.bind_some]
  cases it with
  | none => rfl
  | some j =>
    obtain ⟨e, p, he, hkeyj, hp, hread⟩ := h.read_key hstores' (hpoints j rfl)
    have hne : pointer addr (some j) ≠ 0 :=
      fun hz => by cases (hstores'.pointer_eq_zero_iff hpoints).mp hz
    have hp' : (withBytes m start k.memtableKey).key (pointer addr (some j)) = some p := hp
    rw [if_neg hne, hp', Option.bind_some, readEntry_eq he hread, Option.map_some, hkeyj]

/-! ### Iterators -/

/-- A seek is for an internal key, and `tmp_` is outside of the arena. -/
def Encodes (m : SkipListLayout) : Cursor.Op (ℕ × Bytes) → Prop
  | .seek (tmp, k) => 8 ≤ k.length ∧ k.length < 2 ^ 32 ∧ Outside m tmp (encodeKey k).length
  | _ => True

/-- One operation. -/
theorem Holds.step_eq [TransCmp c.compare] (h : Holds c m t entries log)
    (hrounds : entries.length + 1 + kMaxHeight ≤ rounds)
    (hs : Stores Denotes m t.table addr keyAt (log.map Arena.Grant.extent))
    {it it' : MemTableIterator} (hit : Points t.table it.node) {op : Cursor.Op (ℕ × Bytes)}
    (hop : Encodes m op) (hstep : MemTableIterator.step c t it (op.map Prod.snd) = some it') :
    step c rounds m (pointer addr it.node) op = some (pointer addr it'.node) ∧
      Points t.table it'.node := by
  have hpos : 0 < t.table.nodes.length := by
    rw [h.length_eq]
    exact Nat.succ_pos _
  have hle := h.fuel_le.trans hrounds
  cases op with
  | seek target =>
    obtain ⟨tmp, k⟩ := target
    obtain ⟨-, hk, hout⟩ := hop
    obtain ⟨node, hnode, rfl⟩ := Option.map_eq_some_iff.mp hstep
    have hs' := stores_withBytes hs (h.apart_of_outside hout)
    have hdenotes : Denotes (withBytes m tmp (encodeKey k)).mem tmp (encodeKey k) := by
      refine ⟨ByteMemory.read_write _ _ _, k, [], hk, ?_⟩
      rw [encodeKey, putVarint32, List.nil_append, Nat.mod_eq_of_lt hk, List.append_nil]
    exact hs'.iterStep (k := tmp) (keyComparator_of_denotes c) hpos hle hit
      (fun target htarget => by cases htarget; exact hdenotes) hnode
  | seekToFirst =>
    obtain ⟨node, hnode, rfl⟩ := Option.map_eq_some_iff.mp hstep
    exact hs.iterStep (k := 0) (keyComparator_of_denotes c) hpos hle hit (fun _ h => by cases h)
      hnode
  | seekToLast =>
    obtain ⟨node, hnode, rfl⟩ := Option.map_eq_some_iff.mp hstep
    exact hs.iterStep (k := 0) (keyComparator_of_denotes c) hpos hle hit (fun _ h => by cases h)
      hnode
  | next =>
    obtain ⟨node, hnode, rfl⟩ := Option.map_eq_some_iff.mp hstep
    exact hs.iterStep (k := 0) (keyComparator_of_denotes c) hpos hle hit (fun _ h => by cases h)
      hnode
  | prev =>
    obtain ⟨node, hnode, rfl⟩ := Option.map_eq_some_iff.mp hstep
    exact hs.iterStep (k := 0) (keyComparator_of_denotes c) hpos hle hit (fun _ h => by cases h)
      hnode

/-- What an iterator shows. -/
theorem Holds.shown [TransCmp c.compare] (h : Holds c m t entries log)
    (hs : Stores Denotes m t.table addr keyAt (log.map Arena.Grant.extent)) {it : MemTableIterator}
    (hit : Points t.table it.node) :
    (pointer addr it.node ≠ 0 ↔ it.Valid) ∧ key m (pointer addr it.node) = it.key t ∧
      value m (pointer addr it.node) = it.value t := by
  obtain ⟨node⟩ := it
  have hzero := hs.pointer_eq_zero_iff hit
  cases node with
  | none => exact ⟨⟨fun hne => absurd rfl hne, fun hvalid => by cases hvalid⟩, rfl, rfl⟩
  | some j =>
    obtain ⟨e, p, he, hkeyj, hp, hread⟩ := h.read_key hs (hit j rfl)
    have hne : pointer addr (some j) ≠ 0 := fun hz => by cases hzero.mp hz
    have hp' : m.key (pointer addr (some j)) = some p := hp
    obtain ⟨q, -, hslice, -, -, hvalue⟩ := read_parts he hread
    have hbehind : MemTable.getLengthPrefixedSlice (encodeVarint32 e.value.length ++ e.value)
        = some (e.value, []) := by
      have hslice := getLengthPrefixedSlice_encode (Nat.lt_of_lt_of_le he.value (Nat.sub_le _ _)) []
      rwa [List.append_nil] at hslice
    refine ⟨⟨fun _ => rfl, fun _ => hne⟩, ?_, ?_⟩
    · rw [key, if_neg hne, hp', Option.bind_eq_bind, Option.bind_some,
        readSlice_of_read he.length_internalKey hread, MemTableIterator.key]
      simp only [Option.bind_eq_bind, Option.bind_some, hkeyj, he.getLengthPrefixedSlice_bytes]
    · rw [value, if_neg hne, hp', Option.bind_eq_bind, Option.bind_some, hslice,
        MemTableIterator.value]
      simp only [Option.bind_eq_bind, Option.bind_some, hkeyj, he.getLengthPrefixedSlice_bytes,
        hbehind, hvalue]

/-- **Runs of an iterator.** -/
theorem Holds.run_eq [TransCmp c.compare] (h : Holds c m t entries log)
    (hrounds : entries.length + 1 + kMaxHeight ≤ rounds) {ops : List (Cursor.Op (ℕ × Bytes))}
    {it : MemTableIterator} (hops : ∀ op ∈ ops, Encodes m op)
    (hrun : Cursor.run (fun it (op : Cursor.Op (ℕ × Bytes)) =>
      MemTableIterator.step c t it (op.map Prod.snd))
      MemTableIterator.new ops = some it) :
    ∃ p, Cursor.run (step c rounds m) 0 ops = some p ∧ (p ≠ 0 ↔ it.Valid) ∧ key m p = it.key t ∧
      value m p = it.value t := by
  obtain ⟨addr, keyAt, hs⟩ := h.stores
  have hone : ∀ (p : ℕ) (it : MemTableIterator) (op : Cursor.Op (ℕ × Bytes))
    (it' : MemTableIterator), Encodes m op →
      (p = pointer addr it.node ∧ Points t.table it.node) →
      MemTableIterator.step c t it (op.map Prod.snd) = some it' →
      ∃ p', step c rounds m p op = some p' ∧ p' = pointer addr it'.node ∧
        Points t.table it'.node := by
    rintro p it op it' hop ⟨rfl, hit⟩ hstep
    obtain ⟨heq, hit'⟩ := h.step_eq hrounds hs hit hop hstep
    exact ⟨_, heq, rfl, hit'⟩
  obtain ⟨p, hp, rfl, hit⟩ := Cursor.run_simulates_of hone hops ⟨rfl, fun j hj => by cases hj⟩ hrun
  exact ⟨_, hp, h.shown hs hit⟩

/-- To those who read it, the memtable in memory is the one of lists. -/
structure Mirrors (c : Comparator) (rounds : ℕ) (m : SkipListLayout) (t : MemTable) : Prop where
  get_eq : ∀ u s k start value status, u.length < 2 ^ 32 - 8 → LookupKey.new u s = some k →
    Outside m start k.memtableKey.length → get c rounds m start k value status
      = MemTable.get c t k value status
  run_eq : ∀ ops it, (∀ op ∈ ops, Encodes m op) →
    Cursor.run (fun it (op : Cursor.Op (ℕ × Bytes)) =>
      MemTableIterator.step c t it (op.map Prod.snd))
      MemTableIterator.new ops = some it →
    ∃ p, Cursor.run (step c rounds m) 0 ops = some p ∧ (p ≠ 0 ↔ it.Valid) ∧ key m p = it.key t ∧
      value m p = it.value t

/-- **The memtable in memory.** After any calls of `Add` with internal keys that the comparator
tells apart, `Get` and iterators do with the memory what they do with the lists of bytes. What has
been written is in the blocks of the arena, and `ApproximateMemoryUsage` is no less than the bytes
that entries and nodes take. -/
theorem addAll_stored [TransCmp c.compare] (rt : Runtime) (calls : List Call) {rounds : ℕ}
    (hsized : ∀ call ∈ calls, call.entry.Sized)
    (hdistinct : (calls.map Call.entry).Pairwise fun a b =>
      InternalKeyComparator.compare c a.internalKey b.internalKey ≠ .eq)
    (hlive : (SkipListLayout.new rt).arena.Live ∧ LiveCalls (SkipListLayout.new rt).arena calls)
    (hrounds : calls.length + 1 + kMaxHeight ≤ rounds) :
    ∃ m t, addAll c rounds (SkipListLayout.new rt) calls = some m ∧
      MemTable.addAll c MemTable.new (calls.map Call.entry) = some t ∧ Mirrors c rounds m t ∧
      m.arena = calls.foldl nodeArena (SkipListLayout.new rt).arena ∧
      (∀ x, m.mem x ≠ none → ∃ b ∈ m.arena.blocks.elements, x ∈ b.cells) ∧
      nodeSize kMaxHeight
        + (calls.map fun call => call.entry.bytes.length + nodeSize call.entry.height).sum
        ≤ approximateMemoryUsage m := by
  obtain ⟨log₀, hnew, hrequested₀⟩ := holds_new c rt hlive.1
  have hpair : ((calls.map Call.entry).reverse ++ ([] : List Entry)).Pairwise fun a b =>
      InternalKeyComparator.compare c b.internalKey a.internalKey ≠ .eq := by
    rwa [List.append_nil, List.pairwise_reverse]
  obtain ⟨m, t, log, hadd, hvalues, harena, hholds, hrequested⟩ := hnew.addAll hsized hpair hlive.2
    (show calls.length + 0 + kMaxHeight ≤ rounds by omega)
  have hlen : ((calls.map Call.entry).reverse ++ ([] : List Entry)).length + 1 + kMaxHeight
      ≤ rounds := by
    rwa [List.append_nil, List.length_reverse, List.length_map]
  refine ⟨m, t, hadd, hvalues, ⟨?_, ?_⟩, harena, fun x hx => ?_, ?_⟩
  · intro u s k start value status hu hk hout
    exact hholds.get_eq hlen hu hk hout value status
  · intro ops it hops hrun
    exact hholds.run_eq hlen hops hrun
  · obtain ⟨addr, keyAt, hs⟩ := hholds.stores
    obtain ⟨o, ho, hx⟩ := hs.written x hx
    obtain ⟨b, hb, hwithin⟩ := hholds.kept.sound.within o ho
    exact ⟨b, hb, hwithin.mem hx⟩
  · rw [← hrequested₀, ← hrequested]
    exact hholds.kept.requested_le hholds.live

/-- A key written and then deleted, with both entries and all nodes in one block, and a lookup key
behind it. -/
theorem addAll_stored_deleted : ∃ m k,
    addAll bytewiseComparator 15 (SkipListLayout.new ⟨fun _ => 4096, fun _ => ⟨64, 8⟩⟩)
      [⟨⟨3, .kTypeValue, [7], [10, 11], 2⟩, ⟨fun _ => 0, fun _ => ⟨0, 0⟩⟩,
        ⟨fun _ => 0, fun _ => ⟨0, 0⟩⟩⟩,
        ⟨⟨5, .kTypeDeletion, [7], [], 1⟩, ⟨fun _ => 0, fun _ => ⟨0, 0⟩⟩,
          ⟨fun _ => 0, fun _ => ⟨0, 0⟩⟩⟩] = some m ∧
    LookupKey.new [7] 4 = some k ∧
    get bytewiseComparator 15 m 8192 k [1] .success = some (true, [10, 11], .success) := by
  have hcmp : TransCmp bytewiseComparator.compare := bytewiseComparator_lawful.trans
  have hone : ∀ ptr remaining, Arena.Live ⟨ptr, remaining, ⟨[⟨4096, 4096⟩], ⟨64, 8⟩⟩, 4096⟩ := by
    intro ptr remaining
    refine ⟨?_, ?_, by simp⟩
    · exact List.pairwise_pair.mpr (Extent.apart_of_le (Nat.le_of_ble_eq_true rfl))
    · simp only [List.forall_mem_cons, Extent.mem_cells, Extent.stop]
      refine ⟨fun x hx => by omega, fun x hx => by omega, by simp⟩
  obtain ⟨first, hfirst⟩ : ∃ call : Call, call =
    ⟨⟨3, .kTypeValue, [7], [10, 11], 2⟩, ⟨fun _ => 0, fun _ => ⟨0, 0⟩⟩,
      ⟨fun _ => 0, fun _ => ⟨0, 0⟩⟩⟩ := ⟨_, rfl⟩
  obtain ⟨second, hsecond⟩ : ∃ call : Call, call =
    ⟨⟨5, .kTypeDeletion, [7], [], 1⟩, ⟨fun _ => 0, fun _ => ⟨0, 0⟩⟩,
      ⟨fun _ => 0, fun _ => ⟨0, 0⟩⟩⟩ := ⟨_, rfl⟩
  have hnew : (SkipListLayout.new ⟨fun _ => 4096, fun _ => ⟨64, 8⟩⟩).arena
      = ⟨4200, 3992, ⟨[⟨4096, 4096⟩], ⟨64, 8⟩⟩, 4096⟩ := by
    rw [arena_new]
    rfl
  have hbuf₁ : bufArena ⟨4200, 3992, ⟨[⟨4096, 4096⟩], ⟨64, 8⟩⟩, 4096⟩ first
      = ⟨4213, 3979, ⟨[⟨4096, 4096⟩], ⟨64, 8⟩⟩, 4096⟩ := by
    rw [bufArena, hfirst, show encodedLen [7] [10, 11] = 13 by decide +kernel]
    rfl
  have hnode₁ : nodeArena ⟨4200, 3992, ⟨[⟨4096, 4096⟩], ⟨64, 8⟩⟩, 4096⟩ first
      = ⟨4240, 3952, ⟨[⟨4096, 4096⟩], ⟨64, 8⟩⟩, 4096⟩ := by
    rw [nodeArena, hbuf₁, hfirst]
    rfl
  have hbuf₂ : bufArena ⟨4240, 3952, ⟨[⟨4096, 4096⟩], ⟨64, 8⟩⟩, 4096⟩ second
      = ⟨4251, 3941, ⟨[⟨4096, 4096⟩], ⟨64, 8⟩⟩, 4096⟩ := by
    rw [bufArena, hsecond, show encodedLen [7] [] = 11 by decide +kernel]
    rfl
  have hnode₂ : nodeArena ⟨4240, 3952, ⟨[⟨4096, 4096⟩], ⟨64, 8⟩⟩, 4096⟩ second
      = ⟨4272, 3920, ⟨[⟨4096, 4096⟩], ⟨64, 8⟩⟩, 4096⟩ := by
    rw [nodeArena, hbuf₂, hsecond]
    rfl
  have hsized : ∀ call ∈ [first, second], call.entry.Sized := by
    intro call hcall
    rcases List.mem_pair.mp hcall with rfl | rfl
    · rw [hfirst]
      exact ⟨by decide, by decide, by decide⟩
    · rw [hsecond]
      exact ⟨by decide, by decide, by decide⟩
  have hdistinct : ([first, second].map Call.entry).Pairwise fun a b =>
      InternalKeyComparator.compare bytewiseComparator a.internalKey b.internalKey ≠ .eq := by
    rw [hfirst, hsecond]
    decide
  have hlive : LiveCalls (SkipListLayout.new ⟨fun _ => 4096, fun _ => ⟨64, 8⟩⟩).arena
      [first, second] := by
    rw [hnew, LiveCalls, LiveCalls, LiveCalls, hbuf₁, hnode₁, hbuf₂, hnode₂]
    exact ⟨hone _ _, hone _ _, hone _ _, hone _ _, trivial⟩
  obtain ⟨m, t, hadd, hvalues, hmirrors, harena, -, -⟩ :=
    addAll_stored ⟨fun _ => 4096, fun _ => ⟨64, 8⟩⟩ _ hsized
    hdistinct ⟨by rw [hnew]; exact hone _ _, hlive⟩ (Nat.le_refl 15)
  have hk := @LookupKey.new_eq [7] 4 (by decide) (by decide)
  have hout : Outside m 8192
      (encodeVarint32 9 ++ encodeInternalKey [7] 4 kValueTypeForSeek).length := by
    intro b hb
    rw [harena, List.foldl_cons, List.foldl_cons, List.foldl_nil, hnew, hnode₁, hnode₂] at hb
    rw [List.mem_singleton.mp hb]
    exact Extent.apart_of_le (by decide)
  refine ⟨m, _, ?_, hk, ?_⟩
  · rw [← hfirst, ← hsecond]
    exact hadd
  · have hget :
        (MemTable.addAll bytewiseComparator MemTable.new ([first, second].map Call.entry)).bind
          (fun t => MemTable.get bytewiseComparator t
            ⟨encodeVarint32 9 ++ encodeInternalKey [7] 4 kValueTypeForSeek,
              encodeInternalKey [7] 4 kValueTypeForSeek⟩ [1] .success)
        = some (true, [10, 11], .success) := by
      rw [hfirst, hsecond]
      decide +kernel
    rw [hvalues, Option.bind_some] at hget
    rw [hmirrors.get_eq [7] 4 _ 8192 [1] .success (by decide) hk hout]
    exact hget

end MemTableLayout

end Squirrel
