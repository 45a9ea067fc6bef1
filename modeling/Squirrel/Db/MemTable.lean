import Squirrel.Db.DbFormat
import Squirrel.Db.SkipListRefine
import Squirrel.Util.Env

/-!
# The memtable

A `MemTable` is a skip list of encoded entries: the internal key behind its length, then the value
behind its length. The skip list compares entries by the internal keys at their front, so an entry
and a `LookupKey` can be compared although only the first has a value.

`Get` seeks the lookup key and looks at the one entry it finds there. `get_addAll` says that this is
enough: that entry is the newest visible one of the user key, or there is none.

## Main definitions

* `MemTable.add`, `MemTable.get`
* `MemTable.Newest` — which of the added entries a snapshot sees

## Main results

* `MemTable.get_addAll` — snapshot reads after any sequence of `Add` calls
-/

namespace Squirrel

open Std Coding

/-- A `MemTable`. The comparator is an argument of its functions, the arena is the list of nodes. -/
structure MemTable where
  table : SkipList Bytes

namespace MemTable

/-- `GetLengthPrefixedSlice(data)`, with the bytes behind the slice. The limit `data + 5` is no
restriction, since no varint32 is longer; reading past the buffer is an error. -/
def getLengthPrefixedSlice (data : Bytes) : Option (Bytes × Bytes) := do
  let (len, p) ← getVarint32Ptr data
  if len ≤ p.length then some (p.take len, p.drop len) else none

/-- `KeyComparator`. An entry that is not corrupted has a key. -/
def keyComparator (c : Comparator) (aptr bptr : Bytes) : Ordering :=
  let a := ((getLengthPrefixedSlice aptr).map Prod.fst).getD []
  let b := ((getLengthPrefixedSlice bptr).map Prod.fst).getD []
  InternalKeyComparator.compare c a b

def new : MemTable := ⟨SkipList.new⟩

/-- The buffer `Add` fills, if it has the length it was allocated with. -/
def encodeEntry (s : ℕ) (type : ValueType) (key value : Bytes) : Option Bytes :=
  let keySize := key.length
  let valSize := value.length
  let internalKeySize := keySize + 8
  let encodedLen := varintLength internalKeySize + internalKeySize + varintLength valSize + valSize
  let buf := encodeVarint32 (internalKeySize % 2 ^ 32) ++ key ++ encodeFixed64 (tag s type)
    ++ encodeVarint32 (valSize % 2 ^ 32) ++ value
  if buf.length = encodedLen then some buf else none

/-- `Add`, where the skip list draws `height`. -/
def add (c : Comparator) (m : MemTable) (s : ℕ) (type : ValueType) (key value : Bytes)
    (height : ℕ) : Option MemTable := do
  let buf ← encodeEntry s type key value
  some ⟨← SkipList.insert (keyComparator c) m.table buf height⟩

/-- What `Get` does behind its seek, with the entry that it ended at: what it returns, then `*value`
and `*s`. -/
def read (c : Comparator) (userKey : Bytes) (entry : Option Bytes) (value : Bytes) (s : Status) :
    Option (Bool × Bytes × Status) := do
  match entry with
  | none => some (false, value, s)
  | some entry =>
    let (keyLength, keyPtr) ← getVarint32Ptr entry
    if keyLength < 8 ∨ keyPtr.length < keyLength then none
    else if c.compare (keyPtr.take (keyLength - 8)) userKey = .eq then
      match ValueType.ofNat? (decodeFixed64 (keyPtr.drop (keyLength - 8)) &&& 0xff) with
      | some .kTypeValue => do
        let (v, _) ← getLengthPrefixedSlice (keyPtr.drop keyLength)
        some (true, v, s)
      | some .kTypeDeletion => some (true, value, .notFound "")
      | none => some (false, value, s)
    else some (false, value, s)

/-- `Get`. -/
def get (c : Comparator) (m : MemTable) (key : LookupKey) (value : Bytes) (s : Status) :
    Option (Bool × Bytes × Status) := do
  let node ← SkipList.iterStep (keyComparator c) m.table none (.seek key.memtableKey)
  read c key.userKey (node.map m.table.key) value s

/-! ### Snapshots -/

/-- The arguments of one call of `Add`, with the height drawn for its node. -/
structure Entry where
  sequence : ℕ
  type : ValueType
  key : Bytes
  value : Bytes
  height : ℕ
  deriving DecidableEq

/-- Calls of `Add` one after another. -/
def addAll (c : Comparator) (m : MemTable) (entries : List Entry) : Option MemTable :=
  entries.foldlM (fun m e => add c m e.sequence e.type e.key e.value e.height) m

/-- The calls that can be made: a sequence number with room for the type below it, sizes of which a
`uint32_t` holds the length, a height the skip list can draw. -/
structure Entry.Admissible (e : Entry) : Prop where
  sequence : e.sequence ≤ kMaxSequenceNumber
  key : e.key.length < 2 ^ 32 - 8
  value : e.value.length < 2 ^ 32 - 8
  height : 1 ≤ e.height ∧ e.height ≤ kMaxHeight

/-- What `Admissible` says of sizes and height; the sequence number may be any. -/
structure Entry.Sized (e : Entry) : Prop where
  key : e.key.length < 2 ^ 32 - 8
  value : e.value.length < 2 ^ 32 - 8
  height : 1 ≤ e.height ∧ e.height ≤ kMaxHeight

theorem Entry.Admissible.sized {e : Entry} (h : e.Admissible) : e.Sized :=
  ⟨h.key, h.value, h.height⟩

/-- The snapshot `s` sees the entry, and it is one of the user key. -/
def Entry.Visible (u : Bytes) (s : ℕ) (e : Entry) : Prop := e.key = u ∧ e.sequence ≤ s

/-- The entry of the user key with the largest sequence number and type that the snapshot sees. -/
structure Newest (entries : List Entry) (u : Bytes) (s : ℕ) (e : Entry) : Prop where
  mem : e ∈ entries
  visible : e.Visible u s
  largest : ∀ e' ∈ entries, e'.Visible u s →
    e'.sequence < e.sequence ∨ e'.sequence = e.sequence ∧ e'.type.toNat ≤ e.type.toNat

/-- What a read that ends at an entry does: a value is stored, a deletion is `NotFound`. -/
def Entry.outcome (e : Entry) (value : Bytes) (s : Status) : Bool × Bytes × Status :=
  match e.type with
  | .kTypeValue => (true, e.value, s)
  | .kTypeDeletion => (true, value, .notFound "")

/-! ### Entries as bytes -/

def Entry.internalKey (e : Entry) : Bytes := encodeInternalKey e.key e.sequence e.type

/-- The buffer of an entry. -/
def Entry.bytes (e : Entry) : Bytes :=
  encodeVarint32 e.internalKey.length ++
    (e.internalKey ++ (encodeVarint32 e.value.length ++ e.value))

theorem getLengthPrefixedSlice_encode {data : Bytes} (h : data.length < 2 ^ 32) (rest : Bytes) :
    getLengthPrefixedSlice (encodeVarint32 data.length ++ (data ++ rest)) = some (data, rest) := by
  simp [getLengthPrefixedSlice, getVarint32Ptr_encodeVarint32 h]

namespace Entry.Sized

variable {e : Entry}

theorem length_internalKey (h : e.Sized) : e.internalKey.length < 2 ^ 32 := by
  have hkey := h.key
  rw [internalKey, length_encodeInternalKey]
  omega

theorem encodeEntry_eq (h : e.Sized) :
    encodeEntry e.sequence e.type e.key e.value = some e.bytes := by
  have hkey := h.key
  have hvalue : e.value.length < 2 ^ 32 := Nat.lt_of_lt_of_le h.value (Nat.sub_le _ _)
  have hsize : e.key.length + 8 < 2 ^ 32 := by omega
  have hbytes : encodeVarint32 (e.key.length + 8) ++ e.key ++ encodeFixed64 (tag e.sequence e.type)
      ++ encodeVarint32 e.value.length ++ e.value = e.bytes := by
    rw [bytes, internalKey, length_encodeInternalKey, encodeInternalKey]
    simp only [List.append_assoc]
  have hlen : e.bytes.length = varintLength (e.key.length + 8) + (e.key.length + 8)
      + varintLength e.value.length + e.value.length := by
    rw [← hbytes, encodeVarint32_eq hsize, encodeVarint32_eq hvalue]
    simp only [List.length_append, length_encodeFixed64, varintLength_eq]
    omega
  simp only [encodeEntry, Nat.mod_eq_of_lt hsize, Nat.mod_eq_of_lt hvalue, hbytes, hlen, if_true]

theorem getLengthPrefixedSlice_bytes (h : e.Sized) :
    getLengthPrefixedSlice e.bytes
      = some (e.internalKey, encodeVarint32 e.value.length ++ e.value) :=
  getLengthPrefixedSlice_encode h.length_internalKey _

end Entry.Sized

variable {c : Comparator}

theorem keyComparator_bytes {a b : Entry} (ha : a.Sized) (hb : b.Sized) :
    keyComparator c a.bytes b.bytes
      = InternalKeyComparator.compare c a.internalKey b.internalKey := by
  simp [keyComparator, ha.getLengthPrefixedSlice_bytes, hb.getLengthPrefixedSlice_bytes]

instance [TransCmp c.compare] : TransCmp (keyComparator c) :=
  transCmp_comap (InternalKeyComparator.compare c)
    fun ptr => ((getLengthPrefixedSlice ptr).map Prod.fst).getD []

theorem add_eq {e : Entry} (h : e.Sized) (m : MemTable) :
    add c m e.sequence e.type e.key e.value e.height
      = (SkipList.insert (keyComparator c) m.table e.bytes e.height).map MemTable.mk := by
  rw [add, h.encodeEntry_eq, Option.bind_eq_bind, Option.bind_some, Option.map_eq_bind]
  rfl

/-- Adding is inserting the buffers. -/
theorem addAll_eq {entries : List Entry} (h : ∀ e ∈ entries, e.Sized) (m : MemTable) :
    addAll c m entries = (SkipList.insertAll (keyComparator c) m.table
      (entries.map fun e => (e.bytes, e.height))).map MemTable.mk := by
  induction entries generalizing m with
  | nil => rfl
  | cons e entries ih =>
    rw [addAll, List.foldlM_cons, add_eq (h e List.mem_cons_self), List.map_cons,
      SkipList.insertAll, List.foldlM_cons]
    cases SkipList.insert (keyComparator c) m.table e.bytes e.height with
    | none => rfl
    | some table => exact ih (fun e' he' => h e' (List.mem_cons_of_mem e he')) ⟨table⟩

/-- The triple that tells entries apart. -/
def Entry.triple (e : Entry) : Bytes × ℕ × ValueType := (e.key, e.sequence, e.type)

/-- Internal keys that compare equal have the same user key and the same tag. -/
theorem key_tag_eq_of_compare [LawfulEqCmp c.compare] {a b : Entry}
    (h : InternalKeyComparator.compare c a.internalKey b.internalKey = .eq) :
    a.key = b.key ∧ tag a.sequence a.type = tag b.sequence b.type := by
  have huser : c.compare a.key b.key = .eq := by
    cases hcmp : c.compare a.key b.key with
    | eq => rfl
    | lt => simp [InternalKeyComparator.compare, Entry.internalKey, hcmp] at h
    | gt => simp [InternalKeyComparator.compare, Entry.internalKey, hcmp] at h
  rw [InternalKeyComparator.compare_of_user_eq (by simpa [Entry.internalKey] using huser),
    Entry.internalKey, Entry.internalKey, extractTag_encode, extractTag_encode,
    Nat.compare_eq_eq] at h
  exact ⟨LawfulEqCmp.compare_eq_iff_eq.mp huser, h.symm⟩

theorem triple_eq_of_compare [LawfulEqCmp c.compare] {a b : Entry} (ha : a.Admissible)
    (hb : b.Admissible)
    (h : InternalKeyComparator.compare c a.internalKey b.internalKey = .eq) :
    a.triple = b.triple := by
  obtain ⟨hkey, htag⟩ := key_tag_eq_of_compare h
  obtain ⟨hseq, htype⟩ := tag_inj ha.sequence hb.sequence htag
  rw [Entry.triple, Entry.triple, hkey, hseq, htype]

/-! ### Reading -/

theorem read_bytes [LawfulEqCmp c.compare] {e : Entry} (he : e.Admissible) (u value : Bytes)
    (s : Status) :
    read c u (some e.bytes) value s
      = some (if e.key = u then e.outcome value s else (false, value, s)) := by
  have hkey : e.internalKey.length = e.key.length + 8 := length_encodeInternalKey ..
  have htag : decodeFixed64 (encodeFixed64 (tag e.sequence e.type)
      ++ (encodeVarint32 e.value.length ++ e.value)) = tag e.sequence e.type := by
    rw [decodeFixed64_encodeFixed64, Nat.mod_eq_of_lt (tag_lt _ _)]
  have huser : (e.internalKey ++ (encodeVarint32 e.value.length ++ e.value)).take e.key.length
      = e.key := by
    rw [Entry.internalKey, encodeInternalKey, List.append_assoc, List.take_left' rfl]
  have hdrop : (e.internalKey ++ (encodeVarint32 e.value.length ++ e.value)).drop e.key.length
      = encodeFixed64 (tag e.sequence e.type) ++ (encodeVarint32 e.value.length ++ e.value) := by
    rw [Entry.internalKey, encodeInternalKey, List.append_assoc, List.drop_left' rfl]
  have hvalue : getLengthPrefixedSlice (encodeVarint32 e.value.length ++ e.value)
      = some (e.value, []) := by
    have h := getLengthPrefixedSlice_encode (Nat.lt_of_lt_of_le he.value (Nat.sub_le _ _)) []
    rwa [List.append_nil] at h
  simp only [read, Entry.bytes, getVarint32Ptr_encodeVarint32 he.sized.length_internalKey,
    Option.bind_eq_bind, Option.bind_some]
  rw [if_neg (by simp only [List.length_append]; omega), hkey, Nat.add_sub_cancel, huser, hdrop,
    htag, tag_and_0xff he.sequence, ValueType.ofNat?_toNat, ← hkey, List.drop_left' rfl]
  by_cases heq : e.key = u
  · rw [if_pos (LawfulEqCmp.compare_eq_iff_eq.mpr heq), if_pos heq]
    cases htype : e.type with
    | kTypeValue => simp [hvalue, Entry.outcome, htype]
    | kTypeDeletion => simp [Entry.outcome, htype]
  · rw [if_neg fun h => heq (LawfulEqCmp.compare_eq_iff_eq.mp h), if_neg heq]

/-- What `Get` does with the node its seek ended at. -/
theorem get_of_seek [LawfulEqCmp c.compare] {m : MemTable} {k : LookupKey}
    {e : Entry} {n : ℕ} (he : e.Admissible)
    (hseek : SkipList.iterStep (keyComparator c) m.table none (.seek k.memtableKey) = some (some n))
    (hn : m.table.key n = e.bytes) (value : Bytes) (s : Status) :
    get c m k value s
      = some (if e.key = k.userKey then e.outcome value s else (false, value, s)) := by
  rw [get, hseek, Option.bind_eq_bind, Option.bind_some, Option.map_some, hn, read_bytes he]

/-- The skip list after any sequence of `Add` calls with distinct internal keys. -/
theorem addAll_levels [TransCmp c.compare] {entries : List Entry}
    (hentries : ∀ e ∈ entries, e.Sized) (hdistinct : entries.Pairwise fun a b =>
      InternalKeyComparator.compare c a.internalKey b.internalKey ≠ .eq) :
    ∃ m order, addAll c new entries = some m ∧
      SkipList.Levels (keyComparator c) m.table order m.table.height ∧
      (order.map m.table.key).Perm (entries.map Entry.bytes) := by
  have hpair : List.Pairwise (fun e e' : Bytes × ℕ => keyComparator c e'.1 e.1 ≠ .eq)
      ((entries.map fun e => (e.bytes, e.height)).reverse ++ []) := by
    rw [List.append_nil, List.pairwise_reverse, List.pairwise_map]
    refine hdistinct.imp_of_mem fun {a b} ha hb hne => ?_
    rwa [keyComparator_bytes (hentries a ha) (hentries b hb)]
  have hheight : ∀ e ∈ entries.map fun e => (e.bytes, e.height), 1 ≤ e.2 ∧ e.2 ≤ kMaxHeight := by
    intro e he
    obtain ⟨e, hmem, rfl⟩ := List.mem_map.mp he
    exact (hentries e hmem).height
  obtain ⟨table, order, hall, hlevels, hperm⟩ := SkipList.holds_new.insertAll hpair hheight
  rw [List.append_nil] at hperm
  refine ⟨⟨table⟩, order, ?_, hlevels, ?_⟩
  · rw [addAll_eq hentries, new, hall, Option.map_some]
  · have h := (hperm.trans (List.reverse_perm _)).map Prod.fst
    simpa [Function.comp_def] using h

/-- An entry of the user key is not before the seek key exactly if the snapshot sees it. -/
theorem Entry.Admissible.visible_iff [TransCmp c.compare] {e : Entry} (he : e.Admissible) {s : ℕ}
    (hs : s ≤ kMaxSequenceNumber) :
    InternalKeyComparator.compare c e.internalKey (encodeInternalKey e.key s kValueTypeForSeek)
      ≠ .lt
      ↔ e.Visible e.key s := by
  rw [ne_eq, Entry.internalKey,
    InternalKeyComparator.compare_seek_eq_lt_iff e.key e.type he.sequence hs]
  simp [Entry.Visible]

/-- Of two entries of a user key, the one in front is the newer one. -/
theorem Entry.Admissible.newer_of_compare [ReflCmp c.compare] {a b : Entry} (ha : a.Admissible)
    (hb : b.Admissible) (hkey : a.key = b.key)
    (h : InternalKeyComparator.compare c a.internalKey b.internalKey ≠ .gt) :
    b.sequence < a.sequence ∨ b.sequence = a.sequence ∧ b.type.toNat ≤ a.type.toNat := by
  rw [Entry.internalKey, Entry.internalKey, hkey, InternalKeyComparator.compare_encode_self, ne_eq,
    Nat.compare_eq_gt, tag_lt_tag_iff ha.sequence hb.sequence] at h
  omega

/-- The least entry that is not before the seek key is the newest that the snapshot sees, or it
belongs to another user key and the snapshot sees none. -/
theorem newest_of_least [TransCmp c.compare] [LawfulEqCmp c.compare] {entries : List Entry}
    (hentries : ∀ e ∈ entries, e.Admissible) {u : Bytes} {s : ℕ} (hs : s ≤ kMaxSequenceNumber)
    {e : Entry} (he : e ∈ entries)
    (hge : InternalKeyComparator.compare c e.internalKey (encodeInternalKey u s kValueTypeForSeek)
      ≠ .lt)
    (hleast : ∀ e' ∈ entries, InternalKeyComparator.compare c e'.internalKey
        (encodeInternalKey u s kValueTypeForSeek) ≠ .lt →
      e'.internalKey = e.internalKey ∨
        InternalKeyComparator.compare c e.internalKey e'.internalKey = .lt) :
    (e.key = u → Newest entries u s e) ∧ (e.key ≠ u → ∀ e' ∈ entries, ¬ e'.Visible u s) := by
  have hseen : ∀ e' ∈ entries, e'.Visible u s → e'.internalKey = e.internalKey ∨
      InternalKeyComparator.compare c e.internalKey e'.internalKey = .lt := by
    rintro e' he' ⟨rfl, hseq⟩
    exact hleast e' he' (((hentries e' he').visible_iff hs).mpr ⟨rfl, hseq⟩)
  constructor
  · rintro rfl
    refine ⟨he, ((hentries e he).visible_iff hs).mp hge, fun e' he' hvis => ?_⟩
    refine (hentries e he).newer_of_compare (c := c) (hentries e' he') hvis.1.symm ?_
    rcases hseen e' he' hvis with heq | hlt
    · rw [heq]
      exact InternalKeyComparator.compare_self_ne_gt _
    · rw [hlt]
      decide
  · intro hne e' he' hvis
    have huser : extractUserKey e'.internalKey = u := by
      rw [Entry.internalKey, extractUserKey_encode, hvis.1]
    have hkey : e.key = extractUserKey e.internalKey := (extractUserKey_encode ..).symm
    rcases hseen e' he' hvis with heq | hlt
    · exact hne (by rw [hkey, ← heq, huser])
    · have hbetween := InternalKeyComparator.userKey_of_between hge
        (by rw [hlt]; decide) (by simp [huser])
      exact hne (by rw [hkey, hbetween, extractUserKey_encode])

/-- Where a seek for `(u, s)` ends. -/
theorem seek_cases [TransCmp c.compare] [LawfulEqCmp c.compare] {m : MemTable} {order : List ℕ}
    {entries : List Entry} (hentries : ∀ e ∈ entries, e.Admissible)
    (hlevels : SkipList.Levels (keyComparator c) m.table order m.table.height)
    (hperm : (order.map m.table.key).Perm (entries.map Entry.bytes)) {u target : Bytes} {s : ℕ}
    (hs : s ≤ kMaxSequenceNumber)
    (htarget : getLengthPrefixedSlice target
      = some (encodeInternalKey u s kValueTypeForSeek, [])) :
    (SkipList.iterStep (keyComparator c) m.table none (.seek target) = some none ∧
      ∀ e ∈ entries, ¬ e.Visible u s) ∨
    ∃ n, ∃ e ∈ entries,
      SkipList.iterStep (keyComparator c) m.table none (.seek target) = some (some n) ∧
      m.table.key n = e.bytes ∧ (e.key = u → Newest entries u s e) ∧
      (e.key ≠ u → ∀ e' ∈ entries, ¬ e'.Visible u s) := by
  have hcmp : ∀ e ∈ entries, keyComparator c e.bytes target
      = InternalKeyComparator.compare c e.internalKey
        (encodeInternalKey u s kValueTypeForSeek) := by
    intro e he
    simp [keyComparator, (hentries e he).sized.getLengthPrefixedSlice_bytes, htarget]
  have hnode : ∀ e ∈ entries, ∃ n ∈ order, m.table.key n = e.bytes := by
    intro e he
    exact List.mem_map.mp (hperm.symm.subset (List.mem_map_of_mem he))
  obtain ⟨prev, hfind, -⟩ := hlevels.findGreaterOrEqual_eq target
  cases hres : order.find? fun n => !SkipList.before (keyComparator c) m.table target n with
  | none =>
    left
    refine ⟨by simp [SkipList.iterStep, hfind, hres], ?_⟩
    rintro e he ⟨rfl, hseq⟩
    obtain ⟨n, hn, hkey⟩ := hnode e he
    have hlt := List.find?_eq_none.mp hres n hn
    simp only [SkipList.before, hkey, hcmp e he, Bool.not_eq_true', decide_eq_false_iff_not,
      not_not] at hlt
    exact ((hentries e he).visible_iff hs).mpr ⟨rfl, hseq⟩ hlt
  | some n =>
    right
    obtain ⟨hn, hge, hleast⟩ := hlevels.find_least target hres
    obtain ⟨e, he, hkey⟩ := List.mem_map.mp (hperm.subset (List.mem_map_of_mem hn))
    refine ⟨n, e, he, by simp [SkipList.iterStep, hfind, hres], hkey.symm, ?_⟩
    rw [← hkey, hcmp e he] at hge
    refine newest_of_least hentries hs he hge fun e' he' hge' => ?_
    obtain ⟨n', hn', hkey'⟩ := hnode e' he'
    rcases hleast n' hn' (by rwa [hkey', hcmp e' he']) with rfl | hlt
    · left
      have hparse := (hentries e' he').sized.getLengthPrefixedSlice_bytes
      rw [← hkey', ← hkey, (hentries e he).sized.getLengthPrefixedSlice_bytes] at hparse
      exact (congrArg Prod.fst (Option.some.inj hparse)).symm
    · rw [hkey', ← hkey, keyComparator_bytes (hentries e he).sized (hentries e' he').sized] at hlt
      exact Or.inr hlt

/-- **Snapshot reads.** After any sequence of `Add` calls with distinct triples, `Get` returns false
exactly when the snapshot sees no entry of the user key. Otherwise it ends at the newest one: a
value is stored and the status left alone, a deletion is `NotFound` and the value left alone. -/
theorem get_addAll (entries : List Entry) (hentries : ∀ e ∈ entries, e.Admissible)
    (hdistinct : entries.Pairwise fun a b => a.triple ≠ b.triple) (u : Bytes)
    (hu : u.length < 2 ^ 32 - 8) (s : ℕ) (hs : s ≤ kMaxSequenceNumber) :
    ∃ m k, addAll bytewiseComparator new entries = some m ∧ LookupKey.new u s = some k ∧
      ∀ value status,
        ((∃ value' status', get bytewiseComparator m k value status = some (false, value', status'))
          ↔ ∀ e ∈ entries, ¬ e.Visible u s) ∧
        ((∃ e ∈ entries, e.Visible u s) → ∃ e, Newest entries u s e ∧
          get bytewiseComparator m k value status = some (e.outcome value status)) := by
  have hcmp : TransCmp bytewiseComparator.compare := bytewiseComparator_lawful.trans
  have heq : LawfulEqCmp bytewiseComparator.compare := inferInstanceAs (LawfulEqCmp Slice.compare)
  have hne : entries.Pairwise fun a b =>
      InternalKeyComparator.compare bytewiseComparator a.internalKey b.internalKey ≠ .eq :=
    hdistinct.imp_of_mem fun ha hb hne h =>
      hne (triple_eq_of_compare (hentries _ ha) (hentries _ hb) h)
  obtain ⟨m, order, hadd, hlevels, hperm⟩ :=
    addAll_levels (fun e he => (hentries e he).sized) hne
  have hsize : u.length + 8 < 2 ^ 32 := by omega
  have hk := LookupKey.new_eq hsize hs
  set k : LookupKey := ⟨encodeVarint32 (u.length + 8) ++ encodeInternalKey u s kValueTypeForSeek,
    encodeInternalKey u s kValueTypeForSeek⟩
  have huser : k.userKey = u := extractUserKey_encode ..
  have htarget : getLengthPrefixedSlice k.memtableKey
      = some (encodeInternalKey u s kValueTypeForSeek, []) := by
    have hlen : (encodeInternalKey u s kValueTypeForSeek).length < 2 ^ 32 := by simpa using hsize
    have h := getLengthPrefixedSlice_encode hlen []
    rwa [List.append_nil, length_encodeInternalKey] at h
  refine ⟨m, k, hadd, hk, fun value status => ?_⟩
  rcases seek_cases hentries hlevels hperm hs htarget with
    ⟨hseek, hnone⟩ | ⟨n, e, he, hseek, hkey, hu, hne⟩
  · have hget : get bytewiseComparator m k value status = some (false, value, status) := by
      rw [get, hseek]
      rfl
    refine ⟨⟨fun _ => hnone, fun _ => ⟨value, status, hget⟩⟩, ?_⟩
    rintro ⟨e, he, hvis⟩
    exact absurd hvis (hnone e he)
  · have hget := get_of_seek (c := bytewiseComparator) (hentries e he) hseek hkey value status
    rw [huser] at hget
    by_cases hkeyu : e.key = u
    · have hnew := hu hkeyu
      rw [if_pos hkeyu] at hget
      refine ⟨⟨?_, fun hnone => absurd hnew.visible (hnone e he)⟩, fun _ => ⟨e, hnew, hget⟩⟩
      rintro ⟨value', status', hfalse⟩
      rw [hget] at hfalse
      cases htype : e.type <;> simp [Entry.outcome, htype] at hfalse
    · rw [if_neg hkeyu] at hget
      refine ⟨⟨fun _ => hne hkeyu, fun _ => ⟨value, status, hget⟩⟩, ?_⟩
      rintro ⟨e', he', hvis⟩
      exact absurd hvis (hne hkeyu e' he')

/-- A key written and then deleted, read from before the deletion and from after it. -/
theorem get_addAll_deleted : ∃ m k k',
    addAll bytewiseComparator new
      [⟨3, .kTypeValue, [7], [10, 11], 2⟩, ⟨5, .kTypeDeletion, [7], [], 1⟩] = some m ∧
    LookupKey.new [7] 4 = some k ∧ LookupKey.new [7] 6 = some k' ∧
    get bytewiseComparator m k [1] .success = some (true, [10, 11], .success) ∧
    get bytewiseComparator m k' [1] .success = some (true, [1], .notFound "") := by
  have hadm : ∀ e ∈ [(⟨3, .kTypeValue, [7], [10, 11], 2⟩ : Entry),
      ⟨5, .kTypeDeletion, [7], [], 1⟩], e.Admissible := by
    intro e he
    rcases List.mem_pair.mp he with rfl | rfl <;>
      exact ⟨by decide, by decide, by decide, by decide⟩
  obtain ⟨m, k, hm, hk, hget⟩ := get_addAll _ hadm (by decide) [7] (by decide) 4 (by decide)
  obtain ⟨m', k', hm', hk', hget'⟩ := get_addAll _ hadm (by decide) [7] (by decide) 6 (by decide)
  obtain rfl : m = m' := Option.some.inj (hm.symm.trans hm')
  obtain ⟨e, hnew, hres⟩ := (hget [1] .success).2 ⟨_, List.mem_cons_self, rfl, by decide⟩
  obtain ⟨e', hnew', hres'⟩ := (hget' [1] .success).2 ⟨_, List.mem_cons_self, rfl, by decide⟩
  refine ⟨m, k, k', hm, hk, hk', ?_, ?_⟩
  · rw [hres]
    rcases List.mem_pair.mp hnew.mem with rfl | rfl
    · rfl
    · exact absurd hnew.visible.2 (by decide)
  · rw [hres']
    rcases List.mem_pair.mp hnew'.mem with rfl | rfl
    · exact absurd (hnew'.largest _ (List.mem_cons_of_mem _ List.mem_cons_self) ⟨rfl, by decide⟩)
        (by decide)
    · rfl

end MemTable

end Squirrel
