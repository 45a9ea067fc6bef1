import Mathlib.Data.List.Permutation
import Squirrel.Db.MemTable

/-!
# Iterators over a memtable

A `MemTableIterator` is an iterator of the skip list. It shows nothing but pointers to entries; the
internal key is the first length-prefixed string there, and the value is the one behind it. A seek
brings its target into the same form, so that the skip list can compare it with entries.

The calls of `Add` come first. After them the entries, sorted by their internal keys, are a list
over which the iterator moves as a cursor does.

## Main definitions

* `MemTableIterator.step`, `MemTableIterator.key`, `MemTableIterator.value`

## Main results

* `MemTableIterator.run_addAll` — the iterator after any calls of `Add`
-/

namespace Squirrel

open Std MemTable

/-- `EncodeKey`. -/
def encodeKey (target : Bytes) : Bytes := Coding.putVarint32 [] target.length ++ target

/-- A `MemTableIterator`: the node of `iter_`. -/
structure MemTableIterator where
  node : Option ℕ
  deriving DecidableEq

namespace MemTableIterator

/-- `NewIterator`. -/
def new : MemTableIterator := ⟨none⟩

/-- `Valid`. -/
def Valid (it : MemTableIterator) : Prop := it.node.isSome = true

instance (it : MemTableIterator) : Decidable it.Valid := inferInstanceAs (Decidable (_ = _))

/-- The operations. -/
def step (c : Comparator) (m : MemTable) (it : MemTableIterator) :
    Cursor.Op Bytes → Option MemTableIterator
  | .seek k => (SkipList.iterStep (keyComparator c) m.table it.node (.seek (encodeKey k))).map mk
  | .seekToFirst => (SkipList.iterStep (keyComparator c) m.table it.node .seekToFirst).map mk
  | .seekToLast => (SkipList.iterStep (keyComparator c) m.table it.node .seekToLast).map mk
  | .next => (SkipList.iterStep (keyComparator c) m.table it.node .next).map mk
  | .prev => (SkipList.iterStep (keyComparator c) m.table it.node .prev).map mk

/-- `key`. -/
def key (m : MemTable) (it : MemTableIterator) : Option Bytes := do
  let (key, _) ← getLengthPrefixedSlice (m.table.key (← it.node))
  some key

/-- `value`: the slice behind the key. -/
def value (m : MemTable) (it : MemTableIterator) : Option Bytes := do
  let (_, keyEnd) ← getLengthPrefixedSlice (m.table.key (← it.node))
  let (value, _) ← getLengthPrefixedSlice keyEnd
  some value

/-- A seek is for an internal key, whose size is a `uint32_t`. -/
def SeeksInternalKey : Cursor.Op Bytes → Prop
  | .seek k => 8 ≤ k.length ∧ k.length < 2 ^ 32
  | _ => True

variable {c : Comparator} {m : MemTable} {entries sorted : List Entry} {order : List ℕ}

theorem getLengthPrefixedSlice_encodeKey {k : Bytes} (hk : k.length < 2 ^ 32) :
    getLengthPrefixedSlice (encodeKey k) = some (k, []) := by
  have h := getLengthPrefixedSlice_encode hk []
  rwa [List.append_nil, ← Nat.mod_eq_of_lt hk] at h

/-- The skip list compares entries with an encoded target as the comparator compares the keys. -/
theorem keyComparator_encodeKey {e : Entry} (he : e.Sized) {k : Bytes} (hk : k.length < 2 ^ 32) :
    keyComparator c e.bytes (encodeKey k) = InternalKeyComparator.compare c e.internalKey k := by
  simp only [keyComparator, he.getLengthPrefixedSlice_bytes, getLengthPrefixedSlice_encodeKey hk,
    Option.map_some, Option.getD_some]

/-! ### The list of the iterator -/

/-- The entries in the order of the nodes. -/
theorem exists_sorted (hentries : ∀ e ∈ entries, e.Sized)
    (hlevels : SkipList.Levels (keyComparator c) m.table order m.table.height)
    (hperm : (order.map m.table.key).Perm (entries.map Entry.bytes)) :
    ∃ sorted : List Entry, sorted.Perm entries ∧ order.map m.table.key = sorted.map Entry.bytes ∧
      sorted.Pairwise fun a b => InternalKeyComparator.compare c a.internalKey b.internalKey
        = .lt := by
  have hcomp : Relation.Comp (· = List.map Entry.bytes ·) List.Perm (order.map m.table.key)
      entries := by
    rw [List.eq_map_comp_perm]
    exact hperm
  obtain ⟨sorted, hmap, hsorted⟩ := hcomp
  refine ⟨sorted, hsorted, hmap, ?_⟩
  have hpair : (order.map m.table.key).Pairwise fun a b => keyComparator c a b = .lt :=
    List.pairwise_map.mpr hlevels.sorted
  rw [hmap, List.pairwise_map] at hpair
  refine hpair.imp_of_mem fun {a b} ha hb hlt => ?_
  rwa [keyComparator_bytes (hentries a (hsorted.subset ha)) (hentries b (hsorted.subset hb))] at hlt

/-- The operation on the skip list. -/
def onTable : Cursor.Op Bytes → Cursor.Op Bytes
  | .seek k => .seek (encodeKey k)
  | op => op

theorem step_eq (it : MemTableIterator) (op : Cursor.Op Bytes) :
    step c m it op = (SkipList.iterStep (keyComparator c) m.table it.node (onTable op)).map mk := by
  cases op <;> rfl

/-- A cursor over the bytes of the entries does what one over the entries does. -/
theorem cursor_step_bytes (hsorted : ∀ e ∈ sorted, e.Sized) (pos : Option ℕ) {op : Cursor.Op Bytes}
    (hop : SeeksInternalKey op) :
    Cursor.step (fun a k => keyComparator c a k = .lt) (sorted.map Entry.bytes) pos (onTable op)
      = Cursor.step (fun e k => InternalKeyComparator.compare c e.internalKey k = .lt) sorted pos
        op := by
  rw [Cursor.step_map]
  cases op with
  | seek k =>
    have hsame : ∀ e ∈ sorted, keyComparator c e.bytes (encodeKey k)
        = InternalKeyComparator.compare c e.internalKey k :=
      fun e he => keyComparator_encodeKey (hsorted e he) hop.2
    have hidx : (sorted.findIdx fun e => !decide (keyComparator c e.bytes (encodeKey k) = .lt))
        = sorted.findIdx fun e =>
          !decide (InternalKeyComparator.compare c e.internalKey k = .lt) := by
      apply Nat.le_antisymm
      · exact List.findIdx_le_findIdx fun e he h => by rwa [hsame e he]
      · exact List.findIdx_le_findIdx fun e he h => by rwa [← hsame e he]
    show some (Cursor.place sorted _) = some (Cursor.place sorted _)
    rw [hidx]
  | seekToFirst => rfl
  | seekToLast => rfl
  | next => rfl
  | prev => rfl

/-- The iterator is at the node of the position. -/
def At (order : List ℕ) (it : MemTableIterator) (pos : Option ℕ) : Prop :=
  SkipList.IterAt order it.node pos

/-- One operation. -/
theorem step_refines [TransCmp c.compare]
    (hlevels : SkipList.Levels (keyComparator c) m.table order m.table.height)
    (hmap : order.map m.table.key = sorted.map Entry.bytes) (hsorted : ∀ e ∈ sorted, e.Sized)
    {it : MemTableIterator} {pos pos' : Option ℕ} {op : Cursor.Op Bytes} (hop : SeeksInternalKey op)
    (hat : At order it pos)
    (hstep : Cursor.step (fun e k => InternalKeyComparator.compare c e.internalKey k = .lt) sorted
      pos op = some pos') :
    ∃ it', step c m it op = some it' ∧ At order it' pos' := by
  rw [← cursor_step_bytes hsorted pos hop, ← hmap] at hstep
  obtain ⟨node, hnode, hat'⟩ := hlevels.iterStep_refines (onTable op) hat hstep
  refine ⟨⟨node⟩, ?_, hat'⟩
  rw [step_eq, hnode, Option.map_some]

/-- What the iterator shows. -/
theorem entry_at (hmap : order.map m.table.key = sorted.map Entry.bytes)
    (hsorted : ∀ e ∈ sorted, e.Sized) {it : MemTableIterator} {pos : Option ℕ}
    (hat : At order it pos) : (it.Valid ↔ pos.isSome = true) ∧
      it.key m = (pos.bind fun i => sorted[i]?).map Entry.internalKey ∧
      it.value m = (pos.bind fun i => sorted[i]?).map Entry.value := by
  obtain ⟨hnode, hlt⟩ := hat
  cases pos with
  | none =>
    have hnone : it.node = none := hnode
    simp [Valid, key, value, hnone]
  | some i =>
    have hi := hlt i rfl
    have hlen : order.length = sorted.length := by
      simpa only [List.length_map] using congrArg List.length hmap
    have hi' : i < sorted.length := hlen ▸ hi
    have hsome : it.node = some order[i] := by
      rw [hnode, Option.bind_some, List.getElem?_eq_getElem hi]
    have hbytes : m.table.key order[i] = sorted[i].bytes := by
      have h := congrArg (fun l => l[i]?) hmap
      simpa only [List.getElem?_map, List.getElem?_eq_getElem hi, List.getElem?_eq_getElem hi',
        Option.map_some, Option.some_inj] using h
    have hsized := hsorted _ (List.getElem_mem hi')
    have hvalue :
      getLengthPrefixedSlice (Coding.encodeVarint32 sorted[i].value.length ++ sorted[i].value)
        = some (sorted[i].value, []) := by
      have h := getLengthPrefixedSlice_encode (Nat.lt_of_lt_of_le hsized.value (Nat.sub_le _ _)) []
      rwa [List.append_nil] at h
    refine ⟨by simp [Valid, hsome], ?_, ?_⟩
    · simp [key, hsome, hbytes, hsized.getLengthPrefixedSlice_bytes, hi']
    · simp [value, hsome, hbytes, hsized.getLengthPrefixedSlice_bytes, hvalue, hi']

/-- **Iterators over a memtable.** After any calls of `Add` with internal keys that the comparator
tells apart, the iterator is a cursor over the added entries in the order of their internal keys. -/
theorem run_addAll [TransCmp c.compare] (entries : List Entry) (hentries : ∀ e ∈ entries, e.Sized)
    (hdistinct : entries.Pairwise fun a b =>
      InternalKeyComparator.compare c a.internalKey b.internalKey ≠ .eq) :
    ∃ m sorted, addAll c MemTable.new entries = some m ∧ sorted.Perm entries ∧
      (sorted.Pairwise fun a b =>
        InternalKeyComparator.compare c a.internalKey b.internalKey = .lt) ∧
      ∀ ops pos, (∀ op ∈ ops, SeeksInternalKey op) →
        Cursor.run (Cursor.step (fun e k => InternalKeyComparator.compare c e.internalKey k = .lt)
          sorted)
          none ops = some pos →
        ∃ it, Cursor.run (step c m) new ops = some it ∧ (it.Valid ↔ pos.isSome = true) ∧
          it.key m = (pos.bind fun i => sorted[i]?).map Entry.internalKey ∧
          it.value m = (pos.bind fun i => sorted[i]?).map Entry.value := by
  obtain ⟨m, order, hadd, hlevels, hperm⟩ := addAll_levels hentries hdistinct
  obtain ⟨sorted, hsorted, hmap, hlt⟩ := exists_sorted hentries hlevels hperm
  have hsized : ∀ e ∈ sorted, e.Sized := fun e he => hentries e (hsorted.subset he)
  refine ⟨m, sorted, hadd, hsorted, hlt, fun ops pos hops hrun => ?_⟩
  have hstart : At order new none := ⟨rfl, by rintro _ ⟨⟩⟩
  have hone : ∀ it pos op pos', SeeksInternalKey op → At order it pos →
      Cursor.step (fun e k => InternalKeyComparator.compare c e.internalKey k = .lt) sorted pos op
        = some pos' →
      ∃ it', step c m it op = some it' ∧ At order it' pos' :=
    fun _ _ _ _ hop hat hstep => step_refines hlevels hmap hsized hop hat hstep
  obtain ⟨it, hit, hat⟩ := Cursor.run_simulates_of hone hops hstart hrun
  exact ⟨it, hit, entry_at hmap hsized hat⟩

/-- A comparator under which only equal keys compare equal tells internal keys apart. -/
theorem compare_ne_eq_of_ne [LawfulEqCmp c.compare] {a b : Entry}
    (h : a.internalKey ≠ b.internalKey) :
    InternalKeyComparator.compare c a.internalKey b.internalKey ≠ .eq := by
  intro heq
  obtain ⟨hkey, htag⟩ := key_tag_eq_of_compare heq
  rw [Entry.internalKey, Entry.internalKey, encodeInternalKey, encodeInternalKey, hkey, htag] at h
  exact h rfl

/-- Two versions of a key: the newer one comes first. -/
theorem run_addAll_two : ∃ m it it',
    addAll bytewiseComparator MemTable.new
      [⟨3, .kTypeValue, [7], [10, 11], 2⟩, ⟨5, .kTypeDeletion, [7], [], 1⟩] = some m ∧
    Cursor.run (step bytewiseComparator m) new [.seekToFirst] = some it ∧
    it.key m = some (encodeInternalKey [7] 5 .kTypeDeletion) ∧ it.value m = some [] ∧
    Cursor.run (step bytewiseComparator m) new [.seek (encodeInternalKey [7] 4 .kTypeValue)]
      = some it' ∧
    it'.key m = some (encodeInternalKey [7] 3 .kTypeValue) ∧ it'.value m = some [10, 11] := by
  have hcmp : TransCmp bytewiseComparator.compare := bytewiseComparator_lawful.trans
  have heq : LawfulEqCmp bytewiseComparator.compare := inferInstanceAs (LawfulEqCmp Slice.compare)
  obtain ⟨old, hold⟩ : ∃ e : Entry, e = ⟨3, .kTypeValue, [7], [10, 11], 2⟩ := ⟨_, rfl⟩
  obtain ⟨newer, hnewer⟩ : ∃ e : Entry, e = ⟨5, .kTypeDeletion, [7], [], 1⟩ := ⟨_, rfl⟩
  have hlt : InternalKeyComparator.compare bytewiseComparator newer.internalKey old.internalKey
      = .lt := by
    rw [hold, hnewer]
    decide
  have hseek : InternalKeyComparator.compare bytewiseComparator newer.internalKey
        (encodeInternalKey [7] 4 .kTypeValue) = .lt ∧
      InternalKeyComparator.compare bytewiseComparator old.internalKey
        (encodeInternalKey [7] 4 .kTypeValue) ≠ .lt := by
    rw [hold, hnewer]
    decide
  have hsized : ∀ e ∈ [old, newer], e.Sized := by
    intro e he
    rcases List.mem_pair.mp he with rfl | rfl
    · rw [hold]
      exact ⟨by decide, by decide, by decide⟩
    · rw [hnewer]
      exact ⟨by decide, by decide, by decide⟩
  have hne : old.internalKey ≠ newer.internalKey := by
    rw [hold, hnewer]
    decide
  obtain ⟨m, sorted, hadd, hperm, hsorted, hrun⟩ := run_addAll (c := bytewiseComparator)
    [old, newer]
    hsized (List.pairwise_pair.mpr (compare_ne_eq_of_ne hne))
  have hlist : sorted = [newer, old] := by
    rcases List.perm_pair.mp hperm with rfl | hlist
    · have hwrong := List.pairwise_pair.mp hsorted
      rw [hold, hnewer] at hwrong
      exact absurd hwrong (by decide)
    · exact hlist
  subst hlist
  obtain ⟨it, hit, -, hkey, hvalue⟩ := hrun [.seekToFirst] (some 0) (by simp [SeeksInternalKey]) rfl
  obtain ⟨it', hit', -, hkey', hvalue'⟩ := hrun [.seek (encodeInternalKey [7] 4 .kTypeValue)]
    (some 1)
    (by simp [SeeksInternalKey])
      (by simp [Cursor.run, Cursor.step, Cursor.place, hseek, List.findIdx_cons])
  rw [hold, hnewer] at *
  exact ⟨m, it, it', hadd, hit, hkey, hvalue, hit', hkey', hvalue'⟩

end MemTableIterator

end Squirrel
