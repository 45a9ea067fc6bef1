import Mathlib.Data.Finmap
import Mathlib.Data.List.Forall2
import Squirrel.Util.CacheTable

/-!
# The hash table is a finite map

Runs of a `HandleTable` by itself, from its constructor on: any calls of `Lookup`, `Insert` and
`Remove`, with the handles of a heap that holds still. The hash is a function of the key and nothing
else is known of it, so all keys may collide.

A table represents a finite map from keys to handles if its buckets are chains which together hold
each handle of the map once, and if its numbers are right. Every call represents the call on the
map, and returns what that returns. Inserting a handle that is in the table already is a call like
any other: it replaces itself.

## Main results

* `Refines.call` — what one call preserves
* `refines_finmap` — runs of the table are runs of the map, and resizing the table represents the
  same map
-/

namespace Squirrel

namespace HandleTable

open LRUCache
  (Slot Rehash Accessible Buckets bucketOf slotAfter and_mask_lt filter_lt_succ_perm load
  store newLengthLoop rehashChain tableInsert tableRemove)
open Function (update)

/-! ### Runs -/

/-- A call, with the handle or the key it is made for. -/
inductive Call
  | lookup (key : Bytes)
  | insert (h : ℕ)
  | remove (key : Bytes)
  deriving DecidableEq

/-- The constructor. -/
def construct (heap : LRUCache) : Option LRUCache :=
  ({ heap with list := [], elems := 0 } : LRUCache).resize

/-- A call on the table; the caller passes the hash of the key. -/
def call (hash : Bytes → ℕ) (c : LRUCache) : Call → Option (Option ℕ × LRUCache)
  | .lookup key => do some (← c.tableLookup key (hash key), c)
  | .insert h => c.tableInsert h
  | .remove key => c.tableRemove key (hash key)

/-- Some calls, and what they return. -/
def run (hash : Bytes → ℕ) (c : LRUCache) : List Call → Option (List (Option ℕ) × LRUCache)
  | [] => some ([], c)
  | x :: calls => do
    let (result, c) ← call hash c x
    let (results, c) ← run hash c calls
    some (result :: results, c)

/-- The map from keys to handles. -/
abbrev Map : Type := Finmap fun _ : Bytes => ℕ

/-- A call on the map. `Insert` and `Remove` return what was there before. -/
def Map.call (entry : ℕ → LRUEntry) (m : Map) : Call → Option ℕ × Map
  | .lookup key => (m.lookup key, m)
  | .insert h => (m.lookup (entry h).key, m.insert (entry h).key h)
  | .remove key => (m.lookup key, m.erase key)

/-- Some calls on the map, and what they return. -/
def Map.run (entry : ℕ → LRUEntry) (m : Map) : List Call → List (Option ℕ) × Map
  | [] => ([], m)
  | x :: calls =>
    let (result, m) := Map.call entry m x
    let (results, m) := Map.run entry m calls
    (result :: results, m)

/-- A handle that may be passed to `Insert`: it has been allocated, its key is in place, and its
hash is that of its key. -/
structure Handle (hash : Bytes → ℕ) (heap : LRUCache) (h : ℕ) : Prop where
  allocated : h < heap.fresh
  live : heap.live h = true
  next : heap.next h ≠ h
  hash : (heap.entry h).hash = hash (heap.entry h).key

/-- The table represents the map: the numbers are right, and following the links from all the
buckets meets each handle of the map once, and nothing else. -/
structure Represents (m : Map) (c : LRUCache) : Prop where
  elems : c.elems = m.keys.card
  length : ∃ k, c.list.length = 2 ^ k
  room : c.elems ≤ c.list.length
  reachable : ∃ chains, List.Forall₂ (Path c.nextHash) c.list chains ∧ chains.flatten.Nodup ∧
    ∀ e, e ∈ chains.flatten ↔ ∃ k, m.lookup k = some e

variable {hash : Bytes → ℕ} {heap c c' : LRUCache} {m : Map} {order : List ℕ} {r : Option ℕ}

/-! ### The length of the table -/

/-- `new_length` is large enough when its loop ends. -/
theorem newLengthLoop_ge {elems fuel n n' : ℕ} (h : newLengthLoop elems fuel n = some n') :
    elems ≤ n' := by
  induction fuel generalizing n with
  | zero => cases h
  | succ fuel ih =>
    rw [newLengthLoop] at h
    split at h
    · exact ih h
    · cases h
      omega

theorem length_rehashChain {fuel : ℕ} {st st' : Rehash} {p : Option ℕ}
    (h : c.rehashChain fuel st p = some st') : st'.newList.length = st.newList.length := by
  induction fuel generalizing st p with
  | zero =>
    cases p with
    | none => cases h; rfl
    | some e => cases h
  | succ fuel ih =>
    cases p with
    | none => cases h; rfl
    | some e =>
      rw [rehashChain] at h
      split at h
      · cases h
      · exact (ih h).trans List.length_set

theorem length_rehash {l : List ℕ} {st st' : Rehash}
    (h : l.foldlM (fun st i => c.rehashChain c.fresh st (c.list.getD i none)) st = some st') :
    st'.newList.length = st.newList.length := by
  induction l generalizing st with
  | nil => cases h; rfl
  | cons i l ih =>
    rw [List.foldlM_cons, Option.bind_eq_bind, Option.bind_eq_some_iff] at h
    obtain ⟨st₁, hfirst, hrest⟩ := h
    exact (ih hrest).trans (length_rehashChain hfirst)

/-- After `Resize` there is a bucket for each entry. -/
theorem resize_room (h : c.resize = some c') : c'.elems ≤ c'.list.length := by
  rw [LRUCache.resize, Option.bind_eq_bind, Option.bind_eq_some_iff] at h
  obtain ⟨n, hn, h⟩ := h
  rw [Option.bind_eq_bind, Option.bind_eq_some_iff] at h
  obtain ⟨st, hst, h⟩ := h
  split at h
  · cases h
    calc c.elems ≤ n := newLengthLoop_ge hn
      _ = st.newList.length := by rw [length_rehash hst, List.length_replicate]
  · cases h

theorem length_store (c : LRUCache) (p : Option ℕ) (ptr : Slot) :
    (c.store p ptr).list.length = c.list.length ∧ (c.store p ptr).elems = c.elems := by
  cases ptr with
  | bucket i => exact ⟨List.length_set, rfl⟩
  | nextHash e => exact ⟨rfl, rfl⟩

/-- `Insert` resizes when there are more entries than buckets. -/
theorem tableInsert_room {h : ℕ} (hroom : c.elems ≤ c.list.length)
    (hrun : c.tableInsert h = some (r, c')) :
    c'.elems ≤ c'.list.length := by
  rw [tableInsert, Option.bind_eq_bind, Option.bind_eq_some_iff] at hrun
  obtain ⟨key, -, hrun⟩ := hrun
  rw [Option.bind_eq_bind, Option.bind_eq_some_iff] at hrun
  obtain ⟨ptr, -, hrun⟩ := hrun
  dsimp only at hrun
  split at hrun
  · split at hrun
    · rw [Option.bind_eq_bind, Option.bind_eq_some_iff] at hrun
      obtain ⟨c₁, hresize, hrun⟩ := hrun
      cases hrun
      exact resize_room hresize
    · rename_i hle
      cases hrun
      exact Nat.le_of_not_lt hle
  · cases hrun
    obtain ⟨hlength, helems⟩ := length_store
      ({ c with nextHash := update c.nextHash h ((c.load ptr).bind c.nextHash) } : LRUCache)
        (some h) ptr
    rw [hlength, helems]
    exact hroom

/-- `Remove` keeps the buckets. -/
theorem length_tableRemove {key : Bytes} {h : ℕ} (hrun : c.tableRemove key h = some (r, c')) :
    c'.list.length = c.list.length := by
  rw [tableRemove, Option.bind_eq_bind, Option.bind_eq_some_iff] at hrun
  obtain ⟨ptr, -, hrun⟩ := hrun
  split at hrun
  · cases hrun
    rfl
  · rename_i result _
    simp only [Option.some.injEq, Prod.mk.injEq] at hrun
    have hlength := (length_store c (c.nextHash result) ptr).1
    rw [← hrun.2, ← hlength]

/-! ### A handle that is in the table -/

theorem store_load (c : LRUCache) (ptr : Slot) : c.store (c.load ptr) ptr = c := by
  cases ptr with
  | bucket i =>
    have hset : c.list.set i (c.list.getD i none) = c.list := by
      by_cases hi : i < c.list.length
      · rw [List.getD_eq_getElem _ _ hi, List.set_getElem_self]
      · exact List.set_eq_of_length_le (Nat.le_of_not_lt hi)
    rw [store, load, hset]
  | nextHash e => rw [store, load, Function.update_eq_self]

/-- Inserting a handle that is in the table replaces it by itself. -/
theorem tableInsert_self (h : LRUCache.Table hash c order) (hacc : Accessible c order)
    (hfuel : order.length ≤ c.fresh) {e : ℕ} (he : e ∈ order) :
    c.tableInsert e = some (some e, c) := by
  have hkey : c.key e = some (c.entry e).key := hacc.key_eq he
  obtain ⟨i, pre, post, -, hi, hfind, hload, -, -, hsome, hnone⟩ :=
    h.findPointer_spec hacc hfuel (c.entry e).key
  have hhead : post.head? = some e := by
    cases post with
    | nil => exact absurd rfl (hnone rfl e he)
    | cons a post =>
      obtain ⟨ha, hakey⟩ := hsome a rfl
      rw [List.head?_cons, h.eq_of_key ha he hakey]
  rw [hhead] at hload
  have hlink : update c.nextHash e ((some e).bind c.nextHash) = c.nextHash := by
    rw [Option.bind_some, Function.update_eq_self]
  have hstore : c.store (some e) (slotAfter (.bucket i) pre) = c := by
    rw [← hload, store_load]
  rw [tableInsert, hkey, Option.bind_eq_bind, Option.bind_some, h.hashes e he, hfind,
    Option.bind_eq_bind, Option.bind_some]
  dsimp only
  rw [hload, hlink]
  simp [hstore]

/-! ### The chains -/

/-- The buckets of a table are chains that together hold its entries. -/
theorem exists_chains (h : LRUCache.Table hash c order) :
    ∃ chains, List.Forall₂ (Path c.nextHash) c.list chains ∧ chains.flatten.Perm order := by
  obtain ⟨k, -, -, hk⟩ := h.size
  have htake : ∀ n ≤ c.list.length, ∃ chains, List.Forall₂ (Path c.nextHash)
    (c.list.take n) chains ∧
      chains.flatten.Perm
        (order.filter fun e => (c.entry e).hash &&& (c.list.length - 1) < n) := by
    intro n hn
    induction n with
    | zero => exact ⟨[], by simp, by simp⟩
    | succ n ih =>
      obtain ⟨chains, hchains, hperm⟩ := ih (by omega)
      obtain ⟨chain, hpath, hchain⟩ := h.buckets n hn
      refine ⟨chains ++ [chain], ?_, ?_⟩
      · rw [List.take_succ_eq_append_getElem hn]
        rw [List.getD_eq_getElem _ _ hn] at hpath
        exact List.rel_append hchains (.cons hpath .nil)
      · rw [List.flatten_append, List.flatten_singleton]
        refine (List.perm_append_comm.trans (hchain.append hperm)).trans ?_
        exact (filter_lt_succ_perm (fun e => (c.entry e).hash &&& (c.list.length - 1)) n order).symm
  obtain ⟨chains, hchains, hperm⟩ := htake c.list.length le_rfl
  rw [List.take_length] at hchains
  refine ⟨chains, hchains, hperm.trans (List.Perm.of_eq (List.filter_eq_self.mpr fun e _ => ?_))⟩
  exact decide_eq_true (and_mask_lt hk _)

/-! ### The simulation -/

/-- The table has the entries of `order`, and these are what is in the map. -/
structure Refines (hash : Bytes → ℕ) (heap : LRUCache) (m : Map) (c : LRUCache) (order : List ℕ) :
    Prop where
  table : LRUCache.Table hash c order
  room : c.elems ≤ c.list.length
  entry : c.entry = heap.entry
  live : c.live = heap.live
  next : c.next = heap.next
  fresh : c.fresh = heap.fresh
  handles : ∀ e ∈ order, Handle hash heap e
  lookup : ∀ k e, m.lookup k = some e ↔ e ∈ order ∧ (heap.entry e).key = k

/-- There are no more handles than have been allocated. -/
theorem length_handles_le {l : List ℕ} {n : ℕ} (hl : l.Nodup) (hlt : ∀ e ∈ l, e < n) :
    l.length ≤ n := by
  have hsub : l ⊆ List.range n := fun e he => List.mem_range.mpr (hlt e he)
  simpa using (hl.subperm hsub).length_le

namespace Refines

theorem accessible (h : Refines hash heap m c order) : Accessible c order := by
  intro e he
  rw [h.live, h.next]
  exact ⟨(h.handles e he).live, (h.handles e he).next⟩

theorem length_le (h : Refines hash heap m c order) : order.length ≤ c.fresh := by
  rw [h.fresh]
  exact length_handles_le h.table.nodup fun e he => (h.handles e he).allocated

theorem keys_eq (h : Refines hash heap m c order) :
    m.keys = (order.map fun e => (c.entry e).key).toFinset := by
  ext k
  rw [Finmap.mem_keys, Finmap.mem_iff, List.mem_toFinset, List.mem_map, h.entry]
  exact exists_congr fun e => h.lookup k e

theorem card_keys (h : Refines hash heap m c order) : m.keys.card = order.length := by
  rw [h.keys_eq, List.toFinset_card_of_nodup h.table.keys, List.length_map]

theorem represents (h : Refines hash heap m c order) : Represents m c where
  elems := h.table.elems.trans h.card_keys.symm
  length := by
    obtain ⟨k, -, -, hk⟩ := h.table.size
    exact ⟨k, hk⟩
  room := h.room
  reachable := by
    obtain ⟨chains, hchains, hperm⟩ := exists_chains h.table
    refine ⟨chains, hchains, hperm.nodup_iff.mpr h.table.nodup, fun e => ?_⟩
    rw [hperm.mem_iff]
    constructor
    · intro he
      exact ⟨_, (h.lookup _ e).mpr ⟨he, rfl⟩⟩
    · rintro ⟨k, hk⟩
      exact ((h.lookup k e).mp hk).1

/-- What a search returns is what is in the map. -/
theorem lookup_eq (h : Refines hash heap m c order) {k : Bytes}
    (hsome : ∀ e, r = some e → e ∈ order ∧ (c.entry e).key = k)
    (hnone : r = none → ∀ e ∈ order, (c.entry e).key ≠ k) : m.lookup k = r := by
  rw [h.entry] at hsome hnone
  cases r with
  | some e => exact (h.lookup k e).mpr (hsome e rfl)
  | none =>
    rw [Option.eq_none_iff_forall_ne_some]
    intro e he
    obtain ⟨hmem, hkey⟩ := (h.lookup k e).mp he
    exact hnone rfl e hmem hkey

/-- Without one entry, the others are those with other keys. -/
theorem mem_rest (h : LRUCache.Table hash c order) {e a : ℕ} {rest : List ℕ}
    (hperm : order.Perm (e :: rest)) :
    a ∈ rest ↔ a ∈ order ∧ (c.entry a).key ≠ (c.entry e).key := by
  obtain ⟨he, -⟩ := List.nodup_cons.mp (hperm.nodup_iff.mp h.nodup)
  constructor
  · intro ha
    have hmem : a ∈ order := hperm.symm.subset (List.mem_cons_of_mem e ha)
    refine ⟨hmem, fun hkey => he ?_⟩
    rwa [← h.eq_of_key hmem (hperm.symm.subset List.mem_cons_self) hkey]
  · rintro ⟨ha, hkey⟩
    rcases List.mem_cons.mp (hperm.subset ha) with rfl | ha
    · exact absurd rfl hkey
    · exact ha

theorem lookup_insert (h : Refines hash heap m c order) {e : ℕ} {order' : List ℕ}
    (hmem : ∀ a, a ∈ order' ↔ a = e ∨ a ∈ order ∧ (heap.entry a).key ≠ (heap.entry e).key)
    (k : Bytes) (a : ℕ) :
    (m.insert (heap.entry e).key e).lookup k = some a ↔ a ∈ order' ∧ (heap.entry a).key = k := by
  rw [hmem]
  by_cases hk : k = (heap.entry e).key
  · subst hk
    rw [Finmap.lookup_insert, Option.some.injEq]
    constructor
    · rintro rfl
      exact ⟨.inl rfl, rfl⟩
    · rintro ⟨rfl | ⟨-, hne⟩, hkey⟩
      · rfl
      · exact absurd hkey hne
  · rw [Finmap.lookup_insert_of_ne m hk, h.lookup]
    constructor
    · rintro ⟨ha, rfl⟩
      exact ⟨.inr ⟨ha, hk⟩, rfl⟩
    · rintro ⟨rfl | ⟨ha, -⟩, hkey⟩
      · exact absurd hkey.symm hk
      · exact ⟨ha, hkey⟩

theorem lookup_erase (h : Refines hash heap m c order) {key : Bytes} {rest : List ℕ}
    (hmem : ∀ a, a ∈ rest ↔ a ∈ order ∧ (heap.entry a).key ≠ key) (k : Bytes) (a : ℕ) :
    (m.erase key).lookup k = some a ↔ a ∈ rest ∧ (heap.entry a).key = k := by
  rw [hmem]
  by_cases hk : k = key
  · subst hk
    rw [Finmap.lookup_erase]
    constructor
    · intro hnone
      cases hnone
    · rintro ⟨⟨-, hne⟩, hkey⟩
      exact absurd hkey hne
  · rw [Finmap.lookup_erase_ne hk, h.lookup]
    constructor
    · rintro ⟨ha, rfl⟩
      exact ⟨⟨ha, hk⟩, rfl⟩
    · rintro ⟨⟨ha, -⟩, hkey⟩
      exact ⟨ha, hkey⟩

theorem call_lookup (h : Refines hash heap m c order) (key : Bytes) :
    HandleTable.call hash c (.lookup key) = some (m.lookup key, c) := by
  obtain ⟨r, hrun, hsome, hnone⟩ := h.table.lookup h.accessible h.length_le key
  rw [HandleTable.call, hrun, h.lookup_eq hsome hnone]
  rfl

theorem call_remove (h : Refines hash heap m c order) (key : Bytes) :
    ∃ c' order', HandleTable.call hash c (.remove key) = some (m.lookup key, c') ∧
      Refines hash heap (m.erase key) c' order' := by
  rcases h.table.remove h.accessible h.length_le key with
    ⟨e, rest, list', nextHash', hperm, hkey, hrun, htable⟩ | ⟨hrun, hnone⟩
  · have he : e ∈ order := hperm.symm.subset List.mem_cons_self
    have hlookup : m.lookup key = some e := (h.lookup key e).mpr ⟨he, h.entry ▸ hkey⟩
    have hmem : ∀ a, a ∈ rest ↔ a ∈ order ∧ (heap.entry a).key ≠ key := by
      intro a
      rw [← hkey, ← h.entry]
      exact mem_rest h.table hperm
    have hroom : rest.length ≤ list'.length := by
      have hlength : list'.length = c.list.length := length_tableRemove hrun
      have hroom := h.room
      have helems := h.table.elems
      have hcons := hperm.length_eq
      rw [List.length_cons] at hcons
      omega
    refine ⟨_, rest,
      by rw [HandleTable.call, hrun,
        hlookup], htable, hroom, h.entry, h.live, h.next, h.fresh, fun a ha =>
          h.handles a ((hmem a).mp ha).1, h.lookup_erase hmem⟩
  · have hlookup : m.lookup key = none := h.lookup_eq (r := none) (by simp) fun _ => hnone
    have herase : m.erase key = m := by
      refine Finmap.ext_lookup fun k => ?_
      by_cases hk : k = key
      · rw [hk, Finmap.lookup_erase, hlookup]
      · exact Finmap.lookup_erase_ne hk
    refine ⟨c, order, by rw [HandleTable.call, hrun, hlookup], ?_⟩
    rwa [herase]

theorem call_insert (h : Refines hash heap m c order) {e : ℕ} (he : Handle hash heap e)
    (hfew : m.keys.card < 2 ^ 31) :
    ∃ c' order', HandleTable.call hash c (.insert e) = some (m.lookup (heap.entry e).key, c') ∧
      Refines hash heap (m.insert (heap.entry e).key e) c' order' := by
  by_cases hin : e ∈ order
  · -- The handle replaces itself.
    have hlookup : m.lookup (heap.entry e).key = some e := (h.lookup _ e).mpr ⟨hin, rfl⟩
    have hinsert : m.insert (heap.entry e).key e = m := by
      refine Finmap.ext_lookup fun k => ?_
      by_cases hk : k = (heap.entry e).key
      · rw [hk, Finmap.lookup_insert, hlookup]
      · exact Finmap.lookup_insert_of_ne m hk
    refine ⟨c, order, ?_, by rwa [hinsert]⟩
    rw [HandleTable.call, tableInsert_self h.table h.accessible h.length_le hin, hlookup]
  · have hacc : Accessible c (e :: order) := by
      rintro a ha
      rcases List.mem_cons.mp ha with rfl | ha
      · exact ⟨h.live ▸ he.live, h.next ▸ he.next⟩
      · exact h.accessible a ha
    have hfuel : (e :: order).length ≤ c.fresh := by
      rw [h.fresh]
      refine length_handles_le (List.nodup_cons.mpr ⟨hin, h.table.nodup⟩) fun a ha => ?_
      rcases List.mem_cons.mp ha with rfl | ha
      · exact he.allocated
      · exact (h.handles a ha).allocated
    have hhash : (c.entry e).hash = hash (c.entry e).key := h.entry ▸ he.hash
    have hlength : order.length < 2 ^ 31 := h.card_keys ▸ hfew
    rcases h.table.insert hacc hfuel hin hhash hlength with
      ⟨old, rest, list', nextHash', hperm, hkey, hrun, htable⟩ |
      ⟨list', nextHash', hnew, hrun, htable⟩
    · have hold : old ∈ order := hperm.symm.subset List.mem_cons_self
      have hlookup : m.lookup (heap.entry e).key = some old :=
        (h.lookup _ old).mpr ⟨hold, h.entry ▸ hkey⟩
      have hmem : ∀ a, a ∈ e :: rest ↔
          a = e ∨ a ∈ order ∧ (heap.entry a).key ≠ (heap.entry e).key := by
        intro a
        rw [List.mem_cons, mem_rest h.table hperm, hkey, h.entry]
      refine ⟨_, e :: rest, by rw [HandleTable.call, hrun, hlookup], htable,
        tableInsert_room h.room hrun, h.entry, h.live, h.next, h.fresh, fun a ha => ?_,
        h.lookup_insert hmem⟩
      rcases (hmem a).mp ha with rfl | ⟨ha, -⟩
      · exact he
      · exact h.handles a ha
    · rw [h.entry] at hnew
      have hlookup : m.lookup (heap.entry e).key = none :=
        h.lookup_eq (r := none) (by simp) fun _ => h.entry ▸ hnew
      have hmem : ∀ a, a ∈ e :: order ↔
          a = e ∨ a ∈ order ∧ (heap.entry a).key ≠ (heap.entry e).key := by
        intro a
        rw [List.mem_cons]
        exact or_congr_right ⟨fun ha => ⟨ha, hnew a ha⟩, And.left⟩
      refine ⟨_, e :: order, by rw [HandleTable.call, hrun, hlookup], htable,
        tableInsert_room h.room hrun, h.entry, h.live, h.next, h.fresh, fun a ha => ?_,
        h.lookup_insert hmem⟩
      rcases (hmem a).mp ha with rfl | ⟨ha, -⟩
      · exact he
      · exact h.handles a ha

/-- **A call on the table is the call on the map.** -/
theorem call (h : Refines hash heap m c order) (x : Call)
    (hx : ∀ e, x = .insert e → Handle hash heap e) (hfew : m.keys.card < 2 ^ 31) :
    ∃ c' order', HandleTable.call hash c x = some ((Map.call heap.entry m x).1, c') ∧
      Refines hash heap (Map.call heap.entry m x).2 c' order' := by
  cases x with
  | lookup key => exact ⟨c, order, h.call_lookup key, h⟩
  | insert e => exact h.call_insert (hx e rfl) hfew
  | remove key => exact h.call_remove key

end Refines

/-- The constructor makes the empty map. -/
theorem construct_refines (hash : Bytes → ℕ) (heap : LRUCache) :
    ∃ c, construct heap = some c ∧ Refines hash heap ∅ c [] := by
  refine ⟨{ heap with list := List.replicate 4 none, elems := 0 }, rfl, ?_⟩
  have hbuckets : Buckets (fun e => (heap.entry e).hash) heap.nextHash (List.replicate 4 none)
      [] := by
    intro i hi
    refine ⟨[], ?_, by simp [bucketOf]⟩
    rw [List.length_replicate] at hi
    rw [List.getD_replicate none hi]
    rfl
  constructor
  case table =>
    exact ⟨hbuckets, ⟨2, by decide, by decide, rfl⟩, rfl, List.nodup_nil, by simp, by decide⟩
  case room => exact Nat.zero_le _
  case lookup => simp
  all_goals simp

/-- `Resize` changes the chains and not the map. -/
theorem Refines.resize (h : Refines hash heap m c order) :
    ∃ c', c.resize = some c' ∧ Refines hash heap m c' order := by
  obtain ⟨list', nextHash', hrun, htable⟩ := h.table.resize h.accessible h.length_le
  exact ⟨_, hrun, htable, resize_room hrun, h.entry, h.live, h.next, h.fresh, h.handles, h.lookup⟩

theorem Refines.run (h : Refines hash heap m c order) (calls : List Call)
    (hcalls : ∀ e, .insert e ∈ calls → Handle hash heap e)
    (hfew : ∀ before, before <+: calls → (Map.run heap.entry m before).2.keys.card < 2 ^ 31) :
    ∃ c' order', HandleTable.run hash c calls = some ((Map.run heap.entry m calls).1, c') ∧
      Refines hash heap (Map.run heap.entry m calls).2 c' order' := by
  induction calls generalizing m c order with
  | nil => exact ⟨c, order, rfl, h⟩
  | cons x calls ih =>
    obtain ⟨c₁, order₁, hcall, hfirst⟩ := h.call x
      (fun e hx => hcalls e (hx ▸ List.mem_cons_self)) (hfew [] List.nil_prefix)
    obtain ⟨c', order', hrun, hrest⟩ := ih hfirst
      (fun e he => hcalls e (List.mem_cons_of_mem x he))
      fun before hbefore => hfew (x :: before) ((List.prefix_cons_inj x).mpr hbefore)
    refine ⟨c', order', ?_, hrest⟩
    rw [HandleTable.run, hcall, Option.bind_eq_bind, Option.bind_some]
    dsimp only
    rw [hrun]
    rfl

/-- **The hash table refines a finite map.** From its constructor on, whatever the hashes of the
keys are, the calls return what the calls on the map return; the table that comes out represents the
map that comes out; and it still does after one more `Resize`. -/
theorem refines_finmap (hash : Bytes → ℕ) (heap : LRUCache) (calls : List Call)
    (hcalls : ∀ e, .insert e ∈ calls → Handle hash heap e)
    (hfew : ∀ before, before <+: calls → (Map.run heap.entry ∅ before).2.keys.card < 2 ^ 31) :
    ∃ c₀ c c', construct heap = some c₀ ∧
      run hash c₀ calls = some ((Map.run heap.entry ∅ calls).1, c) ∧
      Represents (Map.run heap.entry ∅ calls).2 c ∧
      c.resize = some c' ∧ Represents (Map.run heap.entry ∅ calls).2 c' := by
  obtain ⟨c₀, hconstruct, hempty⟩ := construct_refines hash heap
  obtain ⟨c, order, hrun, hrefines⟩ := hempty.run calls hcalls hfew
  obtain ⟨c', hresize, hrefines'⟩ := hrefines.resize
  exact ⟨c₀, c, c', hconstruct, hrun, hrefines.represents, hresize, hrefines'.represents⟩

/-- Six handles for five keys, the first and the last one for the same key. -/
def sixHandles : LRUCache :=
  { LRUCache.new 8 with
    entry := fun e => ⟨e, 0, 1, [if e = 6 then 1 else UInt8.ofNat e], 0⟩
    live := fun _ => true
    fresh := 7 }

/-- All keys collide. The fifth handle resizes the table, and the sixth one replaces the first. -/
theorem refines_finmap_six :
    ∃ c₀ c, construct sixHandles = some c₀ ∧
      run (fun _ => 0) c₀ [.insert 1, .insert 2, .insert 3, .insert 4, .insert 5, .insert 6,
        .lookup [1],
          .remove [2], .lookup [2]]
        = some ([none, none, none, none, none, some 1, some 6, some 2, none], c) ∧ c.elems = 4 := by
  let calls : List Call :=
    [.insert 1, .insert 2, .insert 3, .insert 4, .insert 5, .insert 6, .lookup [1], .remove [2],
      .lookup [2]]
  have hcalls : ∀ e, Call.insert e ∈ calls → Handle (fun _ => 0) sixHandles e := by
    intro e he
    have hle : 1 ≤ e ∧ e ≤ 6 := by
      simp [calls] at he
      omega
    exact ⟨Nat.lt_succ_of_le hle.2, rfl, Nat.ne_of_lt hle.1, rfl⟩
  have hfew : ∀ before ∈ calls.inits,
      (Map.run sixHandles.entry ∅ before).2.keys.card < 2 ^ 31 := by decide +kernel
  obtain ⟨c₀, c, -, hconstruct, hrun, hrepresents, -⟩ :=
    refines_finmap (fun _ => 0) sixHandles calls hcalls
    fun before hbefore => hfew before (List.mem_inits before calls |>.mpr hbefore)
  exact ⟨c₀, c, hconstruct, hrun, hrepresents.elems⟩

end HandleTable

end Squirrel
