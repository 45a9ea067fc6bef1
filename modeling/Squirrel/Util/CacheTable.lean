import Squirrel.Lib.LinkedList
import Squirrel.Util.Cache
import Mathlib.Data.List.Perm.Lattice
import Mathlib.Data.List.Sort

/-!
# The hash table of the cache

Each bucket is a linked list of the entries whose hash leads to it, in some order. Everything the
table does is one write to a slot of one bucket, so there is one lemma about such writes, and
inserting, replacing and removing are cases of it. Growing the table moves the handles one by one.

## Main results

* `Table.lookup`, `Table.insert_new`, `Table.insert_old`, `Table.remove`
* `Table.resize` — the table after growing
-/

namespace Squirrel

namespace LRUCache

open Function (update)

variable {c : LRUCache} {hash : Bytes → ℕ} {order rest l pre post post' : List ℕ} {e h i : ℕ}
  {hashOf : ℕ → ℕ} {nextHash : ℕ → Option ℕ} {list : List (Option ℕ)} {p q : Option ℕ}

/-! ### Buckets -/

/-- The entries of a list that belong into bucket `i` of `n`. -/
def bucketOf (hashOf : ℕ → ℕ) (n i : ℕ) (order : List ℕ) : List ℕ :=
  order.filter fun e => hashOf e &&& (n - 1) = i

/-- Each bucket is a linked list of the entries that belong into it. -/
def Buckets (hashOf : ℕ → ℕ) (nextHash : ℕ → Option ℕ) (list : List (Option ℕ))
    (order : List ℕ) : Prop :=
  ∀ i < list.length, ∃ chain, Path nextHash (list.getD i none) chain ∧
    chain.Perm (bucketOf hashOf list.length i order)

theorem bucketOf_cons_self (hashOf : ℕ → ℕ) (n e : ℕ) (order : List ℕ) :
    bucketOf hashOf n (hashOf e &&& (n - 1)) (e :: order)
      = e :: bucketOf hashOf n (hashOf e &&& (n - 1)) order :=
  List.filter_cons_of_pos (by simp)

theorem bucketOf_cons_of_ne {n : ℕ} (h : hashOf e &&& (n - 1) ≠ i) (order : List ℕ) :
    bucketOf hashOf n i (e :: order) = bucketOf hashOf n i order :=
  List.filter_cons_of_neg (by simpa using h)

theorem mem_bucketOf {n : ℕ} : e ∈ bucketOf hashOf n i order ↔
    e ∈ order ∧ hashOf e &&& (n - 1) = i := by
  simp [bucketOf]

theorem bucketOf_perm {n : ℕ} {order' : List ℕ} (h : order.Perm order') :
    (bucketOf hashOf n i order).Perm (bucketOf hashOf n i order') := h.filter _

theorem Buckets.perm {order' : List ℕ} (h : Buckets hashOf nextHash list order)
    (hperm : order.Perm order') : Buckets hashOf nextHash list order' := by
  intro i hi
  obtain ⟨chain, hpath, hchain⟩ := h i hi
  exact ⟨chain, hpath, hchain.trans (bucketOf_perm hperm)⟩

/-- With a power of two of buckets, the mask gives a bucket. -/
theorem and_mask_lt {n k : ℕ} (hn : n = 2 ^ k) (x : ℕ) : x &&& (n - 1) < n := by
  rw [hn, Nat.and_two_pow_sub_one_eq_mod]
  exact Nat.mod_lt _ (Nat.two_pow_pos k)

theorem getD_set_self (hi : i < list.length) (q : Option ℕ) : (list.set i q).getD i none = q := by
  rw [List.getD_eq_getElem?_getD, List.getElem?_set_self hi, Option.getD_some]

theorem getD_set_ne {j : ℕ} (hj : j ≠ i) (q : Option ℕ) :
    (list.set i q).getD j none = list.getD j none := by
  rw [List.getD_eq_getElem?_getD, List.getElem?_set_ne (Ne.symm hj), ← List.getD_eq_getElem?_getD]

/-! ### Slots -/

/-- The slot reached from `ptr` over the entries of a list. -/
def slotAfter : Slot → List ℕ → Slot
  | ptr, [] => ptr
  | _, e :: l => slotAfter (.nextHash e) l

theorem slotAfter_concat (ptr : Slot) (pre : List ℕ) (e : ℕ) :
    slotAfter ptr (pre ++ [e]) = .nextHash e := by
  induction pre generalizing ptr with
  | nil => rfl
  | cons a pre ih => exact ih (.nextHash a)

/-- A write to a slot of bucket `i` replaces what is behind the slot and leaves other lists
alone. -/
theorem store_slotAfter (hi : i < c.list.length)
    (hpath : Path c.nextHash (c.list.getD i none) (pre ++ post)) (hnodup : pre.Nodup)
    (hq : Path c.nextHash q post') (hdisj : ∀ a ∈ pre, a ∉ post') :
    ∃ list' nextHash', c.store q (slotAfter (.bucket i) pre)
        = { c with list := list', nextHash := nextHash' } ∧
      list'.length = c.list.length ∧ Path nextHash' (list'.getD i none) (pre ++ post') ∧
      ∀ j ≠ i, ∀ l, Path c.nextHash (c.list.getD j none) l → (∀ a ∈ pre, a ∉ l) →
        Path nextHash' (list'.getD j none) l := by
  rcases List.eq_nil_or_concat' pre with rfl | ⟨pre, a, rfl⟩
  · refine ⟨c.list.set i q, c.nextHash, rfl, List.length_set, ?_, fun j hj l hl _ => ?_⟩
    · rw [getD_set_self hi]
      exact hq
    · rwa [getD_set_ne hj]
  · rw [slotAfter_concat]
    refine ⟨c.list, update c.nextHash a q, rfl, rfl, ?_, fun j _ l hl hnot => ?_⟩
    · rw [List.append_assoc, List.singleton_append] at hpath ⊢
      have hpre : a ∉ pre := fun hmem =>
        (List.nodup_append.mp hnodup).2.2 a hmem a (List.mem_singleton_self a) rfl
      exact hpath.splice hpre hq (hdisj a (by simp))
    · exact hl.update (hnot a (by simp)) q

/-! ### Searching -/

/-- Handles a pointer may be followed to, and whose key can be read. -/
def Accessible (c : LRUCache) (l : List ℕ) : Prop := ∀ e ∈ l, c.live e = true ∧ c.next e ≠ e

theorem Accessible.key_eq (h : Accessible c l) (he : e ∈ l) : c.key e = some (c.entry e).key := by
  simp [key, h e he]

/-- The entry a search is for. -/
def Matches (c : LRUCache) (k : Bytes) (h e : ℕ) : Prop :=
  (c.entry e).hash = h ∧ (c.entry e).key = k

/-- A search stops at the first entry that matches, or at the end of the list. -/
theorem findPointerLoop_spec (k : Bytes) (h fuel : ℕ) (ptr : Slot)
    (hpath : Path c.nextHash (c.load ptr) l) (hacc : Accessible c l) (hfuel : l.length < fuel) :
    ∃ pre post, l = pre ++ post ∧ c.findPointerLoop k h fuel ptr = some (slotAfter ptr pre) ∧
      c.load (slotAfter ptr pre) = post.head? ∧ (∀ e ∈ pre, ¬ c.Matches k h e) ∧
      ∀ e, post.head? = some e → c.Matches k h e := by
  induction l generalizing fuel ptr with
  | nil =>
    obtain ⟨fuel, rfl⟩ := Nat.exists_eq_add_of_lt hfuel
    have hload : c.load ptr = none := hpath
    exact ⟨[], [], rfl, by simp [findPointerLoop, hload, slotAfter], hload, by simp, by simp⟩
  | cons e l ih =>
    obtain ⟨fuel, rfl⟩ : ∃ n, fuel = n + 1 := ⟨fuel - 1, by omega⟩
    obtain ⟨hload, htail⟩ := hpath
    have hlive := (hacc e List.mem_cons_self).1
    have hkey := hacc.key_eq List.mem_cons_self
    by_cases hmatch : c.Matches k h e
    · refine ⟨[], e :: l, rfl, ?_, hload, by simp, ?_⟩
      · simp [findPointerLoop, hload, hlive, hkey, hmatch.1, hmatch.2, slotAfter]
      · rintro a ha
        obtain rfl : e = a := by simpa using ha
        exact hmatch
    · obtain ⟨pre, post, rfl, hfind, hhead, hpre, hpost⟩ := ih fuel (.nextHash e) htail
        (fun a ha => hacc a (List.mem_cons_of_mem e ha))
        (by rw [List.length_cons] at hfuel; omega)
      refine ⟨e :: pre, post, rfl, ?_, hhead, ?_, hpost⟩
      · by_cases hh : (c.entry e).hash = h
        · have hk : k ≠ (c.entry e).key := fun heq => hmatch ⟨hh, heq.symm⟩
          simpa [findPointerLoop, hload, hkey, hlive, hh, hk, slotAfter] using hfind
        · simpa [findPointerLoop, hload, hlive, hh, slotAfter] using hfind
      · intro a ha
        rcases List.mem_cons.mp ha with rfl | ha
        · exact hmatch
        · exact hpre a ha

/-! ### The table -/

/-- The table holds the entries of `order`, with distinct keys. -/
structure Table (hash : Bytes → ℕ) (c : LRUCache) (order : List ℕ) : Prop where
  buckets : Buckets (fun e => (c.entry e).hash) c.nextHash c.list order
  size : ∃ k, 2 ≤ k ∧ k ≤ 31 ∧ c.list.length = 2 ^ k
  elems : c.elems = order.length
  keys : (order.map fun e => (c.entry e).key).Nodup
  hashes : ∀ e ∈ order, (c.entry e).hash = hash (c.entry e).key
  few : order.length ≤ 2 ^ 31

namespace Table

theorem nodup (h : Table hash c order) : order.Nodup := h.keys.of_map _

theorem perm {order' : List ℕ} (h : Table hash c order) (hperm : order.Perm order') :
    Table hash c order' where
  buckets := h.buckets.perm hperm
  size := h.size
  elems := h.elems.trans hperm.length_eq
  keys := (hperm.map _).nodup h.keys
  hashes := fun e he => h.hashes e (hperm.symm.subset he)
  few := hperm.length_eq ▸ h.few

/-- The table does not depend on the other fields. -/
theorem congr {c' : LRUCache} (h : Table hash c order) (hentry : c'.entry = c.entry)
    (hnext : c'.nextHash = c.nextHash) (hlist : c'.list = c.list) (helems : c'.elems = c.elems) :
    Table hash c' order where
  buckets := by rw [hentry, hnext, hlist]; exact h.buckets
  size := by rw [hlist]; exact h.size
  elems := by rw [helems]; exact h.elems
  keys := by rw [hentry]; exact h.keys
  hashes := by rw [hentry]; exact h.hashes
  few := h.few

/-- The table does not depend on the entries that are not in it. -/
theorem write_entry {c' : LRUCache} (h : Table hash c order) (he : e ∉ order) (x : LRUEntry)
    (hentry : c'.entry = update c.entry e x) (hnext : c'.nextHash = c.nextHash)
    (hlist : c'.list = c.list) (helems : c'.elems = c.elems) : Table hash c' order := by
  have hsame : ∀ a ∈ order, c'.entry a = c.entry a := by
    intro a ha
    have hne : a ≠ e := by
      rintro rfl
      exact he ha
    rw [hentry, Function.update_of_ne hne]
  refine ⟨fun i hi => ?_, hlist ▸ h.size, helems.trans h.elems, ?_, fun a ha => ?_, h.few⟩
  · rw [hlist] at hi
    obtain ⟨chain, hpath, hchain⟩ := h.buckets i hi
    refine ⟨chain, by rwa [hnext, hlist], ?_⟩
    rw [hlist]
    refine hchain.trans (List.Perm.of_eq (List.filter_congr fun a ha => ?_))
    simp only [hsame a ha]
  · rw [List.map_congr_left fun a ha => congrArg LRUEntry.key (hsame a ha)]
    exact h.keys
  · rw [hsame a ha]
    exact h.hashes a ha

/-- At most one entry has a given key. -/
theorem eq_of_key (h : Table hash c order) {a b : ℕ} (ha : a ∈ order) (hb : b ∈ order)
    (hkey : (c.entry a).key = (c.entry b).key) : a = b :=
  List.inj_on_of_nodup_map h.keys ha hb hkey

/-- **`FindPointer`.** The bucket of the key is cut where the search stops: in front of the entry
with the key if there is one, else at the end. -/
theorem findPointer_spec (h : Table hash c order) (hacc : Accessible c order)
    (hfuel : order.length ≤ c.fresh) (k : Bytes) :
    ∃ i pre post, i = hash k &&& (c.list.length - 1) ∧ i < c.list.length ∧
      c.findPointer k (hash k) = some (slotAfter (.bucket i) pre) ∧
      c.load (slotAfter (.bucket i) pre) = post.head? ∧
      Path c.nextHash (c.list.getD i none) (pre ++ post) ∧
      (pre ++ post).Perm (bucketOf (fun e => (c.entry e).hash) c.list.length i order) ∧
      (∀ e, post.head? = some e → e ∈ order ∧ (c.entry e).key = k) ∧
      (post = [] → ∀ e ∈ order, (c.entry e).key ≠ k) := by
  obtain ⟨n, -, -, hn⟩ := h.size
  have hi : hash k &&& (c.list.length - 1) < c.list.length := and_mask_lt hn _
  obtain ⟨chain, hpath, hchain⟩ := h.buckets _ hi
  have hsub : ∀ e ∈ chain, e ∈ order := fun e he => (mem_bucketOf.mp (hchain.subset he)).1
  have hlen : chain.length ≤ c.fresh :=
    (hchain.length_eq.trans_le (List.length_filter_le _ _)).trans hfuel
  obtain ⟨pre, post, rfl, hfind, hhead, hpre, hpost⟩ := findPointerLoop_spec k (hash k)
    (c.fresh + 1) (.bucket (hash k &&& (c.list.length - 1))) hpath (fun e he => hacc e (hsub e he))
    (Nat.lt_succ_of_le hlen)
  refine ⟨_, pre, post, rfl, hi, hfind, hhead, hpath, hchain, ?_, ?_⟩
  · intro e he
    exact ⟨hsub e (List.mem_append_right pre (List.mem_of_mem_head? he)), (hpost e he).2⟩
  · rintro rfl e he hkey
    have hmatch : c.Matches k (hash k) e := ⟨by rw [h.hashes e he, hkey], hkey⟩
    have hmem : e ∈ pre ++ [] := hchain.symm.subset (mem_bucketOf.mpr ⟨he, by rw [hmatch.1]⟩)
    rw [List.append_nil] at hmem
    exact hpre e hmem hmatch

/-- What `Lookup` finds: the entry with the key. -/
theorem lookup (h : Table hash c order) (hacc : Accessible c order)
    (hfuel : order.length ≤ c.fresh) (k : Bytes) :
    ∃ r, c.tableLookup k (hash k) = some r ∧
      (∀ e, r = some e → e ∈ order ∧ (c.entry e).key = k) ∧
      (r = none → ∀ e ∈ order, (c.entry e).key ≠ k) := by
  obtain ⟨i, pre, post, -, -, hfind, hload, -, -, hsome, hnone⟩ := h.findPointer_spec hacc hfuel k
  refine ⟨post.head?, by simp [tableLookup, hfind, hload], hsome, fun hr => hnone ?_⟩
  exact List.head?_eq_none_iff.mp hr

end Table

/-! ### Writing -/

/-- **A write to the table.** What is behind the slot in bucket `i` is replaced; the other buckets
hold what they held. -/
theorem Buckets.store {order' : List ℕ} (h : Buckets hashOf c.nextHash c.list order)
    (hnodup : order.Nodup) (hi : i < c.list.length)
    (hpath : Path c.nextHash (c.list.getD i none) (pre ++ post))
    (hchain : (pre ++ post).Perm (bucketOf hashOf c.list.length i order))
    (hq : Path c.nextHash q post') (hdisj : ∀ a ∈ pre, a ∉ post')
    (hchain' : (pre ++ post').Perm (bucketOf hashOf c.list.length i order'))
    (hother : ∀ j ≠ i, (bucketOf hashOf c.list.length j order).Perm
      (bucketOf hashOf c.list.length j order')) :
    ∃ list' nextHash', c.store q (slotAfter (.bucket i) pre)
        = { c with list := list', nextHash := nextHash' } ∧
      list'.length = c.list.length ∧ Buckets hashOf nextHash' list' order' := by
  have hpre : pre.Nodup := (List.nodup_append.mp (hchain.nodup_iff.mpr (hnodup.filter _))).1
  obtain ⟨list', nextHash', hstore, hlen, hpath', hkeep⟩ := store_slotAfter hi hpath hpre hq hdisj
  refine ⟨list', nextHash', hstore, hlen, fun j hj => ?_⟩
  rw [hlen] at hj ⊢
  by_cases hji : j = i
  · subst hji
    exact ⟨pre ++ post', hpath', hchain'⟩
  · obtain ⟨l, hl, hlperm⟩ := h j hj
    refine ⟨l, hkeep j hji l hl fun a ha hal => hji ?_, hlperm.trans (hother j hji)⟩
    have hia := mem_bucketOf.mp (hchain.subset (List.mem_append_left post ha))
    have hja := mem_bucketOf.mp (hlperm.subset hal)
    exact hja.2.symm.trans hia.2

namespace Table

/-- **`Remove`.** The entry with the key is taken out, if there is one. -/
theorem remove (h : Table hash c order) (hacc : Accessible c order)
    (hfuel : order.length ≤ c.fresh) (k : Bytes) :
    (∃ e rest list' nextHash', order.Perm (e :: rest) ∧ (c.entry e).key = k ∧
      c.tableRemove k (hash k) = some (some e,
        { c with list := list', nextHash := nextHash', elems := rest.length }) ∧
      Table hash { c with list := list', nextHash := nextHash', elems := rest.length } rest) ∨
    c.tableRemove k (hash k) = some (none, c) ∧ ∀ e ∈ order, (c.entry e).key ≠ k := by
  obtain ⟨i, pre, post, hik, hi, hfind, hload, hpath, hchain, hsome, hnone⟩ :=
    h.findPointer_spec hacc hfuel k
  cases post with
  | nil =>
    right
    refine ⟨?_, hnone rfl⟩
    rw [tableRemove, hfind, Option.bind_eq_bind, Option.bind_some, hload]
    rfl
  | cons e post =>
    left
    obtain ⟨he, hkey⟩ := hsome e rfl
    have hperm : order.Perm (e :: order.erase e) := List.perm_cons_erase he
    have hidx : (c.entry e).hash &&& (c.list.length - 1) = i := by rw [h.hashes e he, hkey, hik]
    have hrest : (pre ++ post).Perm
        (bucketOf (fun e => (c.entry e).hash) c.list.length i (order.erase e)) := by
      have hcons := (List.perm_middle.symm.trans hchain).trans (bucketOf_perm hperm)
      rw [← hidx] at hcons ⊢
      rw [bucketOf_cons_self (fun e => (c.entry e).hash)] at hcons
      exact hcons.cons_inv
    have hdisj : ∀ a ∈ pre, a ∉ post := by
      intro a ha hpost
      have hnodup := hchain.nodup_iff.mpr (h.nodup.filter _)
      exact (List.nodup_append.mp hnodup).2.2 a ha a (List.mem_cons_of_mem e hpost) rfl
    have hother : ∀ j ≠ i, (bucketOf (fun e => (c.entry e).hash) c.list.length j order).Perm
        (bucketOf (fun e => (c.entry e).hash) c.list.length j (order.erase e)) := by
      intro j hj
      refine (bucketOf_perm hperm).trans ?_
      rw [bucketOf_cons_of_ne fun heq => hj (heq.symm.trans hidx)]
    have helems : (c.elems + 2 ^ 32 - 1) % 2 ^ 32 = (order.erase e).length := by
      have hlen := hperm.length_eq
      have hfew := h.few
      rw [List.length_cons] at hlen
      rw [h.elems]
      omega
    obtain ⟨list', nextHash', hstore, hlen, hbuckets⟩ :=
      h.buckets.store h.nodup hi hpath hchain hpath.of_append hdisj hrest hother
    refine ⟨e, order.erase e, list', nextHash', hperm, hkey, ?_, hbuckets, hlen ▸ h.size, rfl,
      h.keys.sublist (List.erase_sublist.map _),
      fun a ha => h.hashes a (List.mem_of_mem_erase ha), List.length_erase_le.trans h.few⟩
    rw [tableRemove, hfind, Option.bind_eq_bind, Option.bind_some, hload]
    simp only [List.head?_cons, hstore, helems]

/-- The list of an entry not in the table is not touched by a write to its link. -/
theorem write_link (h : Table hash c order) (he : e ∉ order) (q : Option ℕ) :
    Table hash { c with nextHash := update c.nextHash e q } order := by
  refine ⟨fun i hi => ?_, h.size, h.elems, h.keys, h.hashes, h.few⟩
  obtain ⟨chain, hpath, hchain⟩ := h.buckets i hi
  refine ⟨chain, hpath.update (fun hmem => he ?_) q, hchain⟩
  exact (mem_bucketOf.mp (hchain.subset hmem)).1

end Table

/-! ### Growing -/

/-- Handles moved so far: they are in the new buckets, and the links of the others are untouched. -/
structure Moved (c : LRUCache) (n : ℕ) (st : Rehash) (moved : List ℕ) : Prop where
  buckets : Buckets (fun e => (c.entry e).hash) st.nextHash st.newList moved
  size : st.newList.length = n
  count : st.count = moved.length % 2 ^ 32
  links : ∀ e ∉ moved, st.nextHash e = c.nextHash e

variable {n : ℕ} {st : Rehash} {moved : List ℕ}

/-- A handle put in front of its list. -/
theorem Buckets.push (hB : Buckets hashOf nextHash list order) (he : e ∉ order)
    (hi : hashOf e &&& (list.length - 1) < list.length) :
    Buckets hashOf (update nextHash e (list.getD (hashOf e &&& (list.length - 1)) none))
      (list.set (hashOf e &&& (list.length - 1)) (some e)) (e :: order) := by
  intro j hj
  rw [List.length_set] at hj ⊢
  obtain ⟨chain, hpath, hchain⟩ := hB j hj
  have hnot : e ∉ chain := fun hmem => he (mem_bucketOf.mp (hchain.subset hmem)).1
  by_cases hji : j = hashOf e &&& (list.length - 1)
  · subst hji
    refine ⟨e :: chain, ⟨getD_set_self hi _, ?_⟩, ?_⟩
    · rw [Function.update_self]
      exact hpath.update hnot _
    · rw [bucketOf_cons_self]
      exact hchain.cons e
  · refine ⟨chain, ?_, ?_⟩
    · rw [getD_set_ne hji]
      exact hpath.update hnot _
    · rwa [bucketOf_cons_of_ne (Ne.symm hji)]

/-- The inner loop moves a list. -/
theorem Moved.rehashChain {k : ℕ} (hn : n = 2 ^ k) (h : Moved c n st moved)
    (hpath : Path st.nextHash p l) (hlive : ∀ e ∈ l, c.live e = true) (hl : l.Nodup)
    (hdisj : ∀ e ∈ l, e ∉ moved) {fuel : ℕ} (hfuel : l.length ≤ fuel) :
    ∃ st', c.rehashChain fuel st p = some st' ∧ Moved c n st' (l.reverse ++ moved) := by
  induction l generalizing st moved p fuel with
  | nil =>
    obtain rfl : p = none := hpath
    exact ⟨st, by cases fuel <;> rfl, h⟩
  | cons e l ih =>
    obtain ⟨rfl, htail⟩ := hpath
    obtain ⟨fuel, rfl⟩ : ∃ m, fuel = m + 1 := ⟨fuel - 1, by rw [List.length_cons] at hfuel; omega⟩
    obtain ⟨hel, hl'⟩ := List.nodup_cons.mp hl
    have he : e ∉ moved := hdisj e List.mem_cons_self
    have hi : (c.entry e).hash &&& (st.newList.length - 1) < st.newList.length :=
      and_mask_lt (h.size.trans hn) _
    set i := (c.entry e).hash &&& (st.newList.length - 1) with hidx
    have hstep : Moved c n ⟨update st.nextHash e (st.newList.getD i none),
        st.newList.set i (some e), (st.count + 1) % 2 ^ 32⟩ (e :: moved) := by
      refine ⟨h.buckets.push he hi, List.length_set.trans h.size, ?_, fun a ha => ?_⟩
      · rw [h.count, List.length_cons]
        exact Nat.mod_add_mod ..
      · rw [List.mem_cons, not_or] at ha
        exact (Function.update_of_ne ha.1 _ _).trans (h.links a ha.2)
    have hdisj' : ∀ a ∈ l, a ∉ e :: moved := by
      intro a ha
      rw [List.mem_cons, not_or]
      exact ⟨fun heq => hel (heq ▸ ha), hdisj a (List.mem_cons_of_mem e ha)⟩
    obtain ⟨st', hrun, hmoved⟩ := ih hstep (htail.update hel _)
      (fun a ha => hlive a (List.mem_cons_of_mem e ha)) hl' hdisj' (Nat.le_of_succ_le_succ hfuel)
    refine ⟨st', ?_, ?_⟩
    · rw [LRUCache.rehashChain, if_neg (by simp [hlive e List.mem_cons_self])]
      exact hrun
    · rwa [List.reverse_cons, List.append_assoc, List.singleton_append]

/-- `new_length` is a power of two that is large enough, if there is one among the 32-bit
numbers. -/
theorem newLengthLoop_spec {elems : ℕ} (helems : elems ≤ 2 ^ 31) (k fuel : ℕ) (hk : k ≤ 31)
    (hfuel : 31 < k + fuel) :
    ∃ k', k ≤ k' ∧ k' ≤ 31 ∧ newLengthLoop elems fuel (2 ^ k) = some (2 ^ k') := by
  induction fuel generalizing k with
  | zero => omega
  | succ fuel ih =>
    by_cases hlt : 2 ^ k < elems
    · have hk31 : k < 31 := by
        by_contra hge
        obtain rfl : k = 31 := by omega
        omega
      have hdouble : 2 ^ k * 2 % 2 ^ 32 = 2 ^ (k + 1) := by
        rw [← pow_succ, Nat.mod_eq_of_lt (Nat.pow_lt_pow_right (by decide) (by omega))]
      obtain ⟨k', hle, hk', hrun⟩ := ih (k + 1) (by omega) (by omega)
      refine ⟨k', by omega, hk', ?_⟩
      rw [newLengthLoop, if_pos hlt, hdouble, hrun]
    · exact ⟨k, le_rfl, hk, by rw [newLengthLoop, if_neg hlt]⟩

/-- What is in the first `m + 1` buckets is what is in the last of them and in the first `m`. -/
theorem filter_lt_succ_perm (f : ℕ → ℕ) (m : ℕ) (order : List ℕ) :
    (order.filter fun e => f e < m + 1).Perm
      ((order.filter fun e => f e = m) ++ order.filter fun e => f e < m) := by
  have hsplit := (List.filter_append_perm (fun e => decide (f e = m))
    (order.filter fun e => f e < m + 1)).symm
  rw [List.filter_filter, List.filter_filter] at hsplit
  have heq : (fun e => decide (f e = m) && decide (f e < m + 1)) = fun e => decide (f e = m) := by
    funext e
    by_cases h : f e = m <;> simp [h]
  have hlt : (fun e => (!decide (f e = m)) && decide (f e < m + 1))
      = fun e => decide (f e < m) := by
    funext e
    rw [← decide_not, ← Bool.decide_and]
    exact decide_eq_decide.mpr (by omega)
  rwa [heq, hlt] at hsplit

/-- The outer loop, after the first `m` buckets. -/
theorem Table.rehash (h : Table hash c order) (hacc : Accessible c order)
    (hfuel : order.length ≤ c.fresh) {k : ℕ} (m : ℕ) (hm : m ≤ c.list.length) :
    ∃ st moved, (List.range m).foldlM
        (fun st i => c.rehashChain c.fresh st (c.list.getD i none))
        ⟨c.nextHash, List.replicate (2 ^ k) none, 0⟩ = some st ∧
      Moved c (2 ^ k) st moved ∧
      moved.Perm (order.filter fun e => (c.entry e).hash &&& (c.list.length - 1) < m) := by
  induction m with
  | zero =>
    refine ⟨_, [], rfl, ⟨fun i hi => ⟨[], ?_, by simp [bucketOf]⟩, List.length_replicate, rfl,
      fun e _ => rfl⟩, by simp⟩
    rw [List.length_replicate] at hi
    simp [Path, List.getD_eq_getElem?_getD, hi]
  | succ m ih =>
    obtain ⟨st, moved, hrun, hmoved, hperm⟩ := ih (by omega)
    obtain ⟨chain, hpath, hchain⟩ := h.buckets m (by omega)
    have hmem : ∀ e ∈ chain, e ∈ order ∧ (c.entry e).hash &&& (c.list.length - 1) = m :=
      fun e he => mem_bucketOf.mp (hchain.subset he)
    have hdisj : ∀ e ∈ chain, e ∉ moved := by
      intro e he hmov
      have hlt := (List.mem_filter.mp (hperm.subset hmov)).2
      simp [(hmem e he).2] at hlt
    have hpath' : Path st.nextHash (c.list.getD m none) chain :=
      hpath.congr fun e he => hmoved.links e (hdisj e he)
    obtain ⟨st', hrun', hmoved'⟩ := hmoved.rehashChain rfl hpath'
      (fun e he => (hacc e (hmem e he).1).1) (hchain.nodup_iff.mpr (h.nodup.filter _)) hdisj
      ((hchain.length_eq.trans_le (List.length_filter_le _ _)).trans hfuel)
    refine ⟨st', _, ?_, hmoved', ?_⟩
    · rw [List.range_succ, List.foldlM_append, hrun, Option.bind_eq_bind, Option.bind_some,
        List.foldlM_cons, hrun']
      rfl
    · exact ((List.reverse_perm chain).trans hchain).append hperm |>.trans
        (filter_lt_succ_perm (fun e => (c.entry e).hash &&& (c.list.length - 1)) m order).symm

/-- **`Resize`.** The same entries in more buckets. -/
theorem Table.resize (h : Table hash c order) (hacc : Accessible c order)
    (hfuel : order.length ≤ c.fresh) :
    ∃ list' nextHash', c.resize = some { c with list := list', nextHash := nextHash' } ∧
      Table hash { c with list := list', nextHash := nextHash' } order := by
  have helems : c.elems ≤ 2 ^ 31 := h.elems ▸ h.few
  obtain ⟨k, hk, hk31, hlength⟩ := newLengthLoop_spec helems 2 32 (by decide)
    (by decide)
  obtain ⟨st, moved, hrun, hmoved, hperm⟩ := h.rehash hacc hfuel (k := k) c.list.length le_rfl
  obtain ⟨n, -, -, hn⟩ := h.size
  have hall : moved.Perm order := by
    refine hperm.trans (List.Perm.of_eq (List.filter_eq_self.mpr fun e _ => ?_))
    exact decide_eq_true (and_mask_lt hn _)
  have hcount : c.elems = st.count := by
    have hfew := h.few
    rw [hmoved.count, h.elems, hall.length_eq]
    exact (Nat.mod_eq_of_lt (by omega)).symm
  refine ⟨st.newList, st.nextHash, ?_, hmoved.buckets.perm hall, ⟨k, hk, hk31, hmoved.size⟩,
    h.elems, h.keys, h.hashes, h.few⟩
  rw [LRUCache.resize, show (4 : ℕ) = 2 ^ 2 from rfl, hlength, Option.bind_eq_bind,
    Option.bind_some, hrun]
  exact if_pos hcount

/-! ### Inserting -/

namespace Table

/-- The first half of `Insert`: the new handle takes the place of the entry with its key, or the
last place of its bucket. -/
theorem link (h : Table hash c order) (hacc : Accessible c order) (hfuel : order.length ≤ c.fresh)
    (he : e ∉ order) (hhash : (c.entry e).hash = hash (c.entry e).key) :
    ∃ ptr list' nextHash', c.findPointer (c.entry e).key (c.entry e).hash = some ptr ∧
      ({ c with nextHash := update c.nextHash e ((c.load ptr).bind c.nextHash) } : LRUCache).store
        (some e) ptr = { c with list := list', nextHash := nextHash' } ∧
      list'.length = c.list.length ∧
      ((∃ old rest, c.load ptr = some old ∧ (c.entry old).key = (c.entry e).key ∧
          order.Perm (old :: rest) ∧
          Buckets (fun e => (c.entry e).hash) nextHash' list' (e :: rest)) ∨
        c.load ptr = none ∧ (∀ a ∈ order, (c.entry a).key ≠ (c.entry e).key) ∧
          Buckets (fun e => (c.entry e).hash) nextHash' list' (e :: order)) := by
  obtain ⟨i, pre, post, hik, hi, hfind, hload, hpath, hchain, hsome, hnone⟩ :=
    h.findPointer_spec hacc hfuel (c.entry e).key
  have hidx : (c.entry e).hash &&& (c.list.length - 1) = i := by rw [hhash, hik]
  have hnodup := hchain.nodup_iff.mpr (h.nodup.filter _)
  have hnot : e ∉ pre ++ post := fun hmem => he (mem_bucketOf.mp (hchain.subset hmem)).1
  have hpre : ∀ a ∈ pre, a ∉ e :: post.tail := by
    intro a ha hmem
    rcases List.mem_cons.mp hmem with rfl | hmem
    · exact hnot (List.mem_append_left post ha)
    · exact (List.nodup_append.mp hnodup).2.2 a ha a (List.mem_of_mem_tail hmem) rfl
  have htable := h.write_link he (post.head?.bind c.nextHash)
  have hq : Path (update c.nextHash e (post.head?.bind c.nextHash)) (some e) (e :: post.tail) := by
    refine ⟨rfl, ?_⟩
    rw [Function.update_self]
    cases post with
    | nil => rfl
    | cons old post =>
      refine Path.update hpath.of_append (fun hmem => hnot ?_) _
      exact List.mem_append_right pre (List.mem_cons_of_mem old hmem)
  rw [hhash]
  refine ⟨slotAfter (.bucket i) pre, ?_⟩
  rw [hload]
  cases post with
  | nil =>
    have hchain' : (pre ++ [e]).Perm
        (bucketOf (fun e => (c.entry e).hash) c.list.length i (e :: order)) := by
      rw [← hidx, bucketOf_cons_self (fun e => (c.entry e).hash), hidx]
      refine List.perm_middle.trans ?_
      exact hchain.cons e
    have hother : ∀ j ≠ i, (bucketOf (fun e => (c.entry e).hash) c.list.length j order).Perm
        (bucketOf (fun e => (c.entry e).hash) c.list.length j (e :: order)) := by
      intro j hj
      rw [bucketOf_cons_of_ne fun heq => hj (heq.symm.trans hidx)]
    obtain ⟨list', nextHash', hstore, hlen, hbuckets⟩ := htable.buckets.store h.nodup hi
      (hpath.update hnot _) hchain hq hpre hchain' hother
    exact ⟨list', nextHash', hfind, hstore, hlen, Or.inr ⟨rfl, hnone rfl, hbuckets⟩⟩
  | cons old post =>
    obtain ⟨hold, hkey⟩ := hsome old rfl
    have hperm : order.Perm (old :: order.erase old) := List.perm_cons_erase hold
    have hoidx : (c.entry old).hash &&& (c.list.length - 1) = i := by
      rw [h.hashes old hold, hkey, hik]
    have hchain' : (pre ++ e :: post).Perm
        (bucketOf (fun e => (c.entry e).hash) c.list.length i (e :: order.erase old)) := by
      have hcons := (List.perm_middle.symm.trans hchain).trans (bucketOf_perm hperm)
      rw [← hoidx, bucketOf_cons_self (fun e => (c.entry e).hash), hoidx] at hcons
      rw [← hidx, bucketOf_cons_self (fun e => (c.entry e).hash), hidx]
      exact List.perm_middle.trans (hcons.cons_inv.cons e)
    have hother : ∀ j ≠ i, (bucketOf (fun e => (c.entry e).hash) c.list.length j order).Perm
        (bucketOf (fun e => (c.entry e).hash) c.list.length j (e :: order.erase old)) := by
      intro j hj
      refine (bucketOf_perm hperm).trans ?_
      rw [bucketOf_cons_of_ne fun heq => hj (heq.symm.trans hoidx),
        bucketOf_cons_of_ne fun heq => hj (heq.symm.trans hidx)]
    obtain ⟨list', nextHash', hstore, hlen, hbuckets⟩ := htable.buckets.store h.nodup hi
      (hpath.update hnot _) hchain hq hpre hchain' hother
    exact ⟨list', nextHash', hfind, hstore, hlen, Or.inl ⟨old, _, rfl, hkey, hperm, hbuckets⟩⟩

/-- **`Insert`.** The entry with the same key is replaced and returned; else there is one more
entry, and the table may have grown. -/
theorem insert (h : Table hash c order) (hacc : Accessible c (e :: order))
    (hfuel : order.length < c.fresh) (he : e ∉ order)
    (hhash : (c.entry e).hash = hash (c.entry e).key) (hfew : order.length < 2 ^ 31) :
    (∃ old rest list' nextHash', order.Perm (old :: rest) ∧ (c.entry old).key = (c.entry e).key ∧
      c.tableInsert e = some (some old, { c with list := list', nextHash := nextHash' }) ∧
      Table hash { c with list := list', nextHash := nextHash' } (e :: rest)) ∨
    ∃ list' nextHash', (∀ a ∈ order, (c.entry a).key ≠ (c.entry e).key) ∧
      c.tableInsert e = some (none,
        { c with list := list', nextHash := nextHash', elems := order.length + 1 }) ∧
      Table hash { c with list := list', nextHash := nextHash', elems := order.length + 1 }
        (e :: order) := by
  have hacc' : Accessible c order := fun a ha => hacc a (List.mem_cons_of_mem e ha)
  have hkey : c.key e = some (c.entry e).key := hacc.key_eq List.mem_cons_self
  obtain ⟨ptr, list', nextHash', hfind, hstore, hlen, hcase⟩ :=
    h.link hacc' hfuel.le he hhash
  have hhashes : ∀ a ∈ e :: order, (c.entry a).hash = hash (c.entry a).key := by
    intro a ha
    rcases List.mem_cons.mp ha with rfl | ha
    · exact hhash
    · exact h.hashes a ha
  rcases hcase with ⟨old, rest, hload, hsame, hperm, hbuckets⟩ | ⟨hload, hfresh, hbuckets⟩
  · left
    have hkeys : ((e :: rest).map fun a => (c.entry a).key).Nodup := by
      have hcons := (hperm.map fun a => (c.entry a).key).nodup_iff.mp h.keys
      rwa [List.map_cons, hsame, ← List.map_cons (f := fun a => (c.entry a).key)] at hcons
    refine ⟨old, rest, list', nextHash', hperm, hsame, ?_, hbuckets, hlen ▸ h.size,
      h.elems.trans hperm.length_eq, hkeys, fun a ha => hhashes a ?_, hperm.length_eq ▸ h.few⟩
    · rw [tableInsert, hkey, Option.bind_eq_bind, Option.bind_some, hfind, Option.bind_eq_bind,
        Option.bind_some]
      simp only [hstore]
      simp only [hload, reduceCtorEq, if_false]
    · rcases List.mem_cons.mp ha with rfl | ha
      · exact List.mem_cons_self
      · exact List.mem_cons_of_mem e (hperm.symm.subset (List.mem_cons_of_mem old ha))
  · right
    have helems : (c.elems + 1) % 2 ^ 32 = order.length + 1 := by
      rw [h.elems, Nat.mod_eq_of_lt (by omega)]
    have htable : Table hash { c with
        list := list', nextHash := nextHash', elems := order.length + 1 } (e :: order) := by
      refine ⟨hbuckets, hlen ▸ h.size, rfl, ?_, hhashes, hfew⟩
      rw [List.map_cons, List.nodup_cons]
      refine ⟨?_, h.keys⟩
      rw [List.mem_map]
      rintro ⟨a, ha, heq⟩
      exact hfresh a ha heq
    rw [tableInsert, hkey, Option.bind_eq_bind, Option.bind_some, hfind, Option.bind_eq_bind,
      Option.bind_some]
    simp only [hstore]
    simp only [hload, if_true, helems]
    split
    · obtain ⟨list'', nextHash'', hresize, htable'⟩ := htable.resize hacc hfuel
      exact ⟨list'', nextHash'', hfresh, by rw [hresize]; rfl, htable'⟩
    · exact ⟨list', nextHash', hfresh, rfl, htable⟩

end Table

end LRUCache

end Squirrel
