import Squirrel.Util.CacheInvariant

/-!
# Lifetimes in the cache

A client of the cache holds handles, and releases each at most once. `World` is a cache with the
handles it has given out and not got back; a run is any sequence of operations on it.

The counters have limits. A handle's reference count is 32 bits wide, and so is the number of
buckets, which `Resize` doubles until it is large enough. `InRange` says that an operation stays
within both, and `refs_wrap` what happens otherwise.

## Main definitions

* `LRUCache.Reachable` — the states of a cache and of its clients' handles
* `LRUCache.Lifetime` — what holds of them

## Main results

* `LRUCache.lifetime` — every reachable state, every operation from it, and destruction
-/

namespace Squirrel

namespace LRUCache

open Function (update)

/-- A cache, and the handles its clients have not released. -/
structure World where
  cache : LRUCache
  unreleased : List ℕ

inductive Op
  | insert (key : Bytes) (value charge deleter : ℕ)
  | lookup (key : Bytes)
  | release (handle : ℕ)
  | erase (key : Bytes)

/-- One operation. The hash is a function of the key, as it is for every caller. -/
def step (hash : Bytes → ℕ) (w : World) : Op → Option World
  | .insert key value charge deleter => do
    let (e, c) ← w.cache.insert key (hash key) value charge deleter
    some ⟨c, e :: w.unreleased⟩
  | .lookup key => do
    let (r, c) ← w.cache.lookup key (hash key)
    some ⟨c, r.toList ++ w.unreleased⟩
  | .release handle => do some ⟨← w.cache.release handle, w.unreleased.erase handle⟩
  | .erase key => do some ⟨← w.cache.erase key (hash key), w.unreleased⟩

/-- What a client may do: release handles it has, and insert as long as the charges, summed over all
entries there ever were, stay below `2 ^ 64`. -/
def Allowed (w : World) : Op → Prop
  | .insert _ _ charge _ => ∑ e ∈ Finset.Ico 1 w.cache.fresh, w.cache.charge e + charge < 2 ^ 64
  | .release handle => handle ∈ w.unreleased
  | _ => True

/-- The operation stays within the 32 bits of `refs` and of `new_length`. -/
def InRange (hash : Bytes → ℕ) (w : World) : Op → Prop
  | .insert _ _ _ _ => w.cache.elems < 2 ^ 31
  | .lookup key => ∀ e, w.cache.tableLookup key (hash key) = some (some e) →
      w.unreleased.count e + 2 < 2 ^ 32
  | _ => True

/-- The states that operations which are `ok` lead to. -/
inductive Reachable (hash : Bytes → ℕ) (capacity : ℕ) (ok : World → Op → Prop) : World → Prop
  | new : Reachable hash capacity ok ⟨new capacity, []⟩
  | step {w w' : World} (op : Op) : Reachable hash capacity ok w → ok w op →
      step hash w op = some w' → Reachable hash capacity ok w'

/-- The entry is in one of the lists of the hash table. -/
def InTable (c : LRUCache) (e : ℕ) : Prop :=
  ∃ i < c.list.length, ∃ chain, Path c.nextHash (c.list.getD i none) chain ∧ e ∈ chain

/-- The handles of the entries the deleter has been called for. -/
def deletedHandles (c : LRUCache) : List ℕ := c.deleted.map Deletion.handle

/-- What holds of a cache whose list, from the oldest entry to the newest, is `order`. -/
structure Lifetime (w : World) (order : List ℕ) : Prop where
  /-- `order` is what the links of the list lead through, and it has no repetitions. -/
  list : Ring w.cache.next w.cache.prev 0 order ∧ (0 :: order).Nodup
  /-- The table and the list hold the same entries. -/
  table : ∀ e, w.cache.InTable e ↔ e ∈ order
  /-- The keys in the table are distinct. -/
  keys : (order.map fun e => (w.cache.entry e).key).Nodup
  /-- A live entry is referred to by its unreleased handles, and by the list if it is in it. -/
  refs : ∀ e, 0 < e → w.cache.live e = true →
    w.cache.refs e = w.unreleased.count e + if e ∈ order then 1 else 0
  /-- What is in use is the charge of all entries not yet deleted. -/
  usage : w.cache.usage
    = ∑ e ∈ Finset.Ico 1 w.cache.fresh with e ∉ w.cache.deletedHandles, w.cache.charge e
  /-- The deleter has been called once for each entry without references, and for no other. -/
  deleted : ∀ e, 0 < e → e < w.cache.fresh →
    w.cache.deletedHandles.count e = if w.cache.refs e = 0 then 1 else 0
  /-- It has been called with the key and the value of the entry. -/
  calls : ∀ d ∈ w.cache.deleted, d = w.cache.deletion d.handle
  /-- It has not been called for an entry with an unreleased handle. -/
  pinned : ∀ e ∈ w.unreleased, w.cache.live e = true ∧ e ∉ w.cache.deletedHandles

variable {hash : Bytes → ℕ} {capacity : ℕ} {w w' : World} {order : List ℕ}

theorem Inv.inTable_iff {c : LRUCache} {pins : List ℕ} (h : Inv hash c order pins) (e : ℕ) :
    c.InTable e ↔ e ∈ order := by
  constructor
  · rintro ⟨i, hi, chain, hpath, he⟩
    obtain ⟨chain', hpath', hchain⟩ := h.table.buckets i hi
    rw [hpath.unique hpath'] at he
    exact (mem_bucketOf.mp (hchain.subset he)).1
  · intro he
    obtain ⟨k, -, -, hk⟩ := h.table.size
    have hi := and_mask_lt hk (c.entry e).hash
    obtain ⟨chain, hpath, hchain⟩ := h.table.buckets _ hi
    exact ⟨_, hi, chain, hpath, hchain.symm.subset (mem_bucketOf.mpr ⟨he, rfl⟩)⟩

theorem Inv.toLifetime (h : Inv hash w.cache order w.unreleased) (hb : w.cache.Bounded) :
    Lifetime w order := by
  have hdeleted : ∀ e, 0 < e → e < w.cache.fresh →
      (e ∈ w.cache.deletedHandles ↔ e ∉ w.unreleased ++ order) := by
    intro e he hlt
    rw [← List.count_pos_iff, deletedHandles, h.counts.once]
    by_cases hmem : e ∈ w.unreleased ++ order
    · simp [hmem]
    · simp [he, hlt, hmem]
  refine ⟨⟨h.ring, h.nodup⟩, h.inTable_iff, h.table.keys, fun e he hlive => ?_, ?_,
    fun e he hlt => ?_, h.counts.calls, fun e he => ?_⟩
  · have hmem := (h.counts.live e he).mp hlive
    rw [h.counts.refs e he (h.counts.alloc e hmem).2, List.count_append]
    by_cases hmem' : e ∈ order
    · rw [if_pos hmem', List.count_eq_one_of_mem h.table.nodup hmem']
    · rw [if_neg hmem', List.count_eq_zero_of_not_mem hmem']
  · rw [h.counts.usage_of_bounded hb]
    refine Finset.sum_congr ?_ fun _ _ => rfl
    ext e
    rw [Finset.mem_filter, List.mem_toFinset]
    constructor
    · intro hmem
      obtain ⟨he, hlt⟩ := h.counts.alloc e hmem
      exact ⟨Finset.mem_Ico.mpr ⟨he, hlt⟩, fun hd => (hdeleted e he hlt).mp hd hmem⟩
    · rintro ⟨hIco, hnot⟩
      obtain ⟨he, hlt⟩ := Finset.mem_Ico.mp hIco
      by_contra hmem
      exact hnot ((hdeleted e he hlt).mpr hmem)
  · rw [deletedHandles, h.counts.once, h.counts.refs e he hlt]
    refine if_congr ?_ rfl rfl
    rw [List.count_eq_zero]
    exact ⟨fun hmem => hmem.2.2, fun hnot => ⟨he, hlt, hnot⟩⟩
  · have hmem : e ∈ w.unreleased ++ order := List.mem_append_left order he
    obtain ⟨hpos, hlt⟩ := h.counts.alloc e hmem
    exact ⟨h.counts.live_of_mem hmem, fun hd => (hdeleted e hpos hlt).mp hd hmem⟩

/-! ### Runs -/

/-- **One operation** that is allowed and in range: it returns, and keeps the invariant. -/
theorem step_inv (h : Inv hash w.cache order w.unreleased) (hb : w.cache.Bounded) {op : Op}
    (hok : Allowed w op) (hrange : InRange hash w op) :
    ∃ w' order', step hash w op = some w' ∧ Inv hash w'.cache order' w'.unreleased ∧
      w'.cache.Bounded ∧ ∀ key value charge deleter, op = .insert key value charge deleter →
        w'.cache.usage ≤ w'.cache.capacity ∨ w'.cache.next 0 = 0 := by
  cases op with
  | insert key value charge deleter =>
    have hfew : order.length < 2 ^ 31 := h.table.elems ▸ hrange
    have hcharge : charge < 2 ^ 64 := Nat.lt_of_le_of_lt (Nat.le_add_left _ _) hok
    obtain ⟨c', order', hins, hinv, husage, -, hfresh, hentry, -⟩ :=
      h.insert key value charge deleter hcharge hfew
    have hb' : Bounded c' := by
      rw [Bounded, sum_charge_insert h.counts.fresh hfresh hentry]
      exact hok
    refine ⟨⟨c', w.cache.fresh :: w.unreleased⟩, order', by rw [step, hins]; rfl, hinv, hb', ?_⟩
    rintro _ _ _ _ -
    rcases husage with husage | rfl
    · exact Or.inl husage
    · exact Or.inr (Ring.nil_iff.mp hinv.ring).1
  | lookup key =>
    rcases h.lookup key with ⟨e, -, next', prev', hfind, -, hlook, hinv⟩ | ⟨hlook, -⟩
    · exact ⟨⟨_, e :: w.unreleased⟩, _, by rw [step, hlook]; rfl, hinv (hrange e hfind),
        hb, by simp⟩
    · exact ⟨⟨w.cache, w.unreleased⟩, order, by rw [step, hlook]; rfl, h, hb,
        by simp⟩
  | release handle =>
    obtain ⟨c', hrel, hinv, hkeeps⟩ := h.release hok
    exact ⟨⟨c', w.unreleased.erase handle⟩, order, by rw [step, hrel]; rfl, hinv,
      hkeeps.bounded hb, by simp⟩
  | erase key =>
    obtain ⟨c', order', her, hinv, hkeeps, -⟩ := h.erase key
    exact ⟨⟨c', w.unreleased⟩, order', by rw [step, her]; rfl, hinv, hkeeps.bounded hb,
      by simp⟩

theorem reachable_inv (h : Reachable hash capacity
    (fun w op => Allowed w op ∧ InRange hash w op) w) :
    ∃ order, Inv hash w.cache order w.unreleased ∧ w.cache.Bounded := by
  induction h with
  | new => exact ⟨[], inv_new hash capacity, bounded_new capacity⟩
  | step op _ hok hstep ih =>
    obtain ⟨order, hinv, hb⟩ := ih
    obtain ⟨w', order', hstep', hinv', hb', -⟩ := step_inv hinv hb hok.1 hok.2
    obtain rfl := Option.some.inj (hstep.symm.trans hstep')
    exact ⟨order', hinv', hb'⟩

/-- **Lifetimes.** In every state that operations which are allowed and in range lead to, `Lifetime`
holds, and each such operation returns. After an `Insert` no more than the capacity is in use, or
the list is empty. Once all handles are released, destruction calls the deleter once for each entry
still in the cache, and so it has been called once for every entry there ever was. -/
theorem lifetime (h : Reachable hash capacity
    (fun w op => Allowed w op ∧ InRange hash w op) w) :
    ∃ order, Lifetime w order ∧
      (∀ op, Allowed w op → InRange hash w op → ∃ w', step hash w op = some w' ∧
        ∀ key value charge deleter, op = .insert key value charge deleter →
          w'.cache.usage ≤ w'.cache.capacity ∨ w'.cache.next 0 = 0) ∧
      (w.unreleased = [] → ∃ c', w.cache.destroy = some c' ∧
        c'.deleted = w.cache.deleted ++ order.map w.cache.deletion ∧
        ∀ e, 0 < e → e < w.cache.fresh → c'.deletedHandles.count e = 1) := by
  obtain ⟨order, hinv, hb⟩ := reachable_inv h
  refine ⟨order, hinv.toLifetime hb, fun op hok hrange => ?_, fun hnone => ?_⟩
  · obtain ⟨w', -, hstep, -, -, husage⟩ := step_inv hinv hb hok hrange
    exact ⟨w', hstep, husage⟩
  · rw [hnone] at hinv
    obtain ⟨c', hdestroy, hcounts, hkeeps, hdeleted⟩ := hinv.destroy
    refine ⟨c', hdestroy, hdeleted, fun e he hlt => ?_⟩
    rw [deletedHandles, hcounts.once, if_pos]
    exact ⟨he, hkeeps.fresh_eq ▸ hlt, List.not_mem_nil⟩

/-- An entry too large for its cache is out of the list when `Insert` returns, but kept for the
handle, and deleted when that is released. -/
theorem lifetime_self_evicted : ∃ w w', step (fun _ => 0) ⟨new 0, []⟩ (.insert [7] 1 1 1) = some w ∧
    step (fun _ => 0) w (.release 1) = some w' ∧ (∃ order, Lifetime w order) ∧
    w.cache.next 0 = 0 ∧ w.cache.usage = 1 ∧ (∃ order, Lifetime w' order) ∧
    w'.cache.deleted = [⟨1, 1, [7], 1⟩] := by
  obtain ⟨w, w', hins, hrel, hunreleased, hnext, husage, hdeleted⟩ : ∃ w w',
      step (fun _ => 0) ⟨new 0, []⟩ (.insert [7] 1 1 1) = some w ∧
      step (fun _ => 0) w (.release 1) = some w' ∧ w.unreleased = [1] ∧ w.cache.next 0 = 0 ∧
      w.cache.usage = 1 ∧ w'.cache.deleted = [⟨1, 1, [7], 1⟩] :=
    ⟨_, _, rfl, rfl, rfl, rfl, rfl, rfl⟩
  have hreach : Reachable (fun _ => 0) 0
      (fun w op => Allowed w op ∧ InRange (fun _ => 0) w op) w :=
    .step (.insert [7] 1 1 1) .new ⟨by simp [Allowed, new], (by decide : (0 : ℕ) < 2 ^ 31)⟩ hins
  have hreach' : Reachable (fun _ => 0) 0
      (fun w op => Allowed w op ∧ InRange (fun _ => 0) w op) w' :=
    .step (.release 1) hreach ⟨by simp [Allowed, hunreleased], trivial⟩ hrel
  obtain ⟨order, hlife, -⟩ := lifetime hreach
  obtain ⟨order', hlife', -⟩ := lifetime hreach'
  exact ⟨w, w', hins, hrel, ⟨order, hlife⟩, hnext, husage, ⟨order', hlife'⟩, hdeleted⟩

/-! ### At the limits -/

theorem Reachable.mono {ok ok' : World → Op → Prop} (hok : ∀ w op, ok w op → ok' w op)
    (h : Reachable hash capacity ok w) : Reachable hash capacity ok' w := by
  induction h with
  | new => exact .new
  | step op _ hop hstep ih => exact .step op ih (hok _ _ hop) hstep

/-- A key looked up again and again: the handles add up. -/
theorem reachable_lookups (n : ℕ) (hn : n + 2 < 2 ^ 32) :
    ∃ w order, Reachable (fun _ => 0) 1 (fun w op => Allowed w op ∧ InRange (fun _ => 0) w op) w ∧
      Inv (fun _ => 0) w.cache order w.unreleased ∧ w.cache.fresh = 2 ∧ 1 ∈ order ∧
      (w.cache.entry 1).key = [] ∧ w.unreleased.count 1 = n + 1 := by
  induction n with
  | zero =>
    obtain ⟨w, hins, hfresh, hkey, hunreleased, hlook⟩ : ∃ w,
        step (fun _ => 0) ⟨new 1, []⟩ (.insert [] 0 0 0) = some w ∧ w.cache.fresh = 2 ∧
        (w.cache.entry 1).key = [] ∧ w.unreleased = [1] ∧
        w.cache.tableLookup [] 0 = some (some 1) := ⟨_, rfl, rfl, rfl, rfl, rfl⟩
    have hreach : Reachable (fun _ => 0) 1
        (fun w op => Allowed w op ∧ InRange (fun _ => 0) w op) w :=
      .step (.insert [] 0 0 0) .new ⟨by simp [Allowed, new], (by decide : (0 : ℕ) < 2 ^ 31)⟩ hins
    obtain ⟨order, hinv, -⟩ := reachable_inv hreach
    obtain ⟨r, hr, hsome, -⟩ := hinv.table.lookup hinv.accessible hinv.length_lt.le []
    obtain rfl := Option.some.inj (hlook.symm.trans hr)
    exact ⟨w, order, hreach, hinv, hfresh, (hsome 1 rfl).1, hkey, by simp [hunreleased]⟩
  | succ n ih =>
    obtain ⟨w, order, hreach, hinv, hfresh, hmem, hkey, hcount⟩ := ih (by omega)
    rcases hinv.lookup [] with ⟨e, he, next', prev', hfind, -, hlook, hinv'⟩ | ⟨-, hnone⟩
    · obtain rfl : e = 1 := by
        have halloc := hinv.counts.alloc e (List.mem_append_right _ he)
        omega
      have hfew : w.unreleased.count 1 + 2 < 2 ^ 32 := by omega
      refine ⟨⟨_, 1 :: w.unreleased⟩, _, .step (.lookup []) hreach ⟨trivial, fun e he => ?_⟩
        (by rw [step, hlook]; rfl), hinv' hfew, hfresh, by simp, hkey, ?_⟩
      · obtain rfl := Option.some.inj (Option.some.inj (hfind.symm.trans he))
        exact hfew
      · rw [List.count_cons_self, hcount]
    · exact absurd hkey (hnone 1 hmem)

/-- With more entries than the largest power of two, no length is found. -/
theorem newLengthLoop_none (fuel : ℕ) {n : ℕ} (hn : n = 0 ∨ ∃ k ≤ 31, n = 2 ^ k) :
    newLengthLoop (2 ^ 31 + 1) fuel n = none := by
  induction fuel generalizing n with
  | zero => rfl
  | succ fuel ih =>
    have hle : n ≤ 2 ^ 31 := by
      rcases hn with rfl | ⟨k, hk, rfl⟩
      · exact Nat.zero_le _
      · exact Nat.pow_le_pow_right (by decide) hk
    rw [newLengthLoop, if_pos (Nat.lt_succ_of_le hle)]
    refine ih ?_
    rcases hn with rfl | ⟨k, hk, rfl⟩
    · exact Or.inl rfl
    · rcases Nat.lt_or_ge k 31 with hlt | hge
      · refine Or.inr ⟨k + 1, hlt, ?_⟩
        rw [← pow_succ, Nat.mod_eq_of_lt (Nat.pow_lt_pow_right (by decide) (by omega))]
      · obtain rfl : k = 31 := Nat.le_antisymm hk hge
        exact Or.inl (by decide)

/-- The counters do wrap: after `2 ^ 32 - 1` handles for one entry its reference count is zero, and
with more than `2 ^ 31` entries `Resize` does not find a length. -/
theorem refs_wrap :
    (¬ ∀ w, Reachable (fun _ => 0) 1 Allowed w → ∃ order, Lifetime w order) ∧
      ∀ fuel, newLengthLoop (2 ^ 31 + 1) fuel 4 = none := by
  refine ⟨fun hall => ?_, fun fuel => newLengthLoop_none fuel (Or.inr ⟨2, by decide, rfl⟩)⟩
  obtain ⟨w, order, hreach, hinv, hfresh, hmem, hkey, hcount⟩ :=
    reachable_lookups (2 ^ 32 - 3) (by decide)
  have hrefs : w.cache.refs 1 = 2 ^ 32 - 1 := by
    rw [hinv.counts.refs 1 Nat.one_pos (by omega), List.count_append, hcount,
      List.count_eq_one_of_mem hinv.table.nodup hmem]
    decide
  rcases hinv.lookup [] with ⟨e, he, next', prev', hfind, -, hlook, -⟩ | ⟨-, hnone⟩
  · obtain rfl : e = 1 := by
      have halloc := hinv.counts.alloc e (List.mem_append_right _ he)
      omega
    obtain ⟨order', hlife⟩ := hall ⟨_, 1 :: w.unreleased⟩
      (.step (.lookup []) (hreach.mono fun _ _ h => h.1) trivial (by rw [step, hlook]; rfl))
    have hzero := hlife.refs 1 Nat.one_pos (hinv.live 1 (List.mem_cons_of_mem 0 hmem))
    simp only [Function.update_self, hrefs, List.count_cons_self] at hzero
    omega
  · exact hnone 1 hmem hkey

end LRUCache

end Squirrel
