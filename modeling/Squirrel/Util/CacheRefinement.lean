import Squirrel.Util.CacheLifetime

/-!
# The cache as a map that forgets

What a client sees of a cache is what its lookups find. The list, the table and the counts of the
cache come to the abstract map of `Lru`: its items are the entries of the list, oldest first, and
what is held are the unreleased handles. The simulation is step by step, and says of a run that the
cache gets through it and finds what the map finds.

The conditions on a run are read off the map: no handle is released twice, the charges add up to
less than `2 ^ 64`, and the counters of 32 bits do not wrap.

## Main results

* `LRUCache.run_refines` — runs of a cache are runs of the map
-/

namespace Squirrel

namespace LRUCache

open Function (update)

variable {hash : Bytes → ℕ} {capacity : ℕ} {w : World} {s : Lru.State Bytes ℕ} {order : List ℕ}

/-! ### Runs of a cache -/

/-- One operation, and the value of what `Lookup` found. -/
def stepValue (hash : Bytes → ℕ) (w : World) : Op → Option (Option ℕ × World)
  | .insert key value charge deleter => do
    some (none, ← step hash w (.insert key value charge deleter))
  | .lookup key => do
    let (r, c) ← w.cache.lookup key (hash key)
    some (r.map fun e => (c.entry e).value, ⟨c, r.toList ++ w.unreleased⟩)
  | .release handle => do some (none, ← step hash w (.release handle))
  | .erase key => do some (none, ← step hash w (.erase key))

/-- Some operations, and the values that were found. -/
def run (hash : Bytes → ℕ) (w : World) : List Op → Option (List (Option ℕ) × World)
  | [] => some ([], w)
  | op :: ops => do
    let (found, w) ← stepValue hash w op
    let (rest, w) ← run hash w ops
    some (found :: rest, w)

/-- The operation on the map; it knows nothing of deleters. -/
def Op.abstract : Op → Lru.Op Bytes ℕ
  | .insert key value charge _ => .insert key value charge
  | .lookup key => .lookup key
  | .release handle => .release handle
  | .erase key => .erase key

/-- The charge that an operation adds. -/
def Op.charge : Op → ℕ
  | .insert _ _ charge _ => charge
  | .lookup _ => 0
  | .release _ => 0
  | .erase _ => 0

/-- A handle that is released is held. -/
def Proper (s : Lru.State Bytes ℕ) : Op → Prop
  | .release handle => handle ∈ s.held.map Lru.Item.id
  | _ => True

/-- The 32 bits of `refs` and of `new_length` are enough. -/
def Narrow (s : Lru.State Bytes ℕ) : Op → Prop
  | .insert _ _ _ _ => s.items.length < 2 ^ 31
  | .lookup key => ∀ x, s.find key = some x → s.held.count x + 2 < 2 ^ 32
  | _ => True

/-- Each operation of a run is `ok` in the state of the map that it finds. -/
def Along (capacity : ℕ) (ok : Lru.State Bytes ℕ → Op → Prop) : Lru.State Bytes ℕ → List Op → Prop
  | _, [] => True
  | s, op :: ops => ok s op ∧ Along capacity ok (Lru.step capacity s op.abstract).2 ops

/-! ### The simulation -/

/-- The map that a cache comes to. -/
def abstract (w : World) (order : List ℕ) : Lru.State Bytes ℕ :=
  ⟨order.map w.cache.item, w.unreleased.map w.cache.item, w.cache.fresh⟩

/-- The cache is in step with the map, and `ops` are still to come. -/
structure Refines (hash : Bytes → ℕ) (capacity : ℕ) (w : World) (s : Lru.State Bytes ℕ)
    (ops : List Op) : Prop where
  inv : ∃ order, Inv hash w.cache order w.unreleased ∧ s = abstract w order
  capacity_eq : w.cache.capacity = capacity
  charges : ∑ e ∈ Finset.Ico 1 w.cache.fresh, w.cache.charge e + (ops.map Op.charge).sum < 2 ^ 64

/-- The map finds the entry that the table has. -/
theorem find_item {c : LRUCache} (h : Table hash c order) {e : ℕ} (he : e ∈ order) {k : Bytes}
    (hk : (c.entry e).key = k) :
    (order.map c.item).find? (fun x => x.key = k) = some (c.item e) := by
  cases hfind : (order.map c.item).find? fun x => x.key = k with
  | none =>
    have hnone := List.find?_eq_none.mp hfind (c.item e) (List.mem_map_of_mem he)
    exact absurd (decide_eq_true hk) hnone
  | some x =>
    obtain ⟨a, ha, rfl⟩ := List.mem_map.mp (List.mem_of_find?_eq_some hfind)
    have hkey := List.find?_some hfind
    rw [decide_eq_true_iff] at hkey
    rw [h.eq_of_key ha he (hkey.trans hk.symm)]

theorem find_item_none {c : LRUCache} {k : Bytes} (hk : ∀ e ∈ order, (c.entry e).key ≠ k) :
    (order.map c.item).find? (fun x => x.key = k) = none := by
  refine List.find?_eq_none.mpr fun x hx => ?_
  obtain ⟨e, he, rfl⟩ := List.mem_map.mp hx
  rw [decide_eq_true_iff]
  exact hk e he

theorem Refines.bounded {ops : List Op} (h : Refines hash capacity w s ops) : w.cache.Bounded :=
  Nat.lt_of_le_of_lt (Nat.le_add_right _ _) h.charges

section Steps

variable {ops : List Op}

theorem Refines.insert {key : Bytes} {value charge deleter : ℕ}
    (h : Refines hash capacity w s (.insert key value charge deleter :: ops))
    (hn : s.items.length < 2 ^ 31) :
    ∃ w', stepValue hash w (.insert key value charge deleter) = some (none, w') ∧
      Refines hash capacity w' (s.insert capacity key value charge) ops := by
  obtain ⟨order, hinv, rfl⟩ := h.inv
  have hcharges := h.charges
  rw [List.map_cons, List.sum_cons, ← Nat.add_assoc] at hcharges
  have hcharge : charge < 2 ^ 64 :=
    Nat.lt_of_le_of_lt (Nat.le_add_left _ _) (Nat.lt_of_le_of_lt (Nat.le_add_right _ _) hcharges)
  have hfew : order.length < 2 ^ 31 := by
    rw [← List.length_map (f := w.cache.item)]
    exact hn
  obtain ⟨c', order', hins, hinv', -, hcap, hfresh, hentry, hheld, -, hitems⟩ :=
    hinv.insert key value charge deleter hcharge hfew
  have hsum := sum_charge_insert hinv.counts.fresh hfresh hentry
  have hb : Bounded c' := by
    rw [Bounded, hsum]
    exact Nat.lt_of_le_of_lt (Nat.le_add_right _ _) hcharges
  refine ⟨⟨c', w.cache.fresh :: w.unreleased⟩, ?_, ⟨order', hinv', ?_⟩, hcap.trans h.capacity_eq,
    ?_⟩
  · rw [stepValue, step, hins]
    rfl
  · have habs : abstract ⟨c', w.cache.fresh :: w.unreleased⟩ order'
        = ⟨order'.map c'.item, (w.cache.fresh :: w.unreleased).map c'.item, c'.fresh⟩ := rfl
    rw [habs, hheld, hitems hb, h.capacity_eq, hfresh]
    rfl
  · rw [hsum]
    exact hcharges

theorem Refines.lookup {key : Bytes} (h : Refines hash capacity w s (.lookup key :: ops))
    (hn : ∀ x, s.find key = some x → s.held.count x + 2 < 2 ^ 32) :
    ∃ w', stepValue hash w (.lookup key) = some ((s.lookup key).1, w') ∧
      Refines hash capacity w' (s.lookup key).2 ops := by
  obtain ⟨order, hinv, rfl⟩ := h.inv
  have hcharges := h.charges
  rw [List.map_cons, List.sum_cons, Op.charge, Nat.zero_add] at hcharges
  rcases hinv.lookup key with ⟨e, he, next', prev', -, hkey, hlook, hinv'⟩ | ⟨hlook, hnone⟩
  · have hfind : (abstract w order).find key = some (w.cache.item e) :=
      find_item hinv.table he hkey
    have hcount : (w.unreleased.map w.cache.item).count (w.cache.item e) = w.unreleased.count e :=
      List.count_map_of_injective _ _ w.cache.item_injective e
    have hfew := hn _ hfind
    rw [abstract, hcount] at hfew
    refine ⟨⟨_, e :: w.unreleased⟩, ?_, ⟨_, hinv' hfew, ?_⟩, h.capacity_eq, hcharges⟩
    · rw [stepValue, hlook, Lru.State.lookup, hfind]
      rfl
    · rw [Lru.State.lookup, hfind]
      dsimp only [abstract]
      rw [List.map_append, ← List.map_erase w.cache.item_injective]
      rfl
  · have hfind : (abstract w order).find key = none := find_item_none hnone
    refine ⟨w, ?_, ⟨order, hinv, ?_⟩, h.capacity_eq, hcharges⟩
    · rw [stepValue, hlook, Lru.State.lookup, hfind]
      rfl
    · rw [Lru.State.lookup, hfind]

theorem Refines.release {handle : ℕ} (h : Refines hash capacity w s (.release handle :: ops))
    (hp : handle ∈ s.held.map Lru.Item.id) :
    ∃ w', stepValue hash w (.release handle) = some (none, w') ∧
      Refines hash capacity w' (s.release handle) ops := by
  obtain ⟨order, hinv, rfl⟩ := h.inv
  have hcharges := h.charges
  rw [List.map_cons, List.sum_cons, Op.charge, Nat.zero_add] at hcharges
  have hmem : handle ∈ w.unreleased := by
    rw [abstract, List.map_map] at hp
    obtain ⟨e, he, rfl⟩ := List.mem_map.mp hp
    exact he
  obtain ⟨c', hrel, hinv', hkeeps⟩ := hinv.release hmem
  refine ⟨⟨c', w.unreleased.erase handle⟩, ?_, ⟨order, hinv', ?_⟩,
    hkeeps.capacity_eq.trans h.capacity_eq, by rwa [hkeeps.sum_charge]⟩
  · rw [stepValue, step, hrel]
    rfl
  · rw [abstract, abstract, Lru.State.release, hkeeps.item_eq, hkeeps.fresh_eq]
    dsimp only
    have hid : (fun e : ℕ => e == handle)
        = (fun x : Lru.Item Bytes ℕ => decide (x.id = handle)) ∘ w.cache.item := by
      funext e
      exact beq_eq_decide e handle
    rw [List.eraseP_map, List.erase_eq_eraseP', hid]

theorem Refines.erase {key : Bytes} (h : Refines hash capacity w s (.erase key :: ops)) :
    ∃ w', stepValue hash w (.erase key) = some (none, w') ∧
      Refines hash capacity w' (s.erase key) ops := by
  obtain ⟨order, hinv, rfl⟩ := h.inv
  have hcharges := h.charges
  rw [List.map_cons, List.sum_cons, Op.charge, Nat.zero_add] at hcharges
  obtain ⟨c', order', her, hinv', hkeeps, hitems⟩ := hinv.erase key
  refine ⟨⟨c', w.unreleased⟩, ?_, ⟨order', hinv', ?_⟩, hkeeps.capacity_eq.trans h.capacity_eq,
    by rwa [hkeeps.sum_charge]⟩
  · rw [stepValue, step, her]
    rfl
  · rw [abstract, abstract, Lru.State.erase, hkeeps.item_eq, hkeeps.fresh_eq, hitems]

/-- **One operation.** -/
theorem Refines.step {op : Op} (h : Refines hash capacity w s (op :: ops)) (hp : Proper s op)
    (hn : Narrow s op) :
    ∃ w', stepValue hash w op = some ((Lru.step capacity s op.abstract).1, w') ∧
      Refines hash capacity w' (Lru.step capacity s op.abstract).2 ops := by
  cases op with
  | insert key value charge deleter => exact h.insert hn
  | lookup key => exact h.lookup hn
  | release handle => exact h.release hp
  | erase key => exact h.erase

/-- **Runs of operations**, with some more to come. -/
theorem Refines.run {more : List Op} (h : Refines hash capacity w s (ops ++ more))
    (hok : Along capacity (fun s op => Proper s op ∧ Narrow s op) s ops) :
    ∃ w', run hash w ops = some ((Lru.run capacity s (ops.map Op.abstract)).1, w') ∧
      Refines hash capacity w' (Lru.run capacity s (ops.map Op.abstract)).2 more := by
  induction ops generalizing w s with
  | nil => exact ⟨w, rfl, h⟩
  | cons op ops ih =>
    obtain ⟨w₁, hstep, h₁⟩ := h.step hok.1.1 hok.1.2
    obtain ⟨w', hrun, h'⟩ := ih h₁ hok.2
    refine ⟨w', ?_, h'⟩
    rw [LRUCache.run, hstep]
    simp only [Option.bind_eq_bind, Option.bind_some, hrun]
    rfl

end Steps

theorem refines_new (hash : Bytes → ℕ) (capacity : ℕ) {ops : List Op}
    (hsum : (ops.map Op.charge).sum < 2 ^ 64) :
    Refines hash capacity ⟨new capacity, []⟩ .empty ops where
  inv := ⟨[], inv_new hash capacity, rfl⟩
  capacity_eq := rfl
  charges := by
    rw [show (new capacity).fresh = 1 from rfl, Finset.Ico_self, Finset.sum_empty, Nat.zero_add]
    exact hsum

/-- **The cache is a map that forgets the least recently used.** A run on it goes through, its
lookups find what they find in the map, and in the end its list is that of the map. -/
theorem run_refines (hash : Bytes → ℕ) (capacity : ℕ) {ops : List Op}
    (hsum : (ops.map Op.charge).sum < 2 ^ 64)
    (hok : Along capacity (fun s op => Proper s op ∧ Narrow s op) .empty ops) :
    ∃ w order, run hash ⟨new capacity, []⟩ ops
        = some ((Lru.run capacity .empty (ops.map Op.abstract)).1, w) ∧ Lifetime w order ∧
      (Lru.run capacity .empty (ops.map Op.abstract)).2 = abstract w order := by
  have hnew := refines_new hash capacity hsum
  rw [← List.append_nil ops] at hnew
  obtain ⟨w, hrun, h⟩ := hnew.run hok
  obtain ⟨order, hinv, habs⟩ := h.inv
  exact ⟨w, order, hrun, hinv.toLifetime h.bounded, habs⟩

/-- Two entries fit; the lookup makes the first the newer one, and the third drives out the second.
All keys have the same hash. -/
theorem run_refines_three :
    let ops : List Op :=
  [.insert [1] 10 1 0, .insert [2] 20 1 0, .release 1, .release 2, .lookup [1],
      .insert [3] 30 1 0, .lookup [2], .lookup [1]]
    ∃ w, run (fun _ => 0) ⟨new 2, []⟩ ops
        = some ([none, none, none, none, some 10, none, none, some 10], w) ∧
      ∃ order, Lifetime w order := by
  intro ops
  obtain ⟨w, order, hrun, hlife, -⟩ := @run_refines (fun _ => 0) 2 ops (by decide) (by
    simp only [ops, Along, Proper, Narrow, Op.abstract]
    decide)
  exact ⟨w, hrun, order, hlife⟩

/-! ### At the limits -/

theorem run_append_none {ops ops' : List Op} {found : List (Option ℕ)} {w' : World}
    (h : run hash w ops = some (found, w')) (h' : run hash w' ops' = none) :
    run hash w (ops ++ ops') = none := by
  induction ops generalizing w found with
  | nil =>
    obtain ⟨-, rfl⟩ := Prod.mk.inj (Option.some.inj h)
    exact h'
  | cons op ops ih =>
    rw [run, Option.bind_eq_bind, Option.bind_eq_some_iff] at h
    obtain ⟨⟨f, w₁⟩, hstep, h⟩ := h
    dsimp only at h
    rw [Option.bind_eq_bind, Option.bind_eq_some_iff] at h
    obtain ⟨⟨rest, w₂⟩, hrest, h⟩ := h
    obtain ⟨-, rfl⟩ := Prod.mk.inj (Option.some.inj h)
    rw [List.cons_append, run, hstep, Option.bind_eq_bind, Option.bind_some]
    dsimp only
    rw [ih hrest]
    rfl

/-- The item under the empty key. -/
def emptyItem : Lru.Item Bytes ℕ := ⟨1, [], 0, 0⟩

/-- A map with one item, held `m` times. -/
def heldTimes (m : ℕ) : Lru.State Bytes ℕ := ⟨[emptyItem], List.replicate m emptyItem, 2⟩

/-- One entry, looked up again and again. -/
theorem along_lookups {m n : ℕ} (h : m + n + 1 < 2 ^ 32) :
    Along 1 (fun s op => Proper s op ∧ Narrow s op) (heldTimes m)
        (List.replicate n (Op.lookup [])) ∧
      (Lru.run 1 (heldTimes m) ((List.replicate n (Op.lookup [])).map Op.abstract)).2
        = heldTimes (m + n) := by
  induction n generalizing m with
  | zero => exact ⟨trivial, rfl⟩
  | succ n ih =>
    obtain ⟨halong, hrun⟩ := ih (m := m + 1) (by omega)
    refine ⟨⟨⟨trivial, fun x hx => ?_⟩, halong⟩, ?_⟩
    · obtain rfl : emptyItem = x := Option.some.inj hx
      rw [heldTimes, List.count_replicate_self]
      omega
    · rw [show m + (n + 1) = m + 1 + n by omega]
      exact hrun

theorem along_proper (m n : ℕ) :
    Along 1 Proper (heldTimes (m + 1)) (List.replicate n (Op.lookup []) ++ [.release 1]) := by
  induction n generalizing m with
  | zero => exact ⟨List.mem_map_of_mem List.mem_cons_self, trivial⟩
  | succ n ih => exact ⟨trivial, ih (m + 1)⟩

/-- The one entry in the cache, and its count. -/
theorem Refines.refs_heldTimes {m : ℕ} {ops : List Op}
    (h : Refines hash capacity w (heldTimes m) ops) :
    Inv hash w.cache [1] w.unreleased ∧ (w.cache.entry 1).key = [] ∧ w.cache.refs 1 = m + 1 := by
  obtain ⟨order, hinv, habs⟩ := h.inv
  have hitems : [emptyItem] = order.map w.cache.item := congrArg Lru.State.items habs
  have hheld : List.replicate m emptyItem = w.unreleased.map w.cache.item :=
    congrArg Lru.State.held habs
  obtain ⟨e, rfl⟩ := List.length_eq_one_iff.mp ((List.length_map _).symm.trans
    (congrArg List.length hitems).symm)
  have hitem : emptyItem = w.cache.item e := List.head_eq_of_cons_eq hitems
  obtain rfl : 1 = e := congrArg Lru.Item.id hitem
  have hkey : [] = (w.cache.entry 1).key := congrArg Lru.Item.key hitem
  refine ⟨hinv, hkey.symm, ?_⟩
  have hcount := List.count_map_of_injective w.unreleased _ w.cache.item_injective 1
  rw [← hheld, ← hitem, List.count_replicate_self] at hcount
  obtain ⟨hpos, hlt⟩ := hinv.counts.alloc 1 (List.mem_append_right _ List.mem_cons_self)
  rw [hinv.counts.refs 1 hpos hlt, List.count_append, ← hcount]
  rfl

/-- **The reference count wraps**: after `2 ^ 32 - 2` lookups of an entry it is zero, and the first
`Release` fails. -/
theorem not_run_refines :
    ¬ ∀ (hash : Bytes → ℕ) (capacity : ℕ) (ops : List Op), (ops.map Op.charge).sum < 2 ^ 64 →
      Along capacity Proper .empty ops →
      ∃ w, run hash ⟨new capacity, []⟩ ops
        = some ((Lru.run capacity .empty (ops.map Op.abstract)).1, w) := by
  intro hall
  obtain ⟨n, hn⟩ : ∃ n, n + 3 = 2 ^ 32 := ⟨2 ^ 32 - 3, by norm_num⟩
  -- up to the last lookup all is well
  obtain ⟨halong, hlru⟩ := along_lookups (m := 1) (n := n) (by omega)
  have hsum : ((Op.insert [] 0 0 0 :: List.replicate n (.lookup [])).map Op.charge).sum
      < 2 ^ 64 := by
    rw [List.map_cons, List.map_replicate, List.sum_cons, List.sum_replicate]
    norm_num [Op.charge]
  have hnew := refines_new (fun _ => 0) 1 hsum
  rw [← List.append_nil (Op.insert [] 0 0 0 :: List.replicate n (.lookup []))] at hnew
  obtain ⟨w, hrun, href⟩ := hnew.run ⟨⟨trivial, (by decide : (0 : ℕ) < 2 ^ 31)⟩, halong⟩
  have hstate : (Lru.run 1 .empty
      ((Op.insert [] 0 0 0 :: List.replicate n (.lookup [])).map Op.abstract)).2
        = heldTimes (1 + n) :=
    hlru
  rw [hstate] at href
  obtain ⟨hinv, hkey, hrefs⟩ := href.refs_heldTimes
  -- the last one and the release
  have hnone : run (fun _ => 0) w [.lookup [], .release 1] = none := by
    rcases hinv.lookup [] with ⟨e, he, next', prev', -, -, hlook, -⟩ | ⟨-, hnone⟩
    · obtain rfl := List.mem_singleton.mp he
      have hzero : (w.cache.refs 1 + 1) % 2 ^ 32 = 0 := by
        rw [hrefs, show 1 + n + 1 + 1 = 2 ^ 32 by omega, Nat.mod_self]
      rw [run, stepValue, hlook, hzero]
      simp [run, stepValue, step, LRUCache.release, LRUCache.unref]
    · exact absurd hkey (hnone 1 (List.mem_singleton_self 1))
  have hsplit : Op.insert [] 0 0 0 :: (List.replicate (n + 1) (Op.lookup []) ++ [.release 1])
      = (Op.insert [] 0 0 0 :: List.replicate n (.lookup [])) ++ [.lookup [], .release 1] := by
    rw [List.replicate_succ', List.append_assoc]
    rfl
  have hproper : Along 1 Proper .empty
      (Op.insert [] 0 0 0 :: (List.replicate (n + 1) (Op.lookup []) ++ [Op.release 1])) :=
    ⟨trivial, along_proper 0 (n + 1)⟩
  obtain ⟨w', hw'⟩ := hall (fun _ => 0) 1 _ (by
      rw [List.map_cons, List.map_append, List.map_replicate, List.sum_cons, List.sum_append,
        List.sum_replicate]
      norm_num [Op.charge]) hproper
  rw [hsplit, run_append_none hrun hnone] at hw'
  cases hw'

end LRUCache

end Squirrel
