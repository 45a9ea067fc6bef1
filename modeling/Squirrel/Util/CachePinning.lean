import Squirrel.Util.CacheRefinement

/-!
# What is held may leave the cache

By its description the cache keeps the entries that clients refer to on a list of their own, so that
only others are evicted. The code has one list, and evicts its oldest entry whoever refers to it.
Whether a held entry goes is a matter of charges: it stays if what is held fits, together with all
that has been used since the oldest held entry (`Lru.Room`).

## Main results

* `LRUCache.pinned_of_room` — held entries stay exactly if there is room
-/

namespace Squirrel

namespace LRUCache

variable {hash : Bytes → ℕ} {capacity : ℕ} {w w' : World} {s : Lru.State Bytes ℕ}
  {order order' : List ℕ} {ops : List Op}

/-- The items that the operations of a run take out of the map because of their key. -/
def replacedAlong (capacity : ℕ) : Lru.State Bytes ℕ → List Op → List (Lru.Item Bytes ℕ)
  | _, [] => []
  | s, op :: ops =>
    replacedAlong capacity (Lru.step capacity s op.abstract).2 ops ++ Lru.replaced s op.abstract

theorem spared_run {gone : List (Lru.Item Bytes ℕ)} (h : Lru.Spared s gone) (hd : Lru.Distinct s)
    (hroom : Along capacity (fun s op => Lru.Room capacity s op.abstract) s ops) :
    Lru.Spared (Lru.run capacity s (ops.map Op.abstract)).2
      (replacedAlong capacity s ops ++ gone) := by
  induction ops generalizing s gone with
  | nil => exact h
  | cons op ops ih =>
    have hstep := ih (h.step hd hroom.1) (hd.step capacity op.abstract) hroom.2
    rw [← List.append_assoc] at hstep
    exact hstep

theorem distinct_abstract (h : Inv hash w.cache order w.unreleased) :
    Lru.Distinct (abstract w order) := by
  rw [Lru.Distinct, abstract, List.map_map]
  exact h.table.keys

/-- Eviction after an `Insert` spares the new entry and those that clients refer to. -/
def Spares (w w' : World) (key : Bytes) : Prop :=
  w'.cache.InTable w.cache.fresh ∧
    ∀ e ∈ w.unreleased, w.cache.InTable e → (w.cache.entry e).key ≠ key → w'.cache.InTable e

/-- The entries in the table are the items of the map. -/
theorem inTable_iff_mem (h : Inv hash w.cache order w.unreleased) (e : ℕ) :
    w.cache.InTable e ↔ ∃ x ∈ (abstract w order).items, x.id = e := by
  rw [h.inTable_iff e]
  constructor
  · intro he
    exact ⟨w.cache.item e, List.mem_map_of_mem he, rfl⟩
  · rintro ⟨x, hx, rfl⟩
    obtain ⟨e, he, rfl⟩ := List.mem_map.mp hx
    exact he

/-- An item of the map after an insertion is known by its number. -/
theorem eq_of_id (h : Inv hash w.cache order w.unreleased) {x y : Lru.Item Bytes ℕ} {key : Bytes}
    {value charge : ℕ}
    (hx : x ∈ Lru.State.others key (abstract w order).items
      ++ [⟨w.cache.fresh, key, value, charge⟩])
    (hy : y ∈ Lru.State.others key (abstract w order).items
      ++ [⟨w.cache.fresh, key, value, charge⟩])
    (hid : x.id = y.id) : x = y := by
  have hold : ∀ z ∈ Lru.State.others key (abstract w order).items,
      ∃ e ∈ order, z = w.cache.item e ∧ e < w.cache.fresh := by
    intro z hz
    obtain ⟨e, he, rfl⟩ := List.mem_map.mp (List.mem_of_mem_filter hz)
    exact ⟨e, he, rfl, (h.counts.alloc e (List.mem_append_right _ he)).2⟩
  rcases List.mem_append.mp hx with hx | hx
  · obtain ⟨e, he, rfl, hlt⟩ := hold x hx
    rcases List.mem_append.mp hy with hy | hy
    · obtain ⟨e', he', rfl, -⟩ := hold y hy
      obtain rfl : e = e' := hid
      rfl
    · rw [List.mem_singleton.mp hy] at hid
      exact absurd hid (Nat.ne_of_lt hlt)
  · rcases List.mem_append.mp hy with hy | hy
    · obtain ⟨e, he, rfl, hlt⟩ := hold y hy
      rw [List.mem_singleton.mp hx] at hid
      exact absurd hid.symm (Nat.ne_of_lt hlt)
    · rw [List.mem_singleton.mp hx, List.mem_singleton.mp hy]

/-- **One `Insert`**: the eviction spares what is held exactly if there is room. -/
theorem spares_iff_room (h : Inv hash w.cache order w.unreleased)
    (h' : Inv hash w'.cache order' w'.unreleased) {key : Bytes} {value charge : ℕ}
    (heq : (abstract w order).insert capacity key value charge = abstract w' order') :
    Spares w w' key ↔ Lru.Room capacity (abstract w order) (.insert key value charge) := by
  rw [Lru.room_iff (distinct_abstract h), heq]
  constructor
  · rintro ⟨hnew, hheld⟩ y hy hyheld
    have hin : w'.cache.InTable y.id := by
      rcases List.mem_append.mp hy with hy' | hy'
      · obtain ⟨e, he, rfl⟩ := List.mem_map.mp (List.mem_of_mem_filter hy')
        have hlt := (h.counts.alloc e (List.mem_append_right _ he)).2
        have hmem : e ∈ w.unreleased := by
          rcases List.mem_cons.mp hyheld with heq' | hmem
          · exact absurd (congrArg Lru.Item.id heq') (Nat.ne_of_lt hlt)
          · obtain ⟨e', he', heq'⟩ := List.mem_map.mp hmem
            rwa [← w.cache.item_injective heq']
        exact hheld e hmem ((h.inTable_iff e).mpr he) (of_decide_eq_true (List.mem_filter.mp hy').2)
      · rw [List.mem_singleton.mp hy']
        exact hnew
    obtain ⟨z, hz, hid⟩ := (inTable_iff_mem h' y.id).mp hin
    have hz' : z ∈ ((abstract w order).insert capacity key value charge).items := heq ▸ hz
    obtain rfl := eq_of_id h ((Lru.evict_suffix _ _ _).subset hz') hy hid
    exact hz
  · intro hall
    constructor
    · refine (inTable_iff_mem h' _).mpr ⟨_, hall _ ?_ List.mem_cons_self, rfl⟩
      exact List.mem_append_right _ (List.mem_singleton_self _)
    · intro e he hin hkey
      have hitem : w.cache.item e ∈ (abstract w order).items :=
        List.mem_map_of_mem ((h.inTable_iff e).mp hin)
      refine (inTable_iff_mem h' e).mpr ⟨w.cache.item e, hall _ ?_ ?_, rfl⟩
      · exact List.mem_append_left _ (List.mem_filter.mpr ⟨hitem, decide_eq_true hkey⟩)
      · exact List.mem_cons_of_mem _ (List.mem_map_of_mem he)

/-- A `Lookup` finds the entry that the list has. -/
theorem lookup_of_mem (h : Inv hash w.cache order w.unreleased) {e : ℕ} (he : e ∈ order) :
    ∃ c', w.cache.lookup (w.cache.entry e).key (hash (w.cache.entry e).key)
      = some (some e, c') := by
  rcases h.lookup (w.cache.entry e).key with ⟨e', he', next', prev', -, hkey, hlook, -⟩ | ⟨-, hnone⟩
  · obtain rfl := h.table.eq_of_key he' he hkey
    exact ⟨_, hlook⟩
  · exact absurd rfl (hnone e he)

/-- **Held entries stay in the cache exactly as long as there is room.** In every state of a run,
the eviction after an `Insert` spares them if and only if there is room then; and after a run in
which each `Insert` finds room, a `Lookup` of the key of a held entry finds it, unless it has been
erased or replaced. -/
theorem pinned_of_room (hash : Bytes → ℕ) (capacity : ℕ) {ops : List Op}
    (hsum : (ops.map Op.charge).sum < 2 ^ 64)
    (hok : Along capacity (fun s op => Proper s op ∧ Narrow s op) .empty ops) :
    ∃ found w, run hash ⟨new capacity, []⟩ ops = some (found, w) ∧
      (∀ key value charge deleter, (ops.map Op.charge).sum + charge < 2 ^ 64 →
        w.cache.elems < 2 ^ 31 →
        ∃ w', step hash w (.insert key value charge deleter) = some w' ∧
          (Spares w w' key ↔ Lru.Room capacity
            (Lru.run capacity .empty (ops.map Op.abstract)).2 (.insert key value charge))) ∧
      (Along capacity (fun s op => Lru.Room capacity s op.abstract) .empty ops →
        ∀ e ∈ w.unreleased, (∀ x ∈ replacedAlong capacity .empty ops, x.id ≠ e) →
          ∃ c', w.cache.lookup (w.cache.entry e).key (hash (w.cache.entry e).key)
            = some (some e, c')) := by
  have hnew := refines_new hash capacity hsum
  rw [← List.append_nil ops] at hnew
  obtain ⟨w, hrun, h⟩ := hnew.run hok
  obtain ⟨order, hinv, habs⟩ := h.inv
  refine ⟨_, w, hrun, fun key value charge deleter hcharge helems => ?_, fun hroom e he hnot => ?_⟩
  · -- the same run, with the `Insert` still to come
    have hsum' : ((ops ++ [Op.insert key value charge deleter]).map Op.charge).sum < 2 ^ 64 := by
      rw [List.map_append, List.sum_append]
      exact hcharge
    obtain ⟨w₁, hrun₁, h₁⟩ := (refines_new hash capacity hsum').run hok
    obtain rfl : w = w₁ := (Prod.mk.inj (Option.some.inj (hrun.symm.trans hrun₁))).2
    rw [habs] at h₁ ⊢
    have hfew : (abstract w order).items.length < 2 ^ 31 := by
      rw [abstract, List.length_map, ← hinv.table.elems]
      exact helems
    obtain ⟨w', hstep, h'⟩ := h₁.insert hfew
    obtain ⟨order', hinv', habs'⟩ := h'.inv
    refine ⟨w', ?_, spares_iff_room hinv hinv' habs'⟩
    rw [stepValue, Option.bind_eq_bind, Option.bind_eq_some_iff] at hstep
    obtain ⟨w₂, hstep, heq⟩ := hstep
    rw [hstep, (Prod.mk.inj (Option.some.inj heq)).2]
  · have hspared : Lru.Spared (.empty : Lru.State Bytes ℕ) [] := fun x hx => by cases hx
    have hdistinct : Lru.Distinct (.empty : Lru.State Bytes ℕ) := List.nodup_nil
    replace hspared := spared_run hspared hdistinct hroom
    rw [List.append_nil, habs] at hspared
    have hitem := hspared (w.cache.item e) (List.mem_map_of_mem he) fun hmem => hnot _ hmem rfl
    obtain ⟨e', he', heq⟩ := List.mem_map.mp hitem
    obtain rfl := w.cache.item_injective heq
    exact lookup_of_mem hinv he'

/-- Room for two: the second `Insert` leaves the first entry alone. -/
theorem pinned_of_room_two :
    ∃ found w c', run (fun _ => 0) ⟨new 2, []⟩ [.insert [1] 10 1 0, .insert [2] 20 1 0]
        = some (found, w) ∧ 1 ∈ w.unreleased ∧ w.cache.lookup [1] 0 = some (some 1, c') := by
  obtain ⟨found, w, hrun, -, hkept⟩ := @pinned_of_room (fun _ => 0) 2
    [.insert [1] 10 1 0, .insert [2] 20 1 0] (by decide) (by
      simp only [Along, Proper, Narrow, Op.abstract]
      decide)
  have hw := (Prod.mk.inj (Option.some.inj hrun)).2
  have hmem : 1 ∈ w.unreleased := by
    rw [← hw]
    decide
  have hkey : (w.cache.entry 1).key = [1] := by
    rw [← hw]
    rfl
  obtain ⟨c', hlook⟩ := hkept (by
    simp only [Along, Lru.Room, Op.abstract]
    decide) 1 hmem (by decide)
  rw [hkey] at hlook
  exact ⟨found, w, c', hrun, hmem, hlook⟩

/-- **A held entry that is evicted**: with room for one, the second `Insert` drives out both
entries, and the key of the first is not found although its handle has not been released. -/
theorem not_pinned :
    ∃ found w, run (fun _ => 0) ⟨new 1, []⟩ [.insert [1] 10 1 0, .insert [2] 20 1 0]
        = some (found, w) ∧ w.unreleased = [2, 1] ∧
      (∀ x ∈ replacedAlong 1 .empty [.insert [1] 10 1 0, .insert [2] 20 1 0], x.id ≠ 1) ∧
      (w.cache.lookup [1] 0).map Prod.fst = some none :=
  ⟨_, _, rfl, rfl, by decide, rfl⟩

end LRUCache

end Squirrel
