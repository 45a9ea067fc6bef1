import Mathlib.Algebra.BigOperators.Group.Finset.Basic
import Mathlib.Algebra.Order.BigOperators.Group.Finset

/-!
# Least recently used

A map that forgets. Its items are listed by when they were last used, the oldest first. Whoever
looks an item up holds it until it is released, and an item that is held counts even when it is no
longer in the map. When an insertion makes the total charge of all that counts too large, items go
from the old end of the list, until there is room or nothing is left.

Items carry the number of their insertion, so that two of them are never equal.

## Main definitions

* `Lru.evict`, `Lru.State`, `Lru.step`, `Lru.run`

## Main results

* `Lru.evict_keeps_held_iff` — when eviction spares what is held
* `Lru.Spared.step` — if it does, what is held stays in the map unless it is erased or replaced
-/

namespace Squirrel

namespace Lru

/-- Something that has been inserted. -/
structure Item (κ ν : Type) where
  id : ℕ
  key : κ
  value : ν
  charge : ℕ
  deriving DecidableEq

variable {κ ν : Type} [DecidableEq κ] [DecidableEq ν] {capacity : ℕ} {held items : List (Item κ ν)}
  {x : Item κ ν}

/-! ### Eviction -/

/-- The charge of some items, each counted once. -/
def total (l : List (Item κ ν)) : ℕ := ∑ x ∈ l.toFinset, x.charge

theorem total_mono {l l' : List (Item κ ν)} (h : l ⊆ l') : total l ≤ total l' :=
  Finset.sum_le_sum_of_subset fun x hx => by
    rw [List.mem_toFinset] at hx ⊢
    exact h hx

/-- What is left of the items when the oldest have gone. -/
def evict (capacity : ℕ) (held : List (Item κ ν)) : List (Item κ ν) → List (Item κ ν)
  | [] => []
  | x :: items =>
    if capacity < total (held ++ x :: items) then evict capacity held items else x :: items

theorem evict_suffix (capacity : ℕ) (held items : List (Item κ ν)) :
    evict capacity held items <:+ items := by
  induction items with
  | nil => exact List.suffix_refl _
  | cons x items ih =>
    rw [evict]
    split
    · exact ih.trans (List.suffix_cons x items)
    · exact List.suffix_refl _

/-- **When eviction spares what is held**: what is held fits, together with all that has been used
since the oldest item that is held. -/
theorem evict_keeps_held_iff (hnodup : items.Nodup) (hx : x ∈ items) (hheld : x ∈ held) :
    (∀ y ∈ items, y ∈ held → y ∈ evict capacity held items) ↔
      total (held ++ items.dropWhile (· ∉ held)) ≤ capacity := by
  induction items with
  | nil => cases hx
  | cons y items ih =>
    obtain ⟨hy, hnodup'⟩ := List.nodup_cons.mp hnodup
    rw [evict]
    by_cases hyheld : y ∈ held
    · -- the oldest item is held: it has to stay
      rw [List.dropWhile_cons_of_neg (by simpa using hyheld)]
      split
      · next hover =>
        refine ⟨fun hall => ?_, fun hle => absurd hover (Nat.not_lt.mpr hle)⟩
        exact absurd ((evict_suffix _ _ _).subset (hall y List.mem_cons_self hyheld)) hy
      · next hover => exact ⟨fun _ => Nat.le_of_not_lt hover, fun _ z hz _ => hz⟩
    · rw [List.dropWhile_cons_of_pos (by simpa using hyheld)]
      have hx' : x ∈ items := by
        rcases List.mem_cons.mp hx with rfl | hx
        · exact absurd hheld hyheld
        · exact hx
      split
      · rw [← ih hnodup' hx']
        refine ⟨fun hall z hz => hall z (List.mem_cons_of_mem y hz), fun hall z hz hzheld => ?_⟩
        rcases List.mem_cons.mp hz with rfl | hz
        · exact absurd hzheld hyheld
        · exact hall z hz hzheld
      · next hover =>
        refine ⟨fun _ => ?_, fun _ z hz _ => hz⟩
        refine (total_mono ?_).trans (Nat.le_of_not_lt hover)
        exact List.append_subset.mpr ⟨List.subset_append_left _ _, fun z hz =>
          List.mem_append_right _ (List.mem_cons_of_mem y ((List.dropWhile_suffix _).subset hz))⟩

/-! ### The map -/

/-- A map with what is held of it. -/
structure State (κ ν : Type) where
  /-- What is in the map, oldest first. -/
  items : List (Item κ ν)
  /-- What has been looked up or inserted and not released. -/
  held : List (Item κ ν)
  /-- The number of the next insertion. -/
  next : ℕ

def State.empty : State κ ν := ⟨[], [], 1⟩

inductive Op (κ ν : Type)
  | insert (key : κ) (value : ν) (charge : ℕ)
  | lookup (key : κ)
  | release (id : ℕ)
  | erase (key : κ)

namespace State

/-- The items under other keys. -/
def others (key : κ) (items : List (Item κ ν)) : List (Item κ ν) :=
  items.filter fun x => x.key ≠ key

def insert (capacity : ℕ) (s : State κ ν) (key : κ) (value : ν) (charge : ℕ) : State κ ν :=
  let x : Item κ ν := ⟨s.next, key, value, charge⟩
  ⟨evict capacity (x :: s.held) (others key s.items ++ [x]), x :: s.held, s.next + 1⟩

/-- The item under a key. -/
def find (s : State κ ν) (key : κ) : Option (Item κ ν) := s.items.find? fun x => x.key = key

/-- What is found becomes the newest item, and is held. -/
def lookup (s : State κ ν) (key : κ) : Option ν × State κ ν :=
  match s.find key with
  | none => (none, s)
  | some x => (some x.value, { s with items := s.items.erase x ++ [x], held := x :: s.held })

def release (s : State κ ν) (id : ℕ) : State κ ν :=
  { s with held := s.held.eraseP fun x => x.id = id }

def erase (s : State κ ν) (key : κ) : State κ ν := { s with items := others key s.items }

end State

/-- One operation: what `lookup` found, and the map afterwards. -/
def step (capacity : ℕ) (s : State κ ν) : Op κ ν → Option ν × State κ ν
  | .insert key value charge => (none, s.insert capacity key value charge)
  | .lookup key => s.lookup key
  | .release id => (none, s.release id)
  | .erase key => (none, s.erase key)

/-! ### What is held stays in the map -/

variable {s : State κ ν} {op : Op κ ν}

/-- The keys of the items are distinct. -/
def Distinct (s : State κ ν) : Prop := (s.items.map Item.key).Nodup

omit [DecidableEq ν] in
theorem Distinct.find_eq (h : Distinct s) (hx : x ∈ s.items) : s.find x.key = some x := by
  cases hfind : s.find x.key with
  | none => exact absurd (decide_eq_true rfl) (List.find?_eq_none.mp hfind x hx)
  | some y =>
    have hkey := List.find?_some hfind
    rw [decide_eq_true_iff] at hkey
    rw [List.inj_on_of_nodup_map h (List.mem_of_find?_eq_some hfind) hx hkey]

omit [DecidableEq ν] in
theorem Distinct.others_concat (h : Distinct s) (x : Item κ ν) :
    ((State.others x.key s.items ++ [x]).map Item.key).Nodup := by
  rw [List.map_append, List.map_singleton, ← List.concat_eq_append, List.nodup_concat]
  constructor
  · rw [List.mem_map]
    rintro ⟨y, hy, heq⟩
    exact of_decide_eq_true (List.mem_filter.mp hy).2 heq
  · exact List.Nodup.sublist (List.filter_sublist.map _) h

theorem Distinct.step (h : Distinct s) (capacity : ℕ) (op : Op κ ν) :
    Distinct (Lru.step capacity s op).2 := by
  cases op with
  | insert key value charge =>
    exact List.Nodup.sublist ((evict_suffix _ _ _).sublist.map _)
      (h.others_concat ⟨s.next, key, value, charge⟩)
  | lookup key =>
    change Distinct (s.lookup key).2
    rw [State.lookup]
    cases hfind : s.find key with
    | none => exact h
    | some x =>
      have hperm : (s.items.erase x ++ [x]).Perm s.items :=
        (List.perm_append_singleton x _).trans
          (List.perm_cons_erase (List.mem_of_find?_eq_some hfind)).symm
      exact (hperm.map Item.key).nodup_iff.mpr h
  | release id => exact h
  | erase key => exact List.Nodup.sublist (List.filter_sublist.map _) h

/-- There is room for what an operation inserts: with what is held, and with all that has been used
since the oldest item that is held, it fits. -/
def Room (capacity : ℕ) (s : State κ ν) : Op κ ν → Prop
  | .insert key value charge =>
    let x : Item κ ν := ⟨s.next, key, value, charge⟩
    total ((x :: s.held) ++ (State.others key s.items ++ [x]).dropWhile (· ∉ x :: s.held))
      ≤ capacity
  | .lookup _ => True
  | .release _ => True
  | .erase _ => True

/-- The items that an operation takes out of the map because of their key. -/
def replaced (s : State κ ν) : Op κ ν → List (Item κ ν)
  | .insert key _ _ => (s.find key).toList
  | .lookup _ => []
  | .release _ => []
  | .erase key => (s.find key).toList

/-- What is held is in the map, but for the items `gone`. -/
def Spared (s : State κ ν) (gone : List (Item κ ν)) : Prop :=
  ∀ x ∈ s.held, x ∉ gone → x ∈ s.items

/-- **There is room exactly if eviction spares what is held.** -/
theorem room_iff (h : Distinct s) (key : κ) (value : ν) (charge : ℕ) :
    Room capacity s (.insert key value charge) ↔
      ∀ y ∈ State.others key s.items ++ [⟨s.next, key, value, charge⟩],
        y ∈ ⟨s.next, key, value, charge⟩ :: s.held →
          y ∈ (s.insert capacity key value charge).items :=
  (evict_keeps_held_iff (h.others_concat ⟨s.next, key, value, charge⟩).of_map
    (List.mem_append_right _ (List.mem_singleton_self _)) List.mem_cons_self).symm

omit [DecidableEq ν] in
/-- An item that is in the map and has not been replaced has another key. -/
theorem Distinct.mem_others (h : Distinct s) {key : κ} (hx : x ∈ s.items)
    (hnot : x ∉ (s.find key).toList) : x ∈ State.others key s.items := by
  refine List.mem_filter.mpr ⟨hx, decide_eq_true ?_⟩
  rintro rfl
  rw [h.find_eq hx] at hnot
  exact hnot (List.mem_singleton_self x)

theorem Spared.step {gone : List (Item κ ν)} (h : Spared s gone) (hd : Distinct s)
    (hroom : Room capacity s op) :
    Spared (Lru.step capacity s op).2 (replaced s op ++ gone) := by
  intro x hx hnot
  rw [List.mem_append, not_or] at hnot
  obtain ⟨hreplaced, hgone⟩ := hnot
  cases op with
  | insert key value charge =>
    refine (room_iff hd key value charge).mp hroom x ?_ hx
    rcases List.mem_cons.mp hx with rfl | hx
    · exact List.mem_append_right _ (List.mem_singleton_self _)
    · exact List.mem_append_left _ (hd.mem_others (h x hx hgone) hreplaced)
  | lookup key =>
    change x ∈ (s.lookup key).2.held at hx
    change x ∈ (s.lookup key).2.items
    rw [State.lookup] at hx ⊢
    cases hfind : s.find key with
    | none =>
      rw [hfind] at hx
      exact h x hx hgone
    | some y =>
      rw [hfind] at hx
      have hperm : s.items.Perm (s.items.erase y ++ [y]) :=
        (List.perm_cons_erase (List.mem_of_find?_eq_some hfind)).trans
          (List.perm_append_singleton y _).symm
      rcases List.mem_cons.mp hx with rfl | hx
      · exact List.mem_append_right _ (List.mem_singleton_self _)
      · exact hperm.subset (h x hx hgone)
  | release id => exact h x (List.mem_of_mem_eraseP hx) hgone
  | erase key => exact hd.mem_others (h x hx hgone) hreplaced

/-- Some operations, and what each found. -/
def run (capacity : ℕ) (s : State κ ν) : List (Op κ ν) → List (Option ν) × State κ ν
  | [] => ([], s)
  | op :: ops =>
    let (found, s) := step capacity s op
    let (rest, s) := run capacity s ops
    (found :: rest, s)

end Lru

end Squirrel
