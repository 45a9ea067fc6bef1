import Squirrel.Lib.Cursor

/-!
# Sorted sets with iterators

A set as the list of its items in order, which grows while iterators stand at its items. Where an
item is in the list changes when others are inserted, so an iterator remembers the item and not its
index.

`lt` is the order of the items, and `before` says which items come before a target of a seek.
Neither is asked for more than a result needs.

## Main results

* `SortedSet.insertItem_sorted` — a new item leaves the list in order
* `SortedSet.insertItem_map`, `SortedSet.move_map` — the same under another representation of the
  items
-/

namespace Squirrel

/-- The items in order, and those at which the iterators stand. -/
structure SortedSet (α : Type*) where
  items : List α
  pos : ℕ → Option α

namespace SortedSet

variable {α β κ κ' : Type*}

def empty : SortedSet α := ⟨[], fun _ => none⟩

/-- A new item goes between the ones below it and the others. -/
def insertItem (lt : α → α → Bool) (items : List α) (a : α) : List α :=
  items.filter (fun b => lt b a) ++ a :: items.filter fun b => !lt b a

/-- Where an operation takes an iterator. -/
def move (before : α → κ → Bool) (lt : α → α → Bool) (items : List α) (pos : Option α) :
    Cursor.Op κ → Option (Option α)
  | .seek target => some (items.find? fun a => !before a target)
  | .seekToFirst => some items.head?
  | .seekToLast => some items.getLast?
  | .next => pos.map fun a => items.find? fun b => lt a b
  | .prev => pos.map fun a => (items.filter fun b => lt b a).getLast?

variable {lt : α → α → Bool} {lt' : β → β → Bool} {before : α → κ → Bool} {before' : β → κ' → Bool}

theorem insertItem_perm (lt : α → α → Bool) (items : List α) (a : α) :
    (insertItem lt items a).Perm (a :: items) :=
  List.perm_middle.trans ((List.filter_append_perm _ items).cons a)

theorem mem_insertItem {items : List α} {a b : α} :
    b ∈ insertItem lt items a ↔ b = a ∨ b ∈ items := by
  rw [(insertItem_perm lt items a).mem_iff, List.mem_cons]

theorem insertItem_map (f : β → α) {items : List β} {a : β}
    (hlt : ∀ b ∈ items, lt (f b) (f a) = lt' b a) :
    insertItem lt (items.map f) (f a) = (insertItem lt' items a).map f := by
  rw [insertItem, insertItem, List.filter_map, List.filter_map, List.map_append, List.map_cons]
  congr 2
  · exact List.filter_congr hlt
  · congr 1
    exact List.filter_congr fun b hb => by simp [hlt b hb]

theorem move_map (f : β → α) (g : κ' → κ) {items : List β} {pos : Option β} {op : Cursor.Op κ'}
    (hbefore : ∀ target, op = .seek target →
      ∀ b ∈ items, before (f b) (g target) = before' b target)
    (hlt : ∀ a ∈ pos, ∀ b ∈ items, lt (f a) (f b) = lt' a b ∧ lt (f b) (f a) = lt' b a) :
    move before lt (items.map f) (pos.map f) (op.map g)
      = (move before' lt' items pos op).map (Option.map f) := by
  have hfind : ∀ {p : α → Bool} {q : β → Bool}, (∀ b ∈ items, p (f b) = q b) →
      (items.map f).find? p = (items.find? q).map f := by
    intro p q hpq
    rw [List.find?_map]
    congr 1
    rw [← List.head?_filter, ← List.head?_filter]
    exact congrArg List.head? (List.filter_congr hpq)
  cases op with
  | seek target =>
    refine congrArg some (hfind fun b hb => ?_)
    rw [hbefore target rfl b hb]
  | seekToFirst => exact congrArg some List.head?_map
  | seekToLast => exact congrArg some List.getLast?_map
  | next =>
    cases pos with
    | none => rfl
    | some a => exact congrArg some (hfind fun b hb => (hlt a rfl b hb).1)
  | prev =>
    cases pos with
    | none => rfl
    | some a =>
      refine congrArg some ?_
      change ((items.map f).filter fun b => lt b (f a)).getLast?
        = ((items.filter fun b => lt' b a).getLast?).map f
      rw [List.filter_map, List.getLast?_map]
      congr 2
      exact List.filter_congr fun b hb => (hlt a rfl b hb).2

/-- An iterator is taken to an item. -/
theorem mem_of_move {items : List α} {pos pos' : Option α} {op : Cursor.Op κ}
    (h : move before lt items pos op = some pos') {a : α} (ha : pos' = some a) : a ∈ items := by
  subst ha
  cases op with
  | seek target => exact List.mem_of_find?_eq_some (Option.some.inj h)
  | seekToFirst => exact List.mem_of_mem_head? (Option.some.inj h)
  | seekToLast => exact List.mem_of_getLast? (Option.some.inj h)
  | next =>
    obtain ⟨b, -, hb⟩ := Option.map_eq_some_iff.mp h
    exact List.mem_of_find?_eq_some hb
  | prev =>
    obtain ⟨b, -, hb⟩ := Option.map_eq_some_iff.mp h
    exact (List.mem_filter.mp (List.mem_of_getLast? hb)).1

/-! ### The order of a comparator -/

section

open Std

variable {cmp : α → α → Ordering}

def below (cmp : α → α → Ordering) (a b : α) : Bool := cmp a b = .lt

@[simp] theorem below_iff {a b : α} : below cmp a b = true ↔ cmp a b = .lt := decide_eq_true_iff

/-- A new item, equal to none, leaves the list in order. -/
theorem insertItem_sorted [TransCmp cmp] {items : List α} {a : α}
    (hnew : ∀ b ∈ items, cmp b a ≠ .eq) (hsorted : items.Pairwise fun x y => cmp x y = .lt) :
    (insertItem (below cmp) items a).Pairwise fun x y => cmp x y = .lt := by
  have hbelow : ∀ b ∈ items.filter fun b => below cmp b a, cmp b a = .lt := fun b hb => by
    simpa using (List.mem_filter.mp hb).2
  have habove : ∀ b ∈ items.filter fun b => !below cmp b a, cmp a b = .lt := by
    intro b hb
    obtain ⟨hmem, hnot⟩ := List.mem_filter.mp hb
    rw [Bool.not_eq_true', ← Bool.not_eq_true, below_iff] at hnot
    refine OrientedCmp.lt_of_gt ?_
    cases hcmp : cmp b a with
    | lt => exact absurd hcmp hnot
    | eq => exact absurd hcmp (hnew b hmem)
    | gt => rfl
  refine List.pairwise_append.mpr
    ⟨hsorted.filter _, List.pairwise_cons.mpr ⟨habove, hsorted.filter _⟩, ?_⟩
  intro x hx y hy
  rcases List.mem_cons.mp hy with rfl | hy
  · exact hbelow x hx
  · exact TransCmp.lt_trans (hbelow x hx) (habove y hy)

end

end SortedSet

end Squirrel
