import Squirrel.Db.SkipListLevels

/-!
# Linking a node, level by level

The last loop of `Insert` links a new node at one level after another, with one load and two stores
at each. `Linking` describes the memory between any two of these, with the node linked at its first
`i` levels; the three lemmas say what the load finds and what each store does. The sequential and
the concurrent model both rest on them.

## Main results

* `Linking.load`, `Linking.storeOwn`, `Linking.publish` — one round of the loop
-/

namespace Squirrel

namespace SkipList

open Std

variable {K : Type} [Inhabited K] {cmp : K → K → Ordering} {s : SkipList K} {order : List ℕ}
  {linked : ℕ → ℕ}

variable (cmp) in
@[simp] theorem before_setNext (s : SkipList K) (x level : ℕ) (y : Option ℕ) (k : K) :
    before cmp (s.setNext x level y) k = before cmp s k := by
  funext n
  rw [before, before, key_setNext]

variable (cmp) in
/-- A node under insertion: its key, its height, and where it is to go. -/
structure Linking (s : SkipList K) (order : List ℕ) (linked : ℕ → ℕ) (x : ℕ) (k : K) (height : ℕ)
    (prev : ℕ → Option ℕ) (i : ℕ) : Prop where
  levels : Levels cmp s order linked
  alloc : 0 < x ∧ x < s.nodes.length
  key_eq : s.key x = k
  height_eq : s.height x = height
  height_le : height ≤ s.maxHeight
  prev_eq : ∀ j < height, prev j = some (prevOf order linked (before cmp s k) j)
  /-- Before the first level is linked, the node is not in the list and has no equal there. -/
  fresh : i = 0 → x ∉ order ∧ (∀ n ∈ order, cmp (s.key n) k ≠ .eq) ∧
    order.length + 1 < s.nodes.length
  /-- Then it is linked at the levels below `i`. -/
  done : i ≠ 0 → x ∈ order ∧ linked x = i

namespace Linking

variable {x height i : ℕ} {k : K} {prev : ℕ → Option ℕ}

/-- What is loaded from the node in front. -/
theorem load (h : Linking cmp s order linked x k height prev i) (hi : i < height) :
    ∃ v, s.next (prevOf order linked (before cmp s k) i) i = some v := by
  have hik : i < kMaxHeight := (hi.trans_le h.height_le).trans_le h.levels.maxHeight.2
  have hmem : prevOf order linked (before cmp s k) i ∈ 0 :: order ∧
      i < linked (prevOf order linked (before cmp s k) i) := by
    rw [prevOf]
    cases hl : (order.filter (before cmp s k)).filter fun n => i < linked n with
    | nil => exact ⟨List.mem_cons_self, by rw [List.getLastD_nil, h.levels.head]; exact hik⟩
    | cons a l =>
      have hlast : (a :: l).getLastD 0 ∈ a :: l := by
        rw [List.getLastD_cons, List.getLastD_eq_getLast?]
        cases l with
        | nil => exact List.mem_cons_self
        | cons b l =>
          rw [List.getLast?_eq_some_getLast (List.cons_ne_nil b l)]
          exact List.mem_cons_of_mem a (List.getLast_mem _)
      rw [← hl] at hlast ⊢
      obtain ⟨hmem, hlt⟩ := List.mem_filter.mp hlast
      exact ⟨List.mem_cons_of_mem 0 (List.mem_filter.mp hmem).1, by simpa using hlt⟩
  exact ⟨_, (h.levels.chain_of_mem hmem.1 hmem.2).next_eq⟩

/-- The store to the node's own slot. -/
theorem storeOwn (h : Linking cmp s order linked x k height prev i) (hi : i < height)
    (v : Option ℕ) :
    Linking cmp (s.setNext x i v) order linked x k height prev i ∧
      (s.setNext x i v).next x i = some v := by
  have hslot : i < s.height x := by rw [h.height_eq]; exact hi
  have hout : x ∈ 0 :: order → linked x ≤ i := by
    intro hmem
    have hx0 : x ≠ 0 := Nat.pos_iff_ne_zero.mp h.alloc.1
    rcases Nat.eq_zero_or_pos i with rfl | hpos
    · exact absurd ((List.mem_cons.mp hmem).resolve_left hx0) (h.fresh rfl).1
    · exact (h.done (Nat.pos_iff_ne_zero.mp hpos)).2.le
  refine ⟨⟨h.levels.setNext_own h.alloc.2 hslot hout v,
    by simpa using h.alloc, by simpa using h.key_eq, by simpa using h.height_eq, h.height_le, by
      simpa using h.prev_eq, by simpa using h.fresh, h.done⟩, ?_⟩
  rw [next_setNext h.alloc.2 hslot, if_pos ⟨rfl, rfl⟩]

variable [TransCmp cmp]

/-- **The store that publishes** the node at one more level. -/
theorem publish (h : Linking cmp s order linked x k height prev i) (hi : i < height)
    (hnext : s.next x i = s.next (prevOf order linked (before cmp s k) i) i) :
    ∃ order' linked', Linking cmp (s.setNext (prevOf order linked (before cmp s k) i) i (some x))
        order' linked' x k height prev (i + 1) ∧
      linked' = Function.update linked x (i + 1) ∧
      order' = if i = 0 then
          order.filter (before cmp s k) ++ x :: order.filter fun n => !before cmp s k n
        else order := by
  have hx0 : x ≠ 0 := Nat.pos_iff_ne_zero.mp h.alloc.1
  have hself : before cmp s k x = false := by
    have heq : cmp (s.key x) (s.key x) = .eq := ReflCmp.compare_self
    rw [h.key_eq] at heq
    simp [before, h.key_eq, heq]
  rcases Nat.eq_zero_or_pos i with rfl | hpos
  · obtain ⟨hxo, hne, hsize⟩ := h.fresh rfl
    have hx : x ∉ 0 :: order := by
      rw [List.mem_cons, not_or]
      exact ⟨hx0, hxo⟩
    have hlevels := h.levels.link_bottom hx h.alloc.2 (by rw [h.key_eq]; exact hne) hsize
      (by rw [h.key_eq]; exact hnext)
    rw [h.key_eq] at hlevels
    refine ⟨_, _,
      ⟨hlevels, by simpa using h.alloc, by simpa using h.key_eq, by
        simpa using h.height_eq, h.height_le, fun j hj => ?_, fun hc => absurd hc (by simp),
        fun _ => ⟨by simp, by simp⟩⟩, rfl,
      by rw [if_pos rfl]⟩
    rw [before_setNext, prevOf_update _ _ hself, prevOf_insert _ _ hself]
    exact h.prev_eq j hj
  · obtain ⟨hmem, hlinked⟩ := h.done (Nat.pos_iff_ne_zero.mp hpos)
    have hlevels := h.levels.link_above hmem hlinked (hi.trans_le h.height_le)
      (by rw [h.key_eq]; exact hnext)
    rw [h.key_eq] at hlevels
    refine ⟨_, _,
      ⟨hlevels, by simpa using h.alloc, by simpa using h.key_eq, by
        simpa using h.height_eq, h.height_le, fun j hj => ?_, fun hc => absurd hc (by simp),
        fun _ => ⟨hmem, by simp⟩⟩, rfl,
      by rw [if_neg (Nat.pos_iff_ne_zero.mp hpos)]⟩
    rw [before_setNext, prevOf_update _ _ hself]
    exact h.prev_eq j hj

end Linking

end SkipList

end Squirrel
