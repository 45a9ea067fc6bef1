import Squirrel.Lib.Interleave
import Squirrel.Table.IteratorWrapper
import Mathlib.Data.List.Forall2

/-!
# The merging iterator

`MergingIterator` yields the union of its children's entries in order. It keeps no data of its own:
only where the children are, which of them is current, and the direction of the last move. While it
moves forward every other child is at its first entry behind the current key, while it moves in
reverse at its last entry before it, and a change of direction repositions all of them.

Both invariants are said in terms of one position `p` in the sorted union `U`, whose items remember
their child (`Interleave`). Going forward child `i` is at its rank at `p` (`forward`), in reverse at
the last of its entries among the first `p + 1` of `U` (`reverse`). Children may share a key: equal
keys come in the order of the children, in either direction. Only a change of direction steps over
entries of other children that are equal to the current key, so a cursor that may turn anywhere
needs keys of different children to differ (`Apart`).

A child may be any iterator. All that is asked is that it behaves as a cursor on a sorted list, from
wherever it is when it is handed over; that is also what the result promises, so merging iterators
can be nested.

## Main results

* `MergingIterator.next_of_forward`, `MergingIterator.prev_of_reverse` — a move in the direction of
  the last one
* `MergingIterator.next_of_reverse`, `MergingIterator.prev_of_forward` — a change of direction
* `MergingIterator.step_follows` — one operation, at any position and in either direction
* `MergingIterator.merging_behaves` — the merging iterator is a cursor on the sorted union
-/

namespace Squirrel

open Cursor Interleave

variable {σ κ ν : Type}

/-- Which way the iterator is moving. -/
inductive Direction
  | kForward
  | kReverse
  deriving DecidableEq

/-- The state of a `MergingIterator`; `current_` points into the array of children. -/
structure MergingIterator (σ κ : Type) where
  children : List (IteratorWrapper σ κ)
  current : Option ℕ
  direction : Direction

namespace MergingIterator

variable (cmp : κ → κ → Ordering) (I : Iterator σ κ ν)

/-- The constructor. -/
def new (children : List σ) : MergingIterator σ κ :=
  ⟨children.map (IteratorWrapper.update I), none, .kForward⟩

/-- `key`. -/
def key (m : MergingIterator σ κ) : Option κ := do
  let child ← m.children[← m.current]?
  child.key

/-- `value`. -/
def value (m : MergingIterator σ κ) : Option ν := do
  let child ← m.children[← m.current]?
  child.value I

/-- One step of the loops in `FindSmallest` and `FindLargest`: `best` is the best child so far,
with its key. -/
def pick (wanted : Ordering) (best : Option (ℕ × κ)) (child : IteratorWrapper σ κ × ℕ) :
    Option (ℕ × κ) :=
  match child.1.key, best with
  | none, best => best
  | some k, none => some (child.2, k)
  | some k, some (j, bestKey) =>
    if cmp k bestKey = wanted then some (child.2, k) else some (j, bestKey)

/-- `FindSmallest`. -/
def findSmallest (m : MergingIterator σ κ) : MergingIterator σ κ :=
  { m with current := (m.children.zipIdx.foldl (pick cmp .lt) none).map Prod.fst }

/-- `FindLargest` goes through the children in the opposite order. -/
def findLargest (m : MergingIterator σ κ) : MergingIterator σ κ :=
  { m with current := (m.children.zipIdx.reverse.foldl (pick cmp .gt) none).map Prod.fst }

/-- A loop over all children. -/
def forEach (f : IteratorWrapper σ κ × ℕ → Option (IteratorWrapper σ κ))
    (m : MergingIterator σ κ) : Option (MergingIterator σ κ) :=
  (m.children.zipIdx.mapM f).map fun children => { m with children }

/-- A loop over all children but the current one. -/
def forOthers (f : IteratorWrapper σ κ → Option (IteratorWrapper σ κ)) (m : MergingIterator σ κ) :
    Option (MergingIterator σ κ) :=
  m.forEach fun child => if m.current = some child.2 then some child.1 else f child.1

/-- Move the current child. -/
def moveCurrent (op : Op κ) (m : MergingIterator σ κ) : Option (MergingIterator σ κ) := do
  let c ← m.current
  let child ← (← m.children[c]?).step I op
  some { m with children := m.children.set c child }

/-- `SeekToFirst`. -/
def seekToFirst (m : MergingIterator σ κ) : Option (MergingIterator σ κ) := do
  let m ← m.forEach fun child => child.1.step I .seekToFirst
  some { m.findSmallest cmp with direction := .kForward }

/-- `SeekToLast`. -/
def seekToLast (m : MergingIterator σ κ) : Option (MergingIterator σ κ) := do
  let m ← m.forEach fun child => child.1.step I .seekToLast
  some { m.findLargest cmp with direction := .kReverse }

/-- `Seek`. -/
def seek (target : κ) (m : MergingIterator σ κ) : Option (MergingIterator σ κ) := do
  let m ← m.forEach fun child => child.1.step I (.seek target)
  some { m.findSmallest cmp with direction := .kForward }

/-- What `Next` does to another child when the direction changes. -/
def seekAfter (key : κ) (child : IteratorWrapper σ κ) : Option (IteratorWrapper σ κ) := do
  let child ← child.step I (.seek key)
  match child.key with
  | some k => if cmp key k = .eq then child.step I .next else some child
  | none => some child

/-- What `Prev` does to another child when the direction changes. -/
def seekBefore (key : κ) (child : IteratorWrapper σ κ) : Option (IteratorWrapper σ κ) := do
  let child ← child.step I (.seek key)
  match child.key with
  | some _ => child.step I .prev
  | none => child.step I .seekToLast

/-- `Next`. The loop does not move the current child, so `key()` is the same throughout. -/
def next (m : MergingIterator σ κ) : Option (MergingIterator σ κ) := do
  let key ← m.key
  let m ← if m.direction ≠ .kForward then
      (m.forOthers (seekAfter cmp I key)).map fun m => { m with direction := .kForward }
    else some m
  let m ← m.moveCurrent I .next
  some (m.findSmallest cmp)

/-- `Prev`. -/
def prev (m : MergingIterator σ κ) : Option (MergingIterator σ κ) := do
  let key ← m.key
  let m ← if m.direction ≠ .kReverse then
      (m.forOthers (seekBefore I key)).map fun m => { m with direction := .kReverse }
    else some m
  let m ← m.moveCurrent I .prev
  some (m.findLargest cmp)

/-- The iterator that users see. -/
def iterator : Iterator (MergingIterator σ κ) κ ν where
  step m
    | .seek target => m.seek cmp I target
    | .seekToFirst => m.seekToFirst cmp I
    | .seekToLast => m.seekToLast cmp I
    | .next => m.next cmp I
    | .prev => m.prev cmp I
  entry m := do some (← m.key, ← m.value I)

/-! ### Choosing a child -/

variable {cmp I}

theorem pick_of_none {wanted : Ordering} {best : Option (ℕ × κ)} {x : IteratorWrapper σ κ × ℕ}
    (h : x.1.key = none) : pick cmp wanted best x = best := by
  simp [pick, h]

theorem pick_of_first {wanted : Ordering} {x : IteratorWrapper σ κ × ℕ} {k : κ}
    (h : x.1.key = some k) : pick cmp wanted none x = some (x.2, k) := by
  simp [pick, h]

theorem pick_of_better {wanted : Ordering} {b : ℕ × κ} {x : IteratorWrapper σ κ × ℕ} {k : κ}
    (h : x.1.key = some k) (hcmp : cmp k b.2 = wanted) :
    pick cmp wanted (some b) x = some (x.2, k) := by
  simp [pick, h, hcmp]

theorem pick_of_worse {wanted : Ordering} {b : ℕ × κ} {x : IteratorWrapper σ κ × ℕ} {k : κ}
    (h : x.1.key = some k) (hcmp : cmp k b.2 ≠ wanted) :
    pick cmp wanted (some b) x = some b := by
  simp [pick, h, hcmp]

theorem foldl_pick_of_none {wanted : Ordering} {l : List (IteratorWrapper σ κ × ℕ)}
    (h : ∀ x ∈ l, x.1.key = none) : l.foldl (pick cmp wanted) none = none := by
  induction l with
  | nil => rfl
  | cons x l ih =>
    rw [List.foldl_cons, pick_of_none (h x List.mem_cons_self)]
    exact ih fun y hy => h y (List.mem_cons_of_mem x hy)

theorem foldl_pick_of_worse {wanted : Ordering} {b : ℕ × κ} {l : List (IteratorWrapper σ κ × ℕ)}
    (h : ∀ x ∈ l, ∀ k, x.1.key = some k → cmp k b.2 ≠ wanted) :
    l.foldl (pick cmp wanted) (some b) = some b := by
  induction l with
  | nil => rfl
  | cons x l ih =>
    have hx : pick cmp wanted (some b) x = some b := by
      cases hkey : x.1.key with
      | none => exact pick_of_none hkey
      | some k => exact pick_of_worse hkey (h x List.mem_cons_self k hkey)
    rw [List.foldl_cons, hx]
    exact ih fun y hy => h y (List.mem_cons_of_mem x hy)

/-- What the search has found so far is the key of a child. -/
theorem mem_of_foldl_pick {wanted : Ordering} {b : ℕ × κ} {l : List (IteratorWrapper σ κ × ℕ)}
    {best : Option (ℕ × κ)} (h : l.foldl (pick cmp wanted) best = some b) :
    best = some b ∨ ∃ x ∈ l, x.1.key = some b.2 := by
  induction l generalizing best with
  | nil => exact .inl h
  | cons x l ih =>
    rw [List.foldl_cons] at h
    rcases ih h with hbest | ⟨y, hy, hkey⟩
    · cases hkey : x.1.key with
      | none =>
        rw [pick_of_none hkey] at hbest
        exact .inl hbest
      | some k =>
        rcases best with _ | b'
        · rw [pick_of_first hkey] at hbest
          cases hbest
          exact .inr ⟨x, List.mem_cons_self, hkey⟩
        · by_cases hcmp : cmp k b'.2 = wanted
          · rw [pick_of_better hkey hcmp] at hbest
            cases hbest
            exact .inr ⟨x, List.mem_cons_self, hkey⟩
          · rw [pick_of_worse hkey hcmp] at hbest
            exact .inl hbest
    · exact .inr ⟨y, List.mem_cons_of_mem x hy, hkey⟩

/-- The search finds the child that is ahead of all before it, and that none after it is ahead
of. -/
theorem foldl_pick {wanted : Ordering} {c : ℕ} {k : κ} {w : IteratorWrapper σ κ}
    {l₁ l₂ : List (IteratorWrapper σ κ × ℕ)} (hw : w.key = some k)
    (hbefore : ∀ x ∈ l₁, ∀ k', x.1.key = some k' → cmp k k' = wanted)
    (hafter : ∀ x ∈ l₂, ∀ k', x.1.key = some k' → cmp k' k ≠ wanted) :
    (l₁ ++ (w, c) :: l₂).foldl (pick cmp wanted) none = some (c, k) := by
  have hself : pick cmp wanted (l₁.foldl (pick cmp wanted) none) (w, c) = some (c, k) := by
    cases hbest : l₁.foldl (pick cmp wanted) none with
    | none => exact pick_of_first (x := (w, c)) hw
    | some b =>
      rcases mem_of_foldl_pick hbest with h | ⟨x, hx, hkey⟩
      · cases h
      · exact pick_of_better (x := (w, c)) hw (hbefore x hx b.2 hkey)
  rw [List.foldl_append, List.foldl_cons, hself]
  exact foldl_pick_of_worse hafter

/-! ### Where the children are -/

variable (cmp I)

/-- The child `w` is at `pos` in the list `l`. -/
def ChildAt (l : List (κ × ν)) (w : IteratorWrapper σ κ) (pos : Option ℕ) : Prop :=
  w.StandsAt I (fun _ => True) (fun a k => cmp a.1 k = .lt) l pos

/-- There are `n` children, and child `i` is at `pos i` in its part of `U`. -/
structure Placed (U : List (ℕ × (κ × ν))) (n : ℕ) (children : List (IteratorWrapper σ κ))
    (pos : ℕ → Option ℕ) : Prop where
  length_eq : children.length = n
  childAt : ∀ i w, children[i]? = some w → ChildAt cmp I (part U i) w (pos i)

variable {cmp I} {U : List (ℕ × (κ × ν))} {n : ℕ} {children : List (IteratorWrapper σ κ)}
  {pos pos' : ℕ → Option ℕ} {l : List (κ × ν)} {w : IteratorWrapper σ κ} {at₀ : Option ℕ}

theorem mapM_zipIdx {α β : Type} {f : α × ℕ → Option β} {P : ℕ → β → Prop} (l : List α) (k : ℕ)
    (h : ∀ i a, l[i]? = some a → ∃ b, f (a, k + i) = some b ∧ P (k + i) b) :
    ∃ l', (l.zipIdx k).mapM f = some l' ∧ l'.length = l.length ∧
      ∀ i b, l'[i]? = some b → P (k + i) b := by
  induction l generalizing k with
  | nil => exact ⟨[], rfl, rfl, by simp⟩
  | cons a l ih =>
    obtain ⟨b, hb, hP⟩ := h 0 a rfl
    obtain ⟨l', hl', hlen, hP'⟩ := ih (k + 1) fun i a' ha' => by
      rw [Nat.add_assoc, Nat.add_comm 1 i]
      exact h (i + 1) a' ha'
    refine ⟨b :: l', ?_, by rw [List.length_cons, hlen, List.length_cons], ?_⟩
    · rw [List.zipIdx_cons, List.mapM_cons, ← Nat.add_zero k, hb, Nat.add_zero, hl']
      rfl
    · rintro (_ | i) b' hb'
      · cases hb'
        exact hP
      · have := hP' i b' hb'
        rwa [Nat.add_assoc, Nat.add_comm 1 i] at this

/-- A loop over the children moves them all, if it moves each. -/
theorem Placed.forEach {m : MergingIterator σ κ} (h : Placed cmp I U n m.children pos)
    (pos' : ℕ → Option ℕ) {f : IteratorWrapper σ κ × ℕ → Option (IteratorWrapper σ κ)}
    (hf : ∀ i w, m.children[i]? = some w → ChildAt cmp I (part U i) w (pos i) →
      ∃ w', f (w, i) = some w' ∧ ChildAt cmp I (part U i) w' (pos' i)) :
    ∃ children, m.forEach f = some { m with children } ∧ Placed cmp I U n children pos' := by
  obtain ⟨children, hmap, hlen, hat⟩ := mapM_zipIdx m.children 0 (f := f)
    (P := fun i w => ChildAt cmp I (part U i) w (pos' i)) fun i w hw => by
      rw [Nat.zero_add]
      exact hf i w hw (h.childAt i w hw)
  refine ⟨children, by rw [MergingIterator.forEach, hmap]; rfl, hlen.trans h.length_eq, ?_⟩
  intro i w hw
  rw [← Nat.zero_add i]
  exact hat i w hw

theorem Placed.forOthers {m : MergingIterator σ κ} (h : Placed cmp I U n m.children pos) {c : ℕ}
    (hc : m.current = some c) {f : IteratorWrapper σ κ → Option (IteratorWrapper σ κ)}
    (pos' : ℕ → Option ℕ) (hself : pos' c = pos c)
    (hf : ∀ i w, i ≠ c → ChildAt cmp I (part U i) w (pos i) →
      ∃ w', f w = some w' ∧ ChildAt cmp I (part U i) w' (pos' i)) :
    ∃ children, m.forOthers f = some { m with children } ∧ Placed cmp I U n children pos' := by
  refine h.forEach pos' fun i w _ hw => ?_
  by_cases hi : i = c
  · subst hi
    exact ⟨w, if_pos hc, hself ▸ hw⟩
  · rw [if_neg (by rw [hc]; exact fun h' => hi (Option.some.inj h').symm)]
    exact hf i w hi hw

theorem Placed.moveCurrent {m : MergingIterator σ κ} (h : Placed cmp I U n m.children pos) {c : ℕ}
    (hc : m.current = some c) (hn : c < n) (op : Op κ) (pos' : ℕ → Option ℕ)
    (hop : Cursor.step (fun a k => cmp a.1 k = .lt) (part U c) (pos c) op = some (pos' c))
    (hother : ∀ i, i ≠ c → pos' i = pos i) :
    ∃ children, m.moveCurrent I op = some { m with children } ∧ Placed cmp I U n children pos' := by
  have hlt : c < m.children.length := h.length_eq.symm ▸ hn
  have hget : m.children[c]? = some m.children[c] := List.getElem?_eq_getElem hlt
  obtain ⟨w', hw', hat⟩ := (h.childAt c _ hget).step hop
  refine ⟨m.children.set c w', ?_, by rw [List.length_set, h.length_eq], ?_⟩
  · simp [MergingIterator.moveCurrent, hc, hget, hw']
  · intro i w hw
    rw [List.getElem?_set] at hw
    split at hw
    · next heq =>
      subst heq
      cases hw
      exact hat
    · next hne =>
      rw [hother i (Ne.symm hne)]
      exact h.childAt i w hw

theorem Placed.exists_child (h : Placed cmp I U n children pos) {i : ℕ} (hi : i < n) :
    ∃ w, children[i]? = some w :=
  ⟨_, List.getElem?_eq_getElem (h.length_eq.symm ▸ hi)⟩

/-! ### The two invariants -/

/-- `U` is the sorted union of `n` lists. Where they share a key, the first list comes first. -/
structure IsUnion (cmp : κ → κ → Ordering) (U : List (ℕ × (κ × ν))) (n : ℕ) : Prop where
  sorted : U.Pairwise fun x y => cmp x.2.1 y.2.1 ≠ .gt
  ties : U.Pairwise fun x y => cmp x.2.1 y.2.1 = .eq → x.1 ≤ y.1
  tag_lt : ∀ x ∈ U, x.1 < n

/-- No two of the lists share a key. -/
def Apart (cmp : κ → κ → Ordering) (U : List (ℕ × (κ × ν))) : Prop :=
  ∀ x ∈ U, ∀ y ∈ U, x.1 ≠ y.1 → cmp x.2.1 y.2.1 ≠ .eq

/-- Going forward, each child is at its first entry at or behind position `p`. -/
def forward (U : List (ℕ × (κ × ν))) (p i : ℕ) : Option ℕ := place (part U i) (rank U i p)

/-- Going in reverse, each child is at its last entry before position `e`. -/
def reverse (U : List (ℕ × (κ × ν))) (e i : ℕ) : Option ℕ :=
  if rank U i e = 0 then none else some (rank U i e - 1)

theorem forward_getElem? (U : List (ℕ × (κ × ν))) (p i : ℕ) :
    ((forward U p i).bind fun j => (part U i)[j]?) = (part (U.drop p) i).head? := by
  rw [← part_getElem?_rank, forward, place]
  split
  · rfl
  · next h => rw [List.getElem?_eq_none (Nat.le_of_not_lt h)]; rfl

theorem reverse_getElem? (U : List (ℕ × (κ × ν))) (e i : ℕ) :
    ((reverse U e i).bind fun j => (part U i)[j]?) = (part (U.take e) i).getLast? := by
  rw [reverse]
  split
  · next h => rw [List.eq_nil_of_length_eq_zero h]; rfl
  · next h => exact part_getElem?_rank_sub_one h

variable {p c : ℕ} {a : κ × ν}

/-- What comes later is not smaller, and greater if it comes from an earlier child. -/
theorem IsUnion.of_mem_drop (hU : IsUnion cmp U n) (hp : U[p]? = some (c, a)) {i : ℕ}
    {b : κ × ν} (hb : (i, b) ∈ U.drop p) (hne : i ≠ c) :
    cmp a.1 b.1 ≠ .gt ∧ (cmp a.1 b.1 = .eq → c < i) := by
  obtain ⟨hlt, hget⟩ := List.getElem?_eq_some_iff.mp hp
  have hsorted := hU.sorted.sublist (List.drop_sublist p U)
  have hties := hU.ties.sublist (List.drop_sublist p U)
  rw [List.drop_eq_getElem_cons hlt, hget] at hsorted hties hb
  have hmem : (i, b) ∈ U.drop (p + 1) := by
    rcases List.mem_cons.mp hb with heq | hmem
    · exact absurd (Prod.mk.inj heq).1 hne
    · exact hmem
  refine ⟨(List.pairwise_cons.mp hsorted).1 _ hmem, fun heq => ?_⟩
  exact Nat.lt_of_le_of_ne ((List.pairwise_cons.mp hties).1 _ hmem heq) hne.symm

/-- What comes before is not greater, and smaller if it comes from a later child. -/
theorem IsUnion.of_mem_take (hU : IsUnion cmp U n) (hp : U[p]? = some (c, a)) {i : ℕ}
    {b : κ × ν} (hb : (i, b) ∈ U.take (p + 1)) (hne : i ≠ c) :
    cmp b.1 a.1 ≠ .gt ∧ (cmp b.1 a.1 = .eq → i < c) := by
  have hsorted := hU.sorted.sublist (List.take_sublist (p + 1) U)
  have hties := hU.ties.sublist (List.take_sublist (p + 1) U)
  rw [List.take_add_one, hp] at hsorted hties hb
  have hmem : (i, b) ∈ U.take p := by
    rcases List.mem_append.mp hb with hmem | heq
    · exact hmem
    · exact absurd (Prod.mk.inj (List.mem_singleton.mp heq)).1 hne
  refine ⟨(List.pairwise_append.mp hsorted).2.2 _ hmem _ (List.mem_singleton_self _), fun heq => ?_⟩
  exact Nat.lt_of_le_of_ne
    ((List.pairwise_append.mp hties).2.2 _ hmem _ (List.mem_singleton_self _) heq) hne

variable [Std.TransCmp cmp]

omit [Std.TransCmp cmp] in
/-- The search, given the entry `look i` that each child shows and the one that is ahead. -/
theorem foldl_pick_look {wanted : Ordering} (look : ℕ → Option (κ × ν))
    {l : List (IteratorWrapper σ κ × ℕ)} {ahead : Option (ℕ × (κ × ν))}
    (hkey : ∀ x ∈ l, x.1.key = (look x.2).map Prod.fst)
    (hnone : ahead = none → ∀ i, look i = none)
    (hsome : ∀ c a, ahead = some (c, a) → look c = some a ∧ ∃ l₁ w l₂, l = l₁ ++ (w, c) :: l₂ ∧
      (∀ x ∈ l₁, ∀ b, look x.2 = some b → cmp a.1 b.1 = wanted) ∧
      ∀ x ∈ l₂, ∀ b, look x.2 = some b → cmp b.1 a.1 ≠ wanted) :
    (l.foldl (pick cmp wanted) none).map Prod.fst = ahead.map Prod.fst := by
  rcases ahead with _ | ⟨c, a⟩
  · rw [foldl_pick_of_none]
    · rfl
    · intro x hx
      rw [hkey x hx, hnone rfl]
      rfl
  · obtain ⟨hself, l₁, w, l₂, rfl, hbefore, hafter⟩ := hsome c a rfl
    have hw : w.key = some a.1 := by
      rw [hkey (w, c) (List.mem_append_right _ List.mem_cons_self), hself]
      rfl
    rw [foldl_pick hw]
    · rfl
    · intro x hx k' hk'
      rw [hkey x (List.mem_append_left _ hx), Option.map_eq_some_iff] at hk'
      obtain ⟨b, hb, rfl⟩ := hk'
      exact hbefore x hx b hb
    · intro x hx k' hk'
      rw [hkey x (List.mem_append_right _ (List.mem_cons_of_mem _ hx)), Option.map_eq_some_iff]
        at hk'
      obtain ⟨b, hb, rfl⟩ := hk'
      exact hafter x hx b hb

/-- A child with those before and after it. -/
theorem zipIdx_split {α : Type} {l : List α} {w : α} (h : l[c]? = some w) :
    ∃ l₁ l₂, l.zipIdx = l₁ ++ (w, c) :: l₂ ∧ (∀ x ∈ l₁, x.2 < c) ∧ ∀ x ∈ l₂, c < x.2 := by
  obtain ⟨hc, rfl⟩ := List.getElem?_eq_some_iff.mp h
  refine ⟨(l.take c).zipIdx, (l.drop (c + 1)).zipIdx (c + 1), ?_, fun x hx => ?_, fun x hx => ?_⟩
  · conv_lhs => rw [← List.take_append_drop c l, List.drop_eq_getElem_cons hc]
    rw [List.zipIdx_append, List.zipIdx_cons, List.length_take_of_le (Nat.le_of_lt hc),
      Nat.zero_add]
  · have hlt := List.snd_lt_add_of_mem_zipIdx hx
    rw [List.length_take] at hlt
    omega
  · exact List.le_snd_of_mem_zipIdx hx

/-- `FindSmallest` finds the child whose entry is next. -/
theorem Placed.findSmallest (hU : IsUnion cmp U n) {m : MergingIterator σ κ}
    (h : Placed cmp I U n m.children (forward U p)) :
    m.findSmallest cmp = { m with current := U[p]?.map Prod.fst } := by
  rw [MergingIterator.findSmallest]
  congr 1
  refine foldl_pick_look (fun i => (part (U.drop p) i).head?) ?_ ?_ ?_
  · rintro ⟨w, i⟩ hx
    rw [List.mem_zipIdx_iff_getElem?] at hx
    rw [(h.childAt i w hx).key_eq_bind, forward_getElem?]
  · intro hp i
    rw [List.drop_eq_nil_iff.mpr (List.getElem?_eq_none_iff.mp hp)]
    rfl
  · intro c a hp
    obtain ⟨w, hw⟩ := h.exists_child (hU.tag_lt _ (List.mem_of_getElem? hp))
    obtain ⟨l₁, l₂, hsplit, hbefore, hafter⟩ := zipIdx_split hw
    refine ⟨?_, l₁, w, l₂, hsplit, fun x hx b hb => ?_, fun x hx b hb => ?_⟩
    · rw [← part_getElem?_rank, part_getElem?_rank_self hp]
    · -- an earlier child has nothing equal left
      obtain ⟨hle, heq⟩ := hU.of_mem_drop hp (mem_part.mp (List.mem_of_head? hb))
        (Nat.ne_of_lt (hbefore x hx))
      cases hcmp : cmp a.1 b.1 with
      | lt => rfl
      | eq => exact absurd (heq hcmp) (Nat.lt_asymm (hbefore x hx))
      | gt => exact absurd hcmp hle
    · obtain ⟨hle, -⟩ := hU.of_mem_drop hp (mem_part.mp (List.mem_of_head? hb))
        (Nat.ne_of_gt (hafter x hx))
      exact fun hlt => hle (Std.OrientedCmp.gt_of_lt hlt)

/-- `FindLargest` finds the child whose entry is the last one before `e`. -/
theorem Placed.findLargest (hU : IsUnion cmp U n) {m : MergingIterator σ κ} {e : ℕ}
    (h : Placed cmp I U n m.children (reverse U e)) :
    m.findLargest cmp = { m with current := (U.take e).getLast?.map Prod.fst } := by
  rw [MergingIterator.findLargest]
  congr 1
  refine foldl_pick_look (fun i => (part (U.take e) i).getLast?) ?_ ?_ ?_
  · rintro ⟨w, i⟩ hx
    rw [List.mem_reverse, List.mem_zipIdx_iff_getElem?] at hx
    rw [(h.childAt i w hx).key_eq_bind, reverse_getElem?]
  · intro he i
    rw [List.getLast?_eq_none_iff.mp he]
    rfl
  · intro c a he
    obtain ⟨front, htake⟩ := List.getLast?_eq_some_iff.mp he
    have hlen := congrArg List.length htake
    rw [List.length_take, List.length_append, List.length_singleton] at hlen
    -- the last item before `e` is at position `p`
    have hp : U[front.length]? = some (c, a) := by
      rw [← List.getElem?_take_of_lt (j := e) (by omega), htake, List.getElem?_concat_length]
    have hsucc : U.take (front.length + 1) = U.take e := by
      rw [← Nat.min_eq_left (Nat.le_of_eq (hlen.symm)), List.take_eq_take_iff]
      omega
    obtain ⟨w, hw⟩ := h.exists_child (hU.tag_lt _ (List.mem_of_getElem? hp))
    obtain ⟨l₁, l₂, hsplit, hbefore, hafter⟩ := zipIdx_split hw
    refine ⟨?_, l₂.reverse, w, l₁.reverse, ?_, fun x hx b hb => ?_, fun x hx b hb => ?_⟩
    · simp [htake, part]
    · rw [hsplit, List.reverse_append, List.reverse_cons, List.append_assoc]
      rfl
    · -- a later child has nothing equal left
      rw [← hsucc] at hb
      have hgt := hafter x (List.mem_reverse.mp hx)
      obtain ⟨hle, heq⟩ := hU.of_mem_take hp (mem_part.mp (List.mem_of_getLast? hb))
        (Nat.ne_of_gt hgt)
      have hswap : cmp a.1 b.1 = (cmp b.1 a.1).swap := Std.OrientedCmp.eq_swap
      rw [hswap]
      cases hcmp : cmp b.1 a.1 with
      | lt => rfl
      | eq => exact absurd (heq hcmp) (Nat.lt_asymm hgt)
      | gt => exact absurd hcmp hle
    · rw [← hsucc] at hb
      exact (hU.of_mem_take hp (mem_part.mp (List.mem_of_getLast? hb))
        (Nat.ne_of_lt (hbefore x (List.mem_reverse.mp hx)))).1

/-- **The invariant**: where the children are when the cursor is at `pos`. A cursor that is not
valid can only be sent somewhere, and then it does not matter where the children were. -/
def Follows (cmp : κ → κ → Ordering) (I : Iterator σ κ ν) (U : List (ℕ × (κ × ν))) (n : ℕ)
    (m : MergingIterator σ κ) : Option ℕ → Prop
  | none => m.current = none ∧ ∃ pos, Placed cmp I U n m.children pos
  | some p => ∃ c a, U[p]? = some (c, a) ∧ m.current = some c ∧
    (m.direction = .kForward ∧ Placed cmp I U n m.children (forward U p) ∨
      m.direction = .kReverse ∧ Placed cmp I U n m.children (reverse U (p + 1)))

omit [Std.TransCmp cmp] in
theorem Follows.placed {m : MergingIterator σ κ} {at₀ : Option ℕ} (h : Follows cmp I U n m at₀) :
    ∃ pos, Placed cmp I U n m.children pos := by
  cases at₀ with
  | none => exact h.2
  | some p =>
    obtain ⟨_, _, -, -, ⟨-, h⟩ | ⟨-, h⟩⟩ := h
    · exact ⟨_, h⟩
    · exact ⟨_, h⟩

/-- After `FindSmallest` the iterator is at position `p`, if there is one. -/
theorem Placed.follows_smallest (hU : IsUnion cmp U n) {m : MergingIterator σ κ}
    (h : Placed cmp I U n m.children (forward U p)) :
    Follows cmp I U n { m.findSmallest cmp with direction := .kForward } (place U p) := by
  rw [h.findSmallest hU]
  by_cases hp : p < U.length
  · rw [place_of_lt hp]
    refine ⟨U[p].1, U[p].2, List.getElem?_eq_getElem hp, ?_, .inl ⟨rfl, h⟩⟩
    simp [hp]
  · rw [place_of_ge (Nat.le_of_not_lt hp)]
    exact ⟨by simp [hp], _, h⟩

/-- After `FindLargest` the iterator is at the last position before `e`, if there is one. -/
theorem Placed.follows_largest (hU : IsUnion cmp U n) {m : MergingIterator σ κ} {e : ℕ}
    (he : e ≤ U.length) (h : Placed cmp I U n m.children (reverse U e)) :
    Follows cmp I U n { m.findLargest cmp with direction := .kReverse }
      (if e = 0 then none else some (e - 1)) := by
  rw [h.findLargest hU]
  cases e with
  | zero => exact ⟨rfl, _, h⟩
  | succ p =>
    have hp : p < U.length := he
    refine ⟨U[p].1, U[p].2, List.getElem?_eq_getElem hp, ?_, .inr ⟨rfl, h⟩⟩
    have hlast : (U.take (p + 1)).getLast? = some U[p] := by
      rw [List.take_add_one, List.getElem?_eq_getElem hp]
      exact List.getLast?_concat
    change (U.take (p + 1)).getLast?.map Prod.fst = some U[p].1
    rw [hlast]
    rfl

/-! ### The operations -/

theorem IsUnion.sorted_before (hU : IsUnion cmp U n) (target : κ) :
    U.Pairwise fun x y => decide (cmp y.2.1 target = .lt) → decide (cmp x.2.1 target = .lt) := by
  refine hU.sorted.imp fun {x y} hle => ?_
  rw [decide_eq_true_iff, decide_eq_true_iff]
  exact Std.TransCmp.lt_of_isLE_of_lt (Ordering.isLE_iff_ne_gt.mpr hle)

theorem IsUnion.part_before (hU : IsUnion cmp U n) (target : κ) (i : ℕ) :
    (part U i).Pairwise fun x y => decide (cmp y.1 target = .lt) →
      decide (cmp x.1 target = .lt) := by
  rw [part, List.pairwise_map]
  exact (hU.sorted_before target).sublist List.filter_sublist

/-- The position of a child that has been sent to `target`. -/
theorem IsUnion.step_seek (hU : IsUnion cmp U n) (target : κ) (i : ℕ) (at₀ : Option ℕ) :
    Cursor.step (fun a k => cmp a.1 k = .lt) (part U i) at₀ (.seek target)
      = some (place (part U i) ((part U i).countP fun b => cmp b.1 target = .lt)) := by
  rw [Cursor.step, findIdx_not_eq_countP (hU.part_before target i)]

/-- Where the entries with a key begin. -/
def lower (cmp : κ → κ → Ordering) (U : List (ℕ × (κ × ν))) (k : κ) : ℕ :=
  U.countP fun x => cmp x.2.1 k = .lt

/-- Where they end. -/
def upper (cmp : κ → κ → Ordering) (U : List (ℕ × (κ × ν))) (k : κ) : ℕ :=
  U.countP fun x => cmp x.2.1 k ≠ .gt

theorem IsUnion.rank_lower (hU : IsUnion cmp U n) (k : κ) (i : ℕ) :
    rank U i (lower cmp U k) = (part U i).countP fun b => cmp b.1 k = .lt :=
  Interleave.rank_countP (q := fun b : κ × ν => decide (cmp b.1 k = .lt))
    (take_countP (hU.sorted_before k)) i

theorem IsUnion.rank_upper (hU : IsUnion cmp U n) (k : κ) (i : ℕ) :
    rank U i (upper cmp U k) = (part U i).countP fun b => cmp b.1 k ≠ .gt := by
  have hsorted : U.Pairwise fun x y =>
      decide (cmp y.2.1 k ≠ .gt) → decide (cmp x.2.1 k ≠ .gt) := by
    refine hU.sorted.imp fun {x y} hle => ?_
    rw [decide_eq_true_iff, decide_eq_true_iff]
    exact fun hy => Ordering.isLE_iff_ne_gt.mp (Std.TransCmp.isLE_trans
      (Ordering.isLE_iff_ne_gt.mpr hle) (Ordering.isLE_iff_ne_gt.mpr hy))
  exact Interleave.rank_countP (q := fun b : κ × ν => decide (cmp b.1 k ≠ .gt))
    (take_countP hsorted) i

omit [Std.TransCmp cmp] in
/-- What is not greater is smaller or equal. -/
theorem countP_ne_gt (l : List (κ × ν)) (k : κ) :
    (l.countP fun b => cmp b.1 k ≠ .gt)
      = (l.countP fun b => cmp b.1 k = .lt) + l.countP fun b => cmp b.1 k = .eq := by
  induction l with
  | nil => rfl
  | cons b l ih =>
    rw [List.countP_cons, List.countP_cons, List.countP_cons, ih]
    cases cmp b.1 k <;> simp <;> omega

/-- How far the entries with a key reach in a sorted list, seen from where they would begin. -/
theorem countP_ne_gt_of_getElem? {l : List (κ × ν)}
    (hsorted : l.Pairwise fun x y => cmp x.1 y.1 ≠ .gt) {k : κ}
    (honce : (l.countP fun b => cmp b.1 k = .eq) ≤ 1) {r : ℕ}
    (hr : (l.countP fun b => cmp b.1 k = .lt) = r) : (l.countP fun b => cmp b.1 k ≠ .gt)
      = match l[r]? with
        | some b => if cmp k b.1 = .eq then r + 1 else r
        | none => r := by
  rw [countP_ne_gt, hr]
  cases hget : l[r]? with
  | none =>
    have hle : (l.countP fun b => cmp b.1 k ≠ .gt) ≤ l.length := List.countP_le_length
    rw [countP_ne_gt, hr] at hle
    have hlen := List.getElem?_eq_none_iff.mp hget
    dsimp only
    omega
  | some b =>
    dsimp only
    split
    · next heq =>
      have hpos : 0 < l.countP fun b => cmp b.1 k = .eq :=
        List.countP_pos_iff.mpr ⟨b, List.mem_of_getElem? hget,
          decide_eq_true (Std.OrientedCmp.eq_symm heq)⟩
      rw [Nat.le_antisymm honce hpos]
    · next hne =>
      -- `b` is greater, and so is all that follows; all before it is smaller
      have hbefore : l.Pairwise fun x y => decide (cmp y.1 k = .lt) → decide (cmp x.1 k = .lt) := by
        refine hsorted.imp fun {x y} hle => ?_
        rw [decide_eq_true_iff, decide_eq_true_iff]
        exact Std.TransCmp.lt_of_isLE_of_lt (Ordering.isLE_iff_ne_gt.mpr hle)
      have htake := take_countP hbefore
      rw [hr] at htake
      obtain ⟨hlt, hb⟩ := List.getElem?_eq_some_iff.mp hget
      have hdrop : ∀ x ∈ l.drop r, cmp x.1 k ≠ .lt := by
        have hcount : (l.countP fun b => cmp b.1 k = .lt)
            = ((l.take r).countP fun b => cmp b.1 k = .lt)
              + (l.drop r).countP fun b => cmp b.1 k = .lt := by
          rw [← List.countP_append, List.take_append_drop]
        have hfront : ((l.take r).countP fun b => cmp b.1 k = .lt) = r := by
          rw [htake, List.countP_filter]
          simpa using hr
        have hzero : ((l.drop r).countP fun b => cmp b.1 k = .lt) = 0 := by omega
        intro x hx hlt
        exact List.countP_eq_zero.mp hzero x hx (decide_eq_true hlt)
      have hsuffix := hsorted.sublist (List.drop_sublist r l)
      rw [List.drop_eq_getElem_cons hlt, hb] at hdrop hsuffix
      have hzero : (l.countP fun b => cmp b.1 k = .eq) = 0 := by
        refine List.countP_eq_zero.mpr fun x hx => ?_
        rw [decide_eq_true_iff]
        intro heq
        rw [← List.take_append_drop r l, htake, List.drop_eq_getElem_cons hlt, hb] at hx
        rcases List.mem_append.mp hx with hx | hx
        · have hxlt := of_decide_eq_true (List.mem_filter.mp hx).2
          rw [heq] at hxlt
          cases hxlt
        · rcases List.mem_cons.mp hx with rfl | hx
          · exact hne (Std.OrientedCmp.eq_symm heq)
          · have hle := (List.pairwise_cons.mp hsuffix).1 x hx
            have hbk : cmp b.1 k = cmp b.1 x.1 := (Std.TransCmp.congr_right heq).symm
            rw [← hbk] at hle
            have hlt' := hdrop b List.mem_cons_self
            cases hcmp : cmp b.1 k with
            | lt => exact hlt' hcmp
            | eq => exact hne (Std.OrientedCmp.eq_symm hcmp)
            | gt => exact hle hcmp
      omega

theorem seekToFirst_follows (hU : IsUnion cmp U n) {m : MergingIterator σ κ}
    (h : Placed cmp I U n m.children pos) :
    ∃ m', m.seekToFirst cmp I = some m' ∧ m'.direction = .kForward ∧
      Follows cmp I U n m' (place U 0) := by
  obtain ⟨children, heach, hplaced⟩ := h.forEach (forward U 0)
    (f := fun child => child.1.step I .seekToFirst) fun i w _ hw => hw.step rfl
  rw [seekToFirst, heach]
  exact ⟨_, rfl, rfl, Placed.follows_smallest (m := { m with children }) hU hplaced⟩

theorem seekToLast_follows (hU : IsUnion cmp U n) {m : MergingIterator σ κ}
    (h : Placed cmp I U n m.children pos) :
    ∃ m', m.seekToLast cmp I = some m' ∧ m'.direction = .kReverse ∧
      Follows cmp I U n m' (place U (U.length - 1)) := by
  obtain ⟨children, heach, hplaced⟩ := h.forEach (reverse U U.length)
    (f := fun child => child.1.step I .seekToLast) fun i w _ hw => hw.step (by
      rw [Cursor.step, place_length_sub_one, reverse, rank_length])
  rw [seekToLast, heach, place_length_sub_one]
  exact ⟨_, rfl, rfl, Placed.follows_largest (m := { m with children }) hU (Nat.le_refl _) hplaced⟩

theorem seek_follows (hU : IsUnion cmp U n) {m : MergingIterator σ κ}
    (h : Placed cmp I U n m.children pos) (target : κ) :
    ∃ m', m.seek cmp I target = some m' ∧ m'.direction = .kForward ∧
      Follows cmp I U n m' (place U (lower cmp U target)) := by
  obtain ⟨children, heach, hplaced⟩ := h.forEach (forward U (lower cmp U target))
    (f := fun child => child.1.step I (.seek target)) fun i w _ hw => hw.step (by
      rw [hU.step_seek, forward, hU.rank_lower])
  rw [seek, heach]
  exact ⟨_, rfl, rfl, Placed.follows_smallest (m := { m with children }) hU hplaced⟩

omit [Std.TransCmp cmp] in
theorem IsUnion.part_sorted (hU : IsUnion cmp U n) (i : ℕ) :
    (part U i).Pairwise fun x y => cmp x.1 y.1 ≠ .gt := by
  rw [part, List.pairwise_map]
  exact hU.sorted.sublist List.filter_sublist

/-- A change of direction in `Next` takes another child to its first entry behind the key. It steps
over one entry that is equal. -/
theorem ChildAt.seekAfter (hU : IsUnion cmp U n) {i : ℕ} {k : κ}
    (honce : ((part U i).countP fun b => cmp b.1 k = .eq) ≤ 1)
    (h : ChildAt cmp I (part U i) w at₀) :
    ∃ w', seekAfter cmp I k w = some w' ∧
      ChildAt cmp I (part U i) w' (forward U (upper cmp U k) i) := by
  obtain ⟨w', hw', hat⟩ := h.step (hU.step_seek k i at₀)
  generalize hr : ((part U i).countP fun b => cmp b.1 k = .lt) = r at hat
  have hupper := countP_ne_gt_of_getElem? (hU.part_sorted i) honce hr
  have hkey : w'.key = (part U i)[r]?.map Prod.fst := by
    rw [hat.key_eq_bind, place]
    split
    · rfl
    · next hge => rw [List.getElem?_eq_none (Nat.le_of_not_lt hge)]; rfl
  rw [MergingIterator.seekAfter, hw', forward, hU.rank_upper, hupper]
  cases hget : (part U i)[r]? with
  | none =>
    rw [hget] at hkey
    exact ⟨w', by simp [hkey], hat⟩
  | some b =>
    rw [hget] at hkey
    by_cases heq : cmp k b.1 = .eq
    · -- the entry is equal: the child goes on
      rw [place_of_lt (List.getElem?_eq_some_iff.mp hget).1] at hat
      have hnext : Cursor.step (fun a k => cmp a.1 k = .lt) (part U i) (some r) .next
          = some (place (part U i) (r + 1)) := rfl
      obtain ⟨w'', hw'', hat'⟩ := hat.step hnext
      refine ⟨w'', ?_, ?_⟩
      · simp [hkey, heq, hw'']
      · dsimp only
        rw [if_pos heq]
        exact hat'
    · refine ⟨w', ?_, ?_⟩
      · simp [hkey, heq]
      · dsimp only
        rw [if_neg heq]
        exact hat

/-- A change of direction in `Prev` takes another child to its last entry before the key. -/
theorem ChildAt.seekBefore (hU : IsUnion cmp U n) {i : ℕ} {k : κ}
    (h : ChildAt cmp I (part U i) w at₀) :
    ∃ w', seekBefore I k w = some w' ∧
      ChildAt cmp I (part U i) w' (reverse U (lower cmp U k) i) := by
  obtain ⟨w', hw', hat⟩ := h.step (hU.step_seek k i at₀)
  rw [← hU.rank_lower] at hat
  rw [MergingIterator.seekBefore, hw']
  have hkey := hat.key_eq_bind
  by_cases hlt : rank U i (lower cmp U k) < (part U i).length
  · -- the child is at its first entry at or behind the key
    rw [place_of_lt hlt] at hat hkey
    have hprev : Cursor.step (fun a k => cmp a.1 k = .lt) (part U i)
        (some (rank U i (lower cmp U k))) .prev = some (reverse U (lower cmp U k) i) := rfl
    obtain ⟨w'', hw'', hat'⟩ := hat.step hprev
    refine ⟨w'', ?_, hat'⟩
    rw [Option.bind_some, List.getElem?_eq_getElem hlt] at hkey
    simp [hkey, hw'']
  · -- the child has no such entry
    rw [place_of_ge (Nat.le_of_not_lt hlt)] at hat hkey
    have heq : rank U i (lower cmp U k) = (part U i).length :=
      Nat.le_antisymm (rank_le U i _) (Nat.le_of_not_lt hlt)
    have hlast : Cursor.step (fun a k => cmp a.1 k = .lt) (part U i) none .seekToLast
        = some (reverse U (lower cmp U k) i) := by
      rw [Cursor.step, place_length_sub_one, reverse, heq]
    obtain ⟨w'', hw'', hat'⟩ := hat.step hlast
    refine ⟨w'', ?_, hat'⟩
    simp [hkey, hw'']

omit [Std.TransCmp cmp] in
/-- `key()` is the key at the cursor's position. -/
theorem Follows.key_eq {m : MergingIterator σ κ} (hU : IsUnion cmp U n)
    (h : Follows cmp I U n m (some p)) (hp : U[p]? = some (c, a)) :
    m.current = some c ∧ m.key = some a.1 ∧ m.value I = some a.2 := by
  obtain ⟨c', a', hp', hc, hdir⟩ := h
  obtain ⟨rfl, rfl⟩ := Prod.mk.inj (Option.some.inj (hp.symm.trans hp'))
  -- in either direction the current child shows the entry
  have hshow : ∃ w at₀, m.children[c]? = some w ∧ ChildAt cmp I (part U c) w at₀ ∧
      (at₀.bind fun i => (part U c)[i]?) = some a := by
    rcases hdir with ⟨-, h⟩ | ⟨-, h⟩
    · obtain ⟨w, hw⟩ := h.exists_child (hU.tag_lt _ (List.mem_of_getElem? hp))
      refine ⟨w, _, hw, h.childAt c w hw, ?_⟩
      rw [forward_getElem?, ← part_getElem?_rank, part_getElem?_rank_self hp]
    · obtain ⟨w, hw⟩ := h.exists_child (hU.tag_lt _ (List.mem_of_getElem? hp))
      refine ⟨w, _, hw, h.childAt c w hw, ?_⟩
      rw [reverse, rank_succ_self hp]
      exact part_getElem?_rank_self hp
  obtain ⟨w, at₀, hw, hat, hentry⟩ := hshow
  refine ⟨hc, ?_, ?_⟩
  · simp [key, hc, hw, hat.key_eq_bind, hentry]
  · simp [value, hc, hw, IteratorWrapper.value, hat.behaves.entry_eq, hentry]

omit [Std.TransCmp cmp] in
/-- In either direction the current child is at the entry of position `p`. -/
theorem current_place (hp : U[p]? = some (c, a)) :
    forward U p c = some (rank U c p) ∧ reverse U (p + 1) c = some (rank U c p) := by
  have hrank : rank U c p < (part U c).length := by
    have := rank_le U c (p + 1)
    rwa [rank_succ_self hp] at this
  refine ⟨by rw [forward, place_of_lt hrank], ?_⟩
  rw [reverse, rank_succ_self hp]
  rfl

/-- `Next`, once the other children are at their first entries from position `e` on, and the current
one right before its own. -/
theorem Placed.advance (hU : IsUnion cmp U n) {m : MergingIterator σ κ} (hn : c < n)
    (hc : m.current = some c) (hdir : m.direction = .kForward) {e j : ℕ} (hpos : pos c = some j)
    (hself : rank U c e = j + 1) (hother : ∀ i, i ≠ c → pos i = forward U e i)
    (h : Placed cmp I U n m.children pos) :
    ∃ m', m.moveCurrent I .next = some m' ∧ m'.direction = .kForward ∧
      Follows cmp I U n (m'.findSmallest cmp) (place U e) := by
  obtain ⟨children, hmove, hplaced⟩ := h.moveCurrent hc hn .next (forward U e)
    (by rw [hpos, forward, hself]; rfl) fun i hi => (hother i hi).symm
  refine ⟨_, hmove, hdir, ?_⟩
  have hfollows := Placed.follows_smallest (m := { m with children }) hU hplaced
  rwa [← hdir] at hfollows

/-- `Prev`, once the other children are at their last entries before position `e`, and the current
one right behind its own. -/
theorem Placed.retreat (hU : IsUnion cmp U n) {m : MergingIterator σ κ} (hn : c < n)
    (hc : m.current = some c) (hdir : m.direction = .kReverse) {e : ℕ} (he : e ≤ U.length)
    (hpos : pos c = some (rank U c e)) (hother : ∀ i, i ≠ c → pos i = reverse U e i)
    (h : Placed cmp I U n m.children pos) :
    ∃ m', m.moveCurrent I .prev = some m' ∧ m'.direction = .kReverse ∧
      Follows cmp I U n (m'.findLargest cmp) (if e = 0 then none else some (e - 1)) := by
  obtain ⟨children, hmove, hplaced⟩ := h.moveCurrent hc hn .prev (reverse U e) (by rw [hpos]; rfl)
    fun i hi => (hother i hi).symm
  refine ⟨_, hmove, hdir, ?_⟩
  have hfollows := Placed.follows_largest (m := { m with children }) hU he hplaced
  rwa [← hdir] at hfollows

/-- `Next` without a change of direction. -/
theorem next_of_forward (hU : IsUnion cmp U n) {m : MergingIterator σ κ}
    (h : Follows cmp I U n m (some p)) (hdir : m.direction = .kForward) :
    ∃ m', m.next cmp I = some m' ∧ m'.direction = .kForward ∧
      Follows cmp I U n m' (place U (p + 1)) := by
  obtain ⟨c, a, hp, hc, ⟨-, hplaced⟩ | ⟨hdir', -⟩⟩ := id h
  · obtain ⟨-, hkey, -⟩ := h.key_eq hU hp
    obtain ⟨m', hmove, hdir', hfollows⟩ := hplaced.advance hU
      (hU.tag_lt _ (List.mem_of_getElem? hp)) hc hdir (current_place hp).1 (rank_succ_self hp)
      fun i hi => by rw [forward, forward, rank_succ_of_ne hp hi]
    exact ⟨m'.findSmallest cmp, by simp [next, hkey, hdir, hmove], hdir', hfollows⟩
  · rw [hdir] at hdir'
    cases hdir'

/-- `Next` with a change of direction: the other children are sent over to the far side of the key,
which is position `e` as far as they are concerned. -/
theorem next_of_reverse (hU : IsUnion cmp U n) {m : MergingIterator σ κ}
    (h : Follows cmp I U n m (some p)) (hdir : m.direction = .kReverse)
    (hp : U[p]? = some (c, a)) {e : ℕ} (hself : rank U c e = rank U c p + 1)
    (hother : ∀ i, i ≠ c → rank U i (upper cmp U a.1) = rank U i e)
    (honce : ∀ i, i ≠ c → ((part U i).countP fun b => cmp b.1 a.1 = .eq) ≤ 1) :
    ∃ m', m.next cmp I = some m' ∧ m'.direction = .kForward ∧
      Follows cmp I U n m' (place U e) := by
  obtain ⟨c', a', hp', hc, ⟨hdir', -⟩ | ⟨-, hplaced⟩⟩ := id h
  · rw [hdir] at hdir'
    cases hdir'
  · obtain ⟨rfl, rfl⟩ := Prod.mk.inj (Option.some.inj (hp.symm.trans hp'))
    obtain ⟨-, hkey, -⟩ := h.key_eq hU hp
    obtain ⟨others, hothers, hplaced⟩ := hplaced.forOthers hc (f := seekAfter cmp I a.1)
      (Function.update (forward U e) c (some (rank U c p)))
      (by rw [Function.update_self, (current_place hp).2])
      fun i w hi hw => by
        rw [Function.update_of_ne hi, forward, ← hother i hi]
        exact hw.seekAfter hU (honce i hi)
    obtain ⟨m', hmove, hdir', hfollows⟩ :=
      Placed.advance (m := { m with children := others, direction := .kForward }) hU
        (hU.tag_lt _ (List.mem_of_getElem? hp)) hc rfl (Function.update_self ..) hself
        (fun i hi => Function.update_of_ne hi _ _) hplaced
    exact ⟨m'.findSmallest cmp, by simp [next, hkey, hdir, hothers, hmove], hdir', hfollows⟩

/-- `Prev` without a change of direction. -/
theorem prev_of_reverse (hU : IsUnion cmp U n) {m : MergingIterator σ κ}
    (h : Follows cmp I U n m (some p)) (hdir : m.direction = .kReverse) :
    ∃ m', m.prev cmp I = some m' ∧ m'.direction = .kReverse ∧
      Follows cmp I U n m' (if p = 0 then none else some (p - 1)) := by
  obtain ⟨c, a, hp, hc, ⟨hdir', -⟩ | ⟨-, hplaced⟩⟩ := id h
  · rw [hdir] at hdir'
    cases hdir'
  · obtain ⟨-, hkey, -⟩ := h.key_eq hU hp
    obtain ⟨m', hmove, hdir', hfollows⟩ := hplaced.retreat hU
      (hU.tag_lt _ (List.mem_of_getElem? hp)) hc hdir
      (Nat.le_of_lt (List.getElem?_eq_some_iff.mp hp).1) (current_place hp).2
      fun i hi => by rw [reverse, reverse, rank_succ_of_ne hp hi]
    exact ⟨m'.findLargest cmp, by simp [prev, hkey, hdir, hmove], hdir', hfollows⟩

/-- `Prev` with a change of direction: the other children are sent over to the near side of the key,
which is position `e` as far as they are concerned. -/
theorem prev_of_forward (hU : IsUnion cmp U n) {m : MergingIterator σ κ}
    (h : Follows cmp I U n m (some p)) (hdir : m.direction = .kForward)
    (hp : U[p]? = some (c, a)) {e : ℕ} (he : e ≤ U.length) (hself : rank U c e = rank U c p)
    (hother : ∀ i, i ≠ c → rank U i (lower cmp U a.1) = rank U i e) :
    ∃ m', m.prev cmp I = some m' ∧ m'.direction = .kReverse ∧
      Follows cmp I U n m' (if e = 0 then none else some (e - 1)) := by
  obtain ⟨c', a', hp', hc, ⟨-, hplaced⟩ | ⟨hdir', -⟩⟩ := id h
  · obtain ⟨rfl, rfl⟩ := Prod.mk.inj (Option.some.inj (hp.symm.trans hp'))
    obtain ⟨-, hkey, -⟩ := h.key_eq hU hp
    obtain ⟨others, hothers, hplaced⟩ := hplaced.forOthers hc (f := seekBefore I a.1)
      (Function.update (reverse U e) c (some (rank U c p)))
      (by rw [Function.update_self, (current_place hp).1])
      fun i w hi hw => by
        rw [Function.update_of_ne hi, reverse, ← hother i hi]
        exact hw.seekBefore hU
    obtain ⟨m', hmove, hdir', hfollows⟩ :=
      Placed.retreat (m := { m with children := others, direction := .kReverse }) hU
        (hU.tag_lt _ (List.mem_of_getElem? hp)) hc rfl he
        (by rw [Function.update_self, hself]) (fun i hi => Function.update_of_ne hi _ _) hplaced
    exact ⟨m'.findLargest cmp, by simp [prev, hkey, hdir, hothers, hmove], hdir', hfollows⟩
  · rw [hdir] at hdir'
    cases hdir'

/-! ### Keys that are not shared -/

/-- Where no key is shared, the entries of another child with a smaller key are those before. -/
theorem Apart.rank_lower (hapart : Apart cmp U) (hU : IsUnion cmp U n) (hp : U[p]? = some (c, a))
    {i : ℕ} (hne : i ≠ c) : rank U i (lower cmp U a.1) = rank U i p := by
  have heq : ∀ b, (i, b) ∈ U → cmp a.1 b.1 ≠ .eq := fun b hb =>
    hapart _ (List.mem_of_getElem? hp) _ hb hne.symm
  rw [hU.rank_lower, ← part_take_append_drop U i p, List.countP_append, rank]
  have hfront : (part (U.take p) i).countP (fun b => cmp b.1 a.1 = .lt)
      = (part (U.take p) i).length := by
    refine List.countP_eq_length.mpr fun b hb => decide_eq_true ?_
    have hmem := mem_part.mp hb
    have hmem' : (i, b) ∈ U.take (p + 1) := by
      rw [List.take_add_one]
      exact List.mem_append_left _ hmem
    have hle := (hU.of_mem_take hp hmem' hne).1
    cases hcmp : cmp b.1 a.1 with
    | lt => rfl
    | eq => exact absurd (Std.OrientedCmp.eq_symm hcmp) (heq b (List.mem_of_mem_take hmem))
    | gt => exact absurd hcmp hle
  have hback : (part (U.drop p) i).countP (fun b => cmp b.1 a.1 = .lt) = 0 := by
    refine List.countP_eq_zero.mpr fun b hb => ?_
    rw [decide_eq_true_iff]
    intro hlt
    exact (hU.of_mem_drop hp (mem_part.mp hb) hne).1 (Std.OrientedCmp.gt_of_lt hlt)
  rw [hfront, hback, Nat.add_zero]

omit [Std.TransCmp cmp] in
theorem Apart.countP_eq (hapart : Apart cmp U) (hp : U[p]? = some (c, a)) {i : ℕ} (hne : i ≠ c) :
    ((part U i).countP fun b => cmp b.1 a.1 = .eq) = 0 := by
  refine List.countP_eq_zero.mpr fun b hb => ?_
  rw [decide_eq_true_iff]
  exact fun heq => hapart _ (mem_part.mp hb) _ (List.mem_of_getElem? hp) hne heq

theorem next_follows (hU : IsUnion cmp U n) (hapart : Apart cmp U) {m : MergingIterator σ κ}
    (h : Follows cmp I U n m (some p)) :
    ∃ m', m.next cmp I = some m' ∧ m'.direction = .kForward ∧
      Follows cmp I U n m' (place U (p + 1)) := by
  cases hdir : m.direction with
  | kForward => exact next_of_forward hU h hdir
  | kReverse =>
    obtain ⟨c, a, hp, -⟩ := id h
    exact next_of_reverse hU h hdir hp (rank_succ_self hp)
      (fun i hi => by
        rw [hU.rank_upper, countP_ne_gt, hapart.countP_eq hp hi, Nat.add_zero, ← hU.rank_lower,
          hapart.rank_lower hU hp hi, rank_succ_of_ne hp hi])
      fun i hi => by rw [hapart.countP_eq hp hi]; exact Nat.zero_le 1

theorem prev_follows (hU : IsUnion cmp U n) (hapart : Apart cmp U) {m : MergingIterator σ κ}
    (h : Follows cmp I U n m (some p)) :
    ∃ m', m.prev cmp I = some m' ∧ m'.direction = .kReverse ∧
      Follows cmp I U n m' (if p = 0 then none else some (p - 1)) := by
  cases hdir : m.direction with
  | kForward =>
    obtain ⟨c, a, hp, -⟩ := id h
    exact prev_of_forward hU h hdir hp (Nat.le_of_lt (List.getElem?_eq_some_iff.mp hp).1) rfl
      fun i hi => hapart.rank_lower hU hp hi
  | kReverse => exact prev_of_reverse hU h hdir

/-- The direction in which an operation leaves the iterator. -/
def directionAfter : Op κ → Direction
  | .seek _ => .kForward
  | .seekToFirst => .kForward
  | .seekToLast => .kReverse
  | .next => .kForward
  | .prev => .kReverse

/-- The operations that send the iterator somewhere always succeed, so an operation does to the
iterator what it does to the cursor if `Next` and `Prev` do. -/
theorem step_follows_of (hU : IsUnion cmp U n) {m : MergingIterator σ κ} {op : Op κ}
    (h : Follows cmp I U n m at₀)
    (hnext : ∀ p, at₀ = some p → op = .next → ∃ m', m.next cmp I = some m' ∧
      m'.direction = .kForward ∧ Follows cmp I U n m' (place U (p + 1)))
    (hprev : ∀ p, at₀ = some p → op = .prev → ∃ m', m.prev cmp I = some m' ∧
      m'.direction = .kReverse ∧ Follows cmp I U n m' (if p = 0 then none else some (p - 1)))
    (hop : Cursor.step (fun a k => cmp a.1 k = .lt) (U.map Prod.snd) at₀ op = some at₁) :
    ∃ m', (iterator cmp I).step m op = some m' ∧ m'.direction = directionAfter op ∧
      Follows cmp I U n m' at₁ := by
  rw [step_map] at hop
  obtain ⟨pos, hplaced⟩ := h.placed
  cases op with
  | seek target =>
    rw [Cursor.step, findIdx_not_eq_countP (hU.sorted_before target)] at hop
    cases hop
    exact seek_follows hU hplaced target
  | seekToFirst =>
    cases hop
    exact seekToFirst_follows hU hplaced
  | seekToLast =>
    cases hop
    exact seekToLast_follows hU hplaced
  | next =>
    obtain ⟨p, rfl, rfl⟩ := Option.map_eq_some_iff.mp hop
    exact hnext p rfl rfl
  | prev =>
    obtain ⟨p, rfl, rfl⟩ := Option.map_eq_some_iff.mp hop
    exact hprev p rfl rfl

/-- **One operation**: whatever it does to the cursor on the union, it does to the iterator. -/
theorem step_follows (hU : IsUnion cmp U n) (hapart : Apart cmp U) {m : MergingIterator σ κ}
    {op : Op κ} (h : Follows cmp I U n m at₀)
    (hop : Cursor.step (fun a k => cmp a.1 k = .lt) (U.map Prod.snd) at₀ op = some at₁) :
    ∃ m', (iterator cmp I).step m op = some m' ∧ Follows cmp I U n m' at₁ := by
  obtain ⟨m', hstep, -, hfollows⟩ := step_follows_of hU h
    (fun p hp _ => next_follows hU hapart (hp ▸ h)) (fun p hp _ => prev_follows hU hapart (hp ▸ h))
    hop
  exact ⟨m', hstep, hfollows⟩

omit [Std.TransCmp cmp] in
theorem Follows.entry_eq (hU : IsUnion cmp U n) {m : MergingIterator σ κ}
    (h : Follows cmp I U n m at₀) :
    (iterator cmp I).entry m = at₀.bind fun p => (U.map Prod.snd)[p]? := by
  cases at₀ with
  | none => simp [iterator, key, h.1]
  | some p =>
    obtain ⟨c, a, hp, -⟩ := id h
    obtain ⟨-, hkey, hvalue⟩ := h.key_eq hU hp
    simp [iterator, hkey, hvalue, hp]

/-! ### Any children -/

/-- The entries of all lists, in order. -/
def sortedUnion (cmp : κ → κ → Ordering) (lists : List (List (κ × ν))) : List (κ × ν) :=
  lists.flatten.mergeSort fun a b => cmp a.1 b.1 ≠ .gt

/-- The sorted union with the child of each entry, equal keys in the order of their children. -/
theorem exists_isUnion {lists : List (List (κ × ν))}
    (hsorted : ∀ l ∈ lists, l.Pairwise fun a b => cmp a.1 b.1 ≠ .gt) :
    ∃ U : List (ℕ × (κ × ν)), U.map Prod.snd = sortedUnion cmp lists ∧
      IsUnion cmp U lists.length ∧ ∀ i l, lists[i]? = some l → part U i = l := by
  obtain ⟨U, hmap, hU, hties, htag, hpart⟩ :=
    @exists_interleaving _ (fun a b : κ × ν => decide (cmp a.1 b.1 ≠ .gt))
      (fun a b c hab hbc => by
        rw [decide_eq_true_iff] at *
        exact Ordering.isLE_iff_ne_gt.mp (Std.TransCmp.isLE_trans
          (Ordering.isLE_iff_ne_gt.mpr hab) (Ordering.isLE_iff_ne_gt.mpr hbc)))
      (fun a b => by
        have hswap : cmp b.1 a.1 = (cmp a.1 b.1).swap := Std.OrientedCmp.eq_swap
        rw [hswap]
        cases cmp a.1 b.1 <;> decide)
      lists (fun l hl => (hsorted l hl).imp fun h => decide_eq_true h)
  refine ⟨U, hmap, ⟨hU.imp fun h => of_decide_eq_true h, hties.imp fun h heq => h ?_, htag⟩, hpart⟩
  rw [decide_eq_true_iff, Std.OrientedCmp.eq_symm heq]
  intro h
  cases h

theorem apart_of_distinct {lists : List (List (κ × ν))}
    (hU : IsUnion cmp U lists.length) (hpart : ∀ i l, lists[i]? = some l → part U i = l)
    (hdistinct : lists.Pairwise fun l l' => ∀ a ∈ l, ∀ b ∈ l', cmp a.1 b.1 ≠ .eq) :
    Apart cmp U := by
  -- different children share no key, whichever of them comes first
  have hne : ∀ (i j : ℕ) (l l' : List (κ × ν)), i < j → lists[i]? = some l →
      lists[j]? = some l' → ∀ a ∈ l, ∀ b ∈ l', cmp a.1 b.1 ≠ .eq := by
    intro i j l l' hij hi hj
    obtain ⟨hi', rfl⟩ := List.getElem?_eq_some_iff.mp hi
    obtain ⟨hj', rfl⟩ := List.getElem?_eq_some_iff.mp hj
    exact List.pairwise_iff_getElem.mp hdistinct i j hi' hj' hij
  rintro ⟨i, a⟩ hx ⟨j, b⟩ hy hij
  have hi := List.getElem?_eq_getElem (hU.tag_lt _ hx)
  have hj := List.getElem?_eq_getElem (hU.tag_lt _ hy)
  have ha := mem_part.mpr hx
  have hb := mem_part.mpr hy
  rw [hpart _ _ hi] at ha
  rw [hpart _ _ hj] at hb
  rcases Nat.lt_or_gt_of_ne hij with hlt | hgt
  · exact hne i j _ _ hlt hi hj a ha b hb
  · exact fun heq => hne j i _ _ hgt hj hi b hb a ha (Std.OrientedCmp.eq_symm heq)

omit [Std.TransCmp cmp] in
/-- A new iterator is at no entry, its children wherever they were handed over. -/
theorem follows_new {children : List σ} {lists : List (List (κ × ν))}
    (hchildren : List.Forall₂
      (fun s l => ∃ pos, I.Behaves (fun a k => cmp a.1 k = .lt) l s pos) children lists)
    (hpart : ∀ i l, lists[i]? = some l → part U i = l) :
    Follows cmp I U lists.length (new I children) none := by
  refine ⟨rfl, ?_⟩
  have hat : ∀ i, ∃ pos, ∀ w, (new I children).children[i]? = some w →
      ChildAt cmp I (part U i) w pos := by
    intro i
    by_cases hi : i < children.length
    · have hi' : i < lists.length := hchildren.length_eq ▸ hi
      obtain ⟨pos, hbehaves⟩ := hchildren.get hi hi'
      refine ⟨pos, fun w hw => ?_⟩
      rw [new, List.getElem?_map, List.getElem?_eq_getElem hi] at hw
      cases hw
      rw [hpart i _ (List.getElem?_eq_getElem hi')]
      exact ⟨hbehaves, rfl⟩
    · refine ⟨none, fun w hw => ?_⟩
      rw [new, List.getElem?_eq_none (by simpa using hi)] at hw
      cases hw
  choose pos hpos using hat
  exact ⟨pos, by rw [new, List.length_map, hchildren.length_eq], hpos⟩

/-- **The merging iterator is a cursor on the sorted union of its children's entries.** -/
theorem merging_behaves {children : List σ} {lists : List (List (κ × ν))}
    (hchildren : List.Forall₂
      (fun s l => ∃ pos, I.Behaves (fun a k => cmp a.1 k = .lt) l s pos) children lists)
    (hsorted : ∀ l ∈ lists, l.Pairwise fun a b => cmp a.1 b.1 ≠ .gt)
    (hdistinct : lists.Pairwise fun l l' => ∀ a ∈ l, ∀ b ∈ l', cmp a.1 b.1 ≠ .eq) :
    (iterator cmp I).Behaves (fun a k => cmp a.1 k = .lt) (sortedUnion cmp lists)
      (new I children) none := by
  obtain ⟨U, hmap, hunion, hpart⟩ := exists_isUnion hsorted
  have hapart := apart_of_distinct hunion hpart hdistinct
  rw [← hmap]
  exact Iterator.behaves_of_refines (fun m pos op pos' => step_follows hunion hapart)
    (fun m pos => Follows.entry_eq hunion) (follows_new hchildren hpart)

/-- A merge of two sorted lists, neither of which has been positioned. -/
theorem merging_two_lists :
    let I : Iterator (List (ℕ × Char) × Option ℕ) ℕ Char :=
      .ofList fun a k => compare a.1 k = .lt
    let children : List (List (ℕ × Char) × Option ℕ) :=
      [([(1, 'a'), (3, 'c')], none), ([(2, 'b')], none)]
    (iterator compare I).Behaves (fun a k => compare a.1 k = .lt)
      (sortedUnion compare [[(1, 'a'), (3, 'c')], [(2, 'b')]]) (new I children) none :=
  merging_behaves
    (.cons ⟨none, Iterator.behaves_ofList _ _ _⟩ (.cons ⟨none, Iterator.behaves_ofList _ _ _⟩ .nil))
    (by decide) (by decide)

end MergingIterator

end Squirrel
