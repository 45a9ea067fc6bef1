import Squirrel.Table.Merger

/-!
# Merging children that share keys

A key of `K` children is meant to be yielded `K` times: the merging iterator promises no duplicate
suppression. As long as it keeps its direction it does what it promises, equal keys coming in the
order of their children. A change of direction is different. `Next` sends every other child over to
the far side of the current key and `Prev` to the near side, wherever in the run of equal keys the
current entry is, so the entries between it and that side are lost.

Hence the condition `TurnsApart`: the iterator changes its direction only where the entry that it
is about to move to has another key than the current one. It is a condition on one operation, given
the position and the direction before it, and `TurnsApartAlong` asks for it throughout a run.

## Main results

* `MergingIterator.turn_forward`, `MergingIterator.turn_back` — where a change of direction leads,
  when each child has a key once
* `MergingIterator.yields_all_of_turnsApart` — a run that turns only between different keys loses no
  entry, and neither do the scans that are left
* `MergingIterator.not_yields_all` — a run that turns between equal keys
-/

namespace Squirrel

open Cursor Interleave

variable {σ κ ν : Type}

namespace MergingIterator

variable {cmp : κ → κ → Ordering} {I : Iterator σ κ ν} {U : List (ℕ × (κ × ν))} {n p c : ℕ}
  {a : κ × ν}

/-! ### Keys that a child has once -/

section Once

variable [Std.TransCmp cmp] {l : List (κ × ν)}

/-- In a child that has its keys once, the entries with a smaller key are those before. -/
theorem countP_lt_of_getElem? (honce : l.Pairwise fun x y => cmp x.1 y.1 = .lt) {r : ℕ}
    (hr : l[r]? = some a) : (l.countP fun b => cmp b.1 a.1 = .lt) = r := by
  obtain ⟨hlt, rfl⟩ := List.getElem?_eq_some_iff.mp hr
  refine countP_eq_of_getElem? (Nat.le_of_lt hlt) fun i b hb => ?_
  obtain ⟨hi, rfl⟩ := List.getElem?_eq_some_iff.mp hb
  rw [decide_eq_true_iff]
  refine ⟨fun hcmp => ?_, fun hir => List.pairwise_iff_getElem.mp honce i r hi hlt hir⟩
  by_contra hge
  rcases Nat.lt_or_eq_of_le (Nat.le_of_not_lt hge) with hri | rfl
  · rw [Std.OrientedCmp.gt_of_lt (List.pairwise_iff_getElem.mp honce r i hlt hi hri)] at hcmp
    cases hcmp
  · have hself : cmp l[r].1 l[r].1 = .eq := Std.ReflCmp.compare_self
    rw [hself] at hcmp
    cases hcmp

theorem countP_eq_le_one (honce : l.Pairwise fun x y => cmp x.1 y.1 = .lt) (k : κ) :
    (l.countP fun b => cmp b.1 k = .eq) ≤ 1 := by
  induction l with
  | nil => exact Nat.zero_le 1
  | cons b l ih =>
    rw [List.pairwise_cons] at honce
    by_cases hb : cmp b.1 k = .eq
    · -- what comes behind an equal key is greater
      have hrest : (l.countP fun x => cmp x.1 k = .eq) = 0 := by
        refine List.countP_eq_zero.mpr fun x hx => ?_
        rw [decide_eq_true_iff]
        intro heq
        have hlt := honce.1 x hx
        rw [Std.TransCmp.congr_right heq, hb] at hlt
        cases hlt
      have hone : ((b :: l).countP fun b => cmp b.1 k = .eq) = 1 := by
        rw [List.countP_cons_of_pos (by simpa using hb), hrest]
      exact Nat.le_of_eq hone
    · rw [List.countP_cons_of_neg (by simpa using hb)]
      exact ih honce.2

theorem countP_eq_of_mem (honce : l.Pairwise fun x y => cmp x.1 y.1 = .lt) (ha : a ∈ l) :
    (l.countP fun b => cmp b.1 a.1 = .eq) = 1 := by
  refine Nat.le_antisymm (countP_eq_le_one honce a.1) (List.countP_pos_iff.mpr ⟨a, ha, ?_⟩)
  exact decide_eq_true Std.ReflCmp.compare_self

end Once

/-! ### Where a change of direction leads -/

section Turns

variable [Std.TransCmp cmp]

/-- A change of direction in `Next` leads behind all entries with the current key. -/
theorem turn_forward (hU : IsUnion cmp U n)
    (honce : ∀ i, (part U i).Pairwise fun x y => cmp x.1 y.1 = .lt) {m : MergingIterator σ κ}
    (h : Follows cmp I U n m (some p)) (hdir : m.direction = .kReverse)
    (hp : U[p]? = some (c, a)) :
    ∃ m', m.next cmp I = some m' ∧ m'.direction = .kForward ∧
      Follows cmp I U n m' (place U (upper cmp U a.1)) := by
  refine next_of_reverse hU h hdir hp ?_ (fun i _ => rfl) fun i _ => countP_eq_le_one (honce i) a.1
  have hself := part_getElem?_rank_self hp
  rw [hU.rank_upper, countP_ne_gt, countP_lt_of_getElem? (honce c) hself,
    countP_eq_of_mem (honce c) (List.mem_of_getElem? hself)]

/-- A change of direction in `Prev` leads before all of them. -/
theorem turn_back (hU : IsUnion cmp U n)
    (honce : ∀ i, (part U i).Pairwise fun x y => cmp x.1 y.1 = .lt) {m : MergingIterator σ κ}
    (h : Follows cmp I U n m (some p)) (hdir : m.direction = .kForward)
    (hp : U[p]? = some (c, a)) :
    ∃ m', m.prev cmp I = some m' ∧ m'.direction = .kReverse ∧
      Follows cmp I U n m' (if lower cmp U a.1 = 0 then none else some (lower cmp U a.1 - 1)) := by
  refine prev_of_forward hU h hdir hp List.countP_le_length ?_ fun i _ => rfl
  rw [hU.rank_lower, countP_lt_of_getElem? (honce c) (part_getElem?_rank_self hp)]

/-- The union is sorted, position by position. -/
theorem IsUnion.ne_gt (hU : IsUnion cmp U n) {i j : ℕ} {x y : ℕ × (κ × ν)} (hij : i ≤ j)
    (hx : U[i]? = some x) (hy : U[j]? = some y) : cmp x.2.1 y.2.1 ≠ .gt := by
  obtain ⟨hi, rfl⟩ := List.getElem?_eq_some_iff.mp hx
  obtain ⟨hj, rfl⟩ := List.getElem?_eq_some_iff.mp hy
  rcases Nat.lt_or_eq_of_le hij with hlt | rfl
  · exact List.pairwise_iff_getElem.mp hU.sorted i j hi hj hlt
  · have hself : cmp U[i].2.1 U[i].2.1 = .eq := Std.ReflCmp.compare_self
    rw [hself]
    intro h
    cases h

/-- An entry from position `p` on is greater than those before it, if the first of them has another
key than the last of these. -/
theorem IsUnion.lt_of_apart (hU : IsUnion cmp U n) {x y : ℕ × (κ × ν)} {i j : ℕ}
    (hapart : ∀ x y, U[p]? = some x → U[p + 1]? = some y → cmp x.2.1 y.2.1 ≠ .eq)
    (hi : i ≤ p) (hj : p < j) (hx : U[i]? = some x) (hy : U[j]? = some y) :
    cmp x.2.1 y.2.1 = .lt := by
  have hlen := (List.getElem?_eq_some_iff.mp hy).1
  have hp := List.getElem?_eq_getElem (Nat.lt_trans hj hlen)
  have hp' := List.getElem?_eq_getElem (Nat.lt_of_le_of_lt hj hlen)
  have hle := hU.ne_gt hi hx hp
  have hle' := hU.ne_gt hj hp' hy
  have hlt : cmp U[p].2.1 U[p + 1].2.1 = .lt := by
    cases hcmp : cmp U[p].2.1 U[p + 1].2.1 with
    | lt => rfl
    | eq => exact absurd hcmp (hapart _ _ hp hp')
    | gt => exact absurd hcmp (hU.ne_gt (Nat.le_succ p) hp hp')
  exact Std.TransCmp.lt_of_isLE_of_lt (Ordering.isLE_iff_ne_gt.mpr hle)
    (Std.TransCmp.lt_of_lt_of_isLE hlt (Ordering.isLE_iff_ne_gt.mpr hle'))

/-- Where the next entry has another key, the entries with the current key end. -/
theorem IsUnion.upper_eq (hU : IsUnion cmp U n) (hp : U[p]? = some (c, a))
    (hapart : ∀ x y, U[p]? = some x → U[p + 1]? = some y → cmp x.2.1 y.2.1 ≠ .eq) :
    upper cmp U a.1 = p + 1 := by
  refine countP_eq_of_getElem? (List.getElem?_eq_some_iff.mp hp).1 fun i x hx => ?_
  rw [decide_eq_true_iff]
  refine ⟨fun hle => ?_, fun hi => hU.ne_gt (Nat.le_of_lt_succ hi) hx hp⟩
  by_contra hi
  exact hle (Std.OrientedCmp.gt_of_lt
    (hU.lt_of_apart hapart (Nat.le_refl p) (Nat.le_of_not_lt hi) hp hx))

/-- Where the previous entry has another key, they begin. -/
theorem IsUnion.lower_eq (hU : IsUnion cmp U n) (hp : U[p]? = some (c, a))
    (hapart : ∀ q x y, p = q + 1 → U[q]? = some x → U[q + 1]? = some y → cmp x.2.1 y.2.1 ≠ .eq) :
    lower cmp U a.1 = p := by
  refine countP_eq_of_getElem? (Nat.le_of_lt (List.getElem?_eq_some_iff.mp hp).1) fun i x hx => ?_
  rw [decide_eq_true_iff]
  constructor
  · intro hlt
    by_contra hi
    exact hU.ne_gt (Nat.le_of_not_lt hi) hp hx (Std.OrientedCmp.gt_of_lt hlt)
  · intro hi
    obtain ⟨q, rfl⟩ := Nat.exists_eq_add_one_of_ne_zero (Nat.ne_zero_of_lt hi)
    exact hU.lt_of_apart (hapart q · · rfl) (Nat.le_of_lt_succ hi) (Nat.lt_succ_self q) hx hp

end Turns

/-! ### Runs -/

variable (cmp)

/-- Where the operation changes the direction, the entries that it moves between have different
keys. -/
def TurnsApart (L : List (κ × ν)) (pos : Option ℕ) (direction : Direction) : Op κ → Prop
  | .next => direction = .kReverse → ∀ p a b, pos = some p → L[p]? = some a → L[p + 1]? = some b →
      cmp a.1 b.1 ≠ .eq
  | .prev => direction = .kForward → ∀ p a b, pos = some (p + 1) → L[p]? = some a →
      L[p + 1]? = some b → cmp a.1 b.1 ≠ .eq
  | .seek _ => True
  | .seekToFirst => True
  | .seekToLast => True

/-- Every operation of the run turns only between different keys. -/
def TurnsApartAlong (L : List (κ × ν)) (pos : Option ℕ) (direction : Direction) :
    List (Op κ) → Prop
  | [] => True
  | op :: ops => TurnsApart cmp L pos direction op ∧
    ∀ pos', Cursor.step (fun a k => cmp a.1 k = .lt) L pos op = some pos' →
      TurnsApartAlong L pos' (directionAfter op) ops

variable {cmp} [Std.TransCmp cmp]

/-- **One operation**: unless it turns between equal keys, it does to the iterator what it does to
the cursor on the union. -/
theorem step_of_turnsApart (hU : IsUnion cmp U n)
    (honce : ∀ i, (part U i).Pairwise fun x y => cmp x.1 y.1 = .lt) {m : MergingIterator σ κ}
    {at₀ at₁ : Option ℕ} {op : Op κ} (h : Follows cmp I U n m at₀)
    (hturn : TurnsApart cmp (U.map Prod.snd) at₀ m.direction op)
    (hop : Cursor.step (fun a k => cmp a.1 k = .lt) (U.map Prod.snd) at₀ op = some at₁) :
    ∃ m', (iterator cmp I).step m op = some m' ∧ m'.direction = directionAfter op ∧
      Follows cmp I U n m' at₁ := by
  have hget : ∀ (i : ℕ) (x : ℕ × (κ × ν)), U[i]? = some x → (U.map Prod.snd)[i]? = some x.2 := by
    intro i x hx
    rw [List.getElem?_map, hx]
    rfl
  refine step_follows_of hU h ?_ ?_ hop
  · rintro p rfl rfl
    cases hdir : m.direction with
    | kForward => exact next_of_forward hU h hdir
    | kReverse =>
      obtain ⟨c, a, hp, -⟩ := id h
      have hupper := hU.upper_eq hp fun x y hx hy =>
        hturn hdir p x.2 y.2 rfl (hget p x hx) (hget (p + 1) y hy)
      rw [← hupper]
      exact turn_forward hU honce h hdir hp
  · rintro p rfl rfl
    cases hdir : m.direction with
    | kForward =>
      obtain ⟨c, a, hp, -⟩ := id h
      have hlower := hU.lower_eq hp fun q x y hq hx hy =>
        hturn hdir q x.2 y.2 (congrArg some hq) (hget q x hx) (hget (q + 1) y hy)
      have hback := turn_back hU honce h hdir hp
      rwa [hlower] at hback
    | kReverse => exact prev_of_reverse hU h hdir

theorem run_of_turnsApart (hU : IsUnion cmp U n)
    (honce : ∀ i, (part U i).Pairwise fun x y => cmp x.1 y.1 = .lt) {m : MergingIterator σ κ}
    {at₀ at₁ : Option ℕ} {ops : List (Op κ)} (h : Follows cmp I U n m at₀)
    (hturns : TurnsApartAlong cmp (U.map Prod.snd) at₀ m.direction ops)
    (hops : Cursor.run (Cursor.step (fun a k => cmp a.1 k = .lt) (U.map Prod.snd)) at₀ ops
      = some at₁) :
    ∃ m', Cursor.run (iterator cmp I).step m ops = some m' ∧
      m'.direction = ops.foldl (fun _ op => directionAfter op) m.direction ∧
      Follows cmp I U n m' at₁ := by
  induction ops generalizing m at₀ with
  | nil =>
    cases hops
    exact ⟨m, rfl, rfl, h⟩
  | cons op ops ih =>
    rw [run_cons, Option.bind_eq_some_iff] at hops
    obtain ⟨pos, hop, hops⟩ := hops
    obtain ⟨m₁, hstep, hdir, hfollows⟩ := step_of_turnsApart hU honce h hturns.1 hop
    have hrest := hturns.2 pos hop
    rw [← hdir] at hrest
    obtain ⟨m', hrun, hdir', hfollows'⟩ := ih hfollows hrest hops
    refine ⟨m', ?_, ?_, hfollows'⟩
    · rw [run_cons, hstep]
      exact hrun
    · rw [hdir', hdir]
      rfl

/-- How many of the children have the key. -/
def holders (cmp : κ → κ → Ordering) (lists : List (List (κ × ν))) (k : κ) : ℕ :=
  lists.countP fun l => l.any fun b => cmp b.1 k = .eq

/-- A key of `K` children is in the union `K` times, if each child has it once. -/
theorem countP_sortedUnion {lists : List (List (κ × ν))}
    (honce : ∀ l ∈ lists, l.Pairwise fun x y => cmp x.1 y.1 = .lt) (k : κ) :
    ((sortedUnion cmp lists).countP fun b => cmp b.1 k = .eq) = holders cmp lists k := by
  rw [sortedUnion, (List.mergeSort_perm _ _).countP_eq, holders]
  induction lists with
  | nil => rfl
  | cons l lists ih =>
    rw [List.flatten_cons, List.countP_append, ih fun l' hl' =>
      honce l' (List.mem_cons_of_mem l hl'), List.countP_cons, Nat.add_comm]
    congr 1
    have hle := countP_eq_le_one (honce l List.mem_cons_self) k
    by_cases hany : (l.any fun b => cmp b.1 k = .eq) = true
    · rw [if_pos hany]
      obtain ⟨b, hb, heq⟩ := List.any_eq_true.mp hany
      exact Nat.le_antisymm hle (List.countP_pos_iff.mpr ⟨b, hb, heq⟩)
    · rw [if_neg hany]
      exact List.countP_eq_zero.mpr fun b hb heq => hany (List.any_eq_true.mpr ⟨b, hb, heq⟩)

/-- What is promised of the iterator at position `pos` of the union `L`: it shows the entry there,
a step in one direction and back leads to the same entry, and the entries that are left in either
direction are all still to come. -/
structure YieldsAll (cmp : κ → κ → Ordering) (I : Iterator σ κ ν) (L : List (κ × ν))
    (m : MergingIterator σ κ) (pos : Option ℕ) (direction : Direction) : Prop where
  entry_eq : (iterator cmp I).entry m = pos.bind fun p => L[p]?
  returns : ∀ there back, (there, back) = (.next, .prev) ∨ (there, back) = (.prev, .next) →
    TurnsApartAlong cmp L pos direction [there, back] →
    ∀ m₁, (iterator cmp I).step m there = some m₁ → ((iterator cmp I).entry m₁).isSome →
      ∃ m₂, (iterator cmp I).step m₁ back = some m₂ ∧
        (iterator cmp I).entry m₂ = (iterator cmp I).entry m
  forward : TurnsApart cmp L pos direction .next → ∀ fuel, L.length < fuel →
    (iterator cmp I).collect .next fuel m = some (pos.elim [] fun p => L.drop p)
  backward : TurnsApart cmp L pos direction .prev → ∀ fuel, L.length < fuel →
    (iterator cmp I).collect .prev fuel m = some (pos.elim [] fun p => (L.take (p + 1)).reverse)

omit [Std.TransCmp cmp] in
/-- A step and back is where it started, for a cursor that stays valid. -/
theorem cursor_returns {L : List (κ × ν)} {there back : Op κ} {at₁ : Option ℕ}
    (hback : (there, back) = (.next, .prev) ∨ (there, back) = (.prev, .next)) (hp : p < L.length)
    (hthere : Cursor.step (fun a k => cmp a.1 k = .lt) L (some p) there = some at₁)
    (hat₁ : at₁.isSome) :
    Cursor.step (fun a k => cmp a.1 k = .lt) L at₁ back = some (some p) := by
  rcases hback with h | h
  · cases h
    obtain rfl : place L (p + 1) = at₁ := Option.some.inj hthere
    by_cases hp' : p + 1 < L.length
    · rw [place_of_lt hp']
      rfl
    · rw [place_of_ge (Nat.le_of_not_lt hp')] at hat₁
      cases hat₁
  · cases h
    cases hthere
    cases p with
    | zero => cases hat₁
    | succ p => exact congrArg some (place_of_lt hp)

omit [Std.TransCmp cmp] in
theorem Follows.lt_length {m : MergingIterator σ κ} (h : Follows cmp I U n m (some p)) :
    p < (U.map Prod.snd).length := by
  obtain ⟨c, a, hp, -⟩ := h
  rw [List.length_map]
  exact (List.getElem?_eq_some_iff.mp hp).1

omit [Std.TransCmp cmp] in
/-- At no position there is nothing to collect. -/
theorem Follows.collect_none (hU : IsUnion cmp U n) {m : MergingIterator σ κ}
    (h : Follows cmp I U n m none) (op : Op κ) {fuel : ℕ} (hfuel : fuel ≠ 0) :
    (iterator cmp I).collect op fuel m = some [] := by
  obtain ⟨fuel, rfl⟩ := Nat.exists_eq_add_one_of_ne_zero hfuel
  rw [Iterator.collect, h.entry_eq hU]
  rfl

section Reached

variable (hU : IsUnion cmp U n)
  (honce : ∀ i, (part U i).Pairwise fun x y => cmp x.1 y.1 = .lt)

include hU honce

/-- A scan turns at most once, with its first step. -/
theorem Follows.collect_next {m : MergingIterator σ κ} (h : Follows cmp I U n m (some p))
    (hturn : TurnsApart cmp (U.map Prod.snd) (some p) m.direction .next) {fuel : ℕ}
    (hfuel : (U.map Prod.snd).length < fuel) :
    (iterator cmp I).collect .next fuel m = some ((U.map Prod.snd).drop p) := by
  have hR : Follows cmp I U n m (place (U.map Prod.snd) p) ∧
      TurnsApart cmp (U.map Prod.snd) (place (U.map Prod.snd) p) m.direction .next := by
    rw [place_of_lt h.lt_length]
    exact ⟨h, hturn⟩
  refine Iterator.collect_next (R := fun m pos => Follows cmp I U n m pos ∧
    TurnsApart cmp (U.map Prod.snd) pos m.direction .next) ?_ (fun m pos hR => hR.1.entry_eq hU)
    hR (by omega)
  intro m p hR
  obtain ⟨m', hstep, hdir, hfollows⟩ := step_of_turnsApart hU honce hR.1 hR.2 rfl
  refine ⟨m', hstep, hfollows, ?_⟩
  rw [hdir]
  intro h
  cases h

theorem Follows.collect_prev {m : MergingIterator σ κ} (h : Follows cmp I U n m (some p))
    (hturn : TurnsApart cmp (U.map Prod.snd) (some p) m.direction .prev) {fuel : ℕ}
    (hfuel : (U.map Prod.snd).length < fuel) :
    (iterator cmp I).collect .prev fuel m = some ((U.map Prod.snd).take (p + 1)).reverse := by
  have hlt := h.lt_length
  refine Iterator.collect_prev (R := fun m pos => Follows cmp I U n m pos ∧
    TurnsApart cmp (U.map Prod.snd) pos m.direction .prev) ?_ (fun m pos hR => hR.1.entry_eq hU)
    (m := p + 1) ⟨h, hturn⟩ hlt (by omega)
  intro m p hR
  obtain ⟨m', hstep, hdir, hfollows⟩ := step_of_turnsApart hU honce hR.1 hR.2 rfl
  refine ⟨m', hstep, hfollows, ?_⟩
  rw [hdir]
  intro h
  cases h

theorem Follows.returns {m m₁ : MergingIterator σ κ} {there back : Op κ}
    (h : Follows cmp I U n m (some p))
    (hback : (there, back) = (.next, .prev) ∨ (there, back) = (.prev, .next))
    (hturns : TurnsApartAlong cmp (U.map Prod.snd) (some p) m.direction [there, back])
    (hthere : (iterator cmp I).step m there = some m₁)
    (hvalid : ((iterator cmp I).entry m₁).isSome) :
    ∃ m₂, (iterator cmp I).step m₁ back = some m₂ ∧
      (iterator cmp I).entry m₂ = (iterator cmp I).entry m := by
  obtain ⟨at₁, hop⟩ : ∃ at₁, Cursor.step (fun a k => cmp a.1 k = .lt) (U.map Prod.snd) (some p)
      there = some at₁ := by
    rcases hback with h | h <;> cases h <;> exact ⟨_, rfl⟩
  obtain ⟨m₁', hstep, hdir, hfollows⟩ := step_of_turnsApart hU honce h hturns.1 hop
  cases hthere.symm.trans hstep
  have hat₁ : at₁.isSome := by
    rw [hfollows.entry_eq hU] at hvalid
    cases at₁ with
    | none => cases hvalid
    | some q => rfl
  have hturn := (hturns.2 at₁ hop).1
  rw [← hdir] at hturn
  obtain ⟨m₂, hstep', -, hfollows'⟩ := step_of_turnsApart hU honce hfollows hturn
    (cursor_returns hback h.lt_length hop hat₁)
  exact ⟨m₂, hstep', by rw [hfollows'.entry_eq hU, h.entry_eq hU]⟩

theorem Follows.yieldsAll {m : MergingIterator σ κ} {pos : Option ℕ}
    (h : Follows cmp I U n m pos) : YieldsAll cmp I (U.map Prod.snd) m pos m.direction := by
  cases pos with
  | none =>
    refine ⟨h.entry_eq hU, ?_, fun _ fuel hfuel => ?_, fun _ fuel hfuel => ?_⟩
    · -- neither step is allowed
      intro there back hback _ m₁ hthere
      have hkey : m.key = none := by simp [key, h.1]
      rcases hback with h | h <;> cases h <;> simp [iterator, next, prev, hkey] at hthere
    · exact h.collect_none hU .next (Nat.ne_zero_of_lt hfuel)
    · exact h.collect_none hU .prev (Nat.ne_zero_of_lt hfuel)
  | some p =>
    refine ⟨h.entry_eq hU, ?_, fun hturn fuel => h.collect_next hU honce hturn,
      fun hturn fuel => h.collect_prev hU honce hturn⟩
    exact fun there back hback hturns m₁ => h.returns hU honce hback hturns

end Reached

/-- **No entry is lost, as long as the iterator turns only between different keys.** -/
theorem yields_all_of_turnsApart {children : List σ} {lists : List (List (κ × ν))}
    (hchildren : List.Forall₂
      (fun s l => ∃ pos, I.Behaves (fun a k => cmp a.1 k = .lt) l s pos) children lists)
    (honce : ∀ l ∈ lists, l.Pairwise fun a b => cmp a.1 b.1 = .lt) {ops : List (Op κ)}
    {pos : Option ℕ}
    (hops : Cursor.run (Cursor.step (fun a k => cmp a.1 k = .lt) (sortedUnion cmp lists)) none ops
      = some pos)
    (hturns : TurnsApartAlong cmp (sortedUnion cmp lists) none .kForward ops) :
    (∃ m, Cursor.run (iterator cmp I).step (new I children) ops = some m ∧
      YieldsAll cmp I (sortedUnion cmp lists) m pos
        (ops.foldl (fun _ op => directionAfter op) .kForward)) ∧
    ∀ k, ((sortedUnion cmp lists).countP fun b => cmp b.1 k = .eq) = holders cmp lists k := by
  refine ⟨?_, countP_sortedUnion honce⟩
  have hsorted : ∀ l ∈ lists, l.Pairwise fun a b => cmp a.1 b.1 ≠ .gt := by
    intro l hl
    refine (honce l hl).imp fun hlt => ?_
    rw [hlt]
    intro h
    cases h
  obtain ⟨U, hmap, hunion, hpart⟩ := exists_isUnion hsorted
  have hparts : ∀ i, (part U i).Pairwise fun x y => cmp x.1 y.1 = .lt := by
    intro i
    by_cases hi : i < lists.length
    · rw [hpart i _ (List.getElem?_eq_getElem hi)]
      exact honce _ (List.getElem_mem hi)
    · have hnil : part U i = [] := List.eq_nil_iff_forall_not_mem.mpr fun a ha =>
        hi (hunion.tag_lt _ (mem_part.mp ha))
      rw [hnil]
      exact .nil
  rw [← hmap] at hops hturns ⊢
  obtain ⟨m, hrun, hdir, hfollows⟩ :=
    run_of_turnsApart hunion hparts (follows_new hchildren hpart) hturns hops
  refine ⟨m, hrun, ?_⟩
  have hall := hfollows.yieldsAll hunion hparts
  rwa [hdir] at hall

/-- Two children that share a key; the run turns in front of it and moves on over both entries. -/
theorem yields_all_of_turnsApart_two :
    let I : Iterator (List (ℕ × Char) × Option ℕ) ℕ Char :=
      .ofList fun a k => compare a.1 k = .lt
    let children : List (List (ℕ × Char) × Option ℕ) :=
      [([(1, 'a'), (2, 'b')], none), ([(2, 'c')], none)]
    let lists := [[(1, 'a'), (2, 'b')], [(2, 'c')]]
    (∃ m, Cursor.run (iterator compare I).step (new I children)
        [.seekToFirst, .next, .prev, .next, .next] = some m ∧
      YieldsAll compare I (sortedUnion compare lists) m (some 2) .kForward) ∧
    ∀ k, ((sortedUnion compare lists).countP fun b => compare b.1 k = .eq)
      = holders compare lists k := by
  intro I children lists
  have hunion : sortedUnion compare lists = [(1, 'a'), (2, 'b'), (2, 'c')]  :=
    List.mergeSort_of_pairwise (by decide)
  refine yields_all_of_turnsApart
    (.cons ⟨none, Iterator.behaves_ofList _ _ _⟩ (.cons ⟨none, Iterator.behaves_ofList _ _ _⟩ .nil))
    (by decide) (by rw [hunion]; decide) ?_
  rw [hunion]
  have hapart : ∀ p a b, some p = some 0 → [(1, 'a'), (2, 'b'), (2, 'c')][p]? = some a →
      [(1, 'a'), (2, 'b'), (2, 'c')][p + 1]? = some b → compare a.1 b.1 ≠ .eq := by
    rintro p a b ⟨⟩ ⟨⟩ ⟨⟩
    decide
  refine ⟨trivial, ?_⟩
  rintro _ ⟨⟩
  refine ⟨(fun h => by cases h), ?_⟩
  rintro _ ⟨⟩
  refine ⟨fun _ p a b hp => hapart p a b (by cases hp; rfl), ?_⟩
  rintro _ ⟨⟩
  refine ⟨fun _ p a b hp => hapart p a b (by cases hp; rfl), ?_⟩
  rintro _ ⟨⟩
  exact ⟨(fun h => by cases h), fun _ _ => trivial⟩

/-- A run that turns between equal keys. It is at the first of two entries with the key 2; a step
forward leads to the second, but the step back to the entry before both, and the scan back from the
second never shows the first. -/
theorem not_yields_all :
    let I : Iterator (List (ℕ × Char) × Option ℕ) ℕ Char :=
      .ofList fun a k => compare a.1 k = .lt
    let children : List (List (ℕ × Char) × Option ℕ) :=
      [([(1, 'a'), (2, 'b')], none), ([(2, 'c')], none)]
    ∃ m m₁ m₂,
      Cursor.run (iterator compare I).step (new I children) [.seekToFirst, .next] = some m ∧
      (iterator compare I).entry m = some (2, 'b') ∧
      (iterator compare I).step m .next = some m₁ ∧
      (iterator compare I).entry m₁ = some (2, 'c') ∧
      (iterator compare I).step m₁ .prev = some m₂ ∧
      (iterator compare I).entry m₂ = some (1, 'a') ∧
      (iterator compare I).collect .prev 4 m₁ = some [(2, 'c'), (1, 'a')] :=
  ⟨_, _, _, rfl, rfl, rfl, rfl, rfl, rfl, rfl⟩

end MergingIterator

end Squirrel
