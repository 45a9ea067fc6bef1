import Squirrel.Db.SkipListInsert

/-!
# A skip list is a sorted list

Run without interference, the searches return what a scan of the ordered list of nodes would, and
`Insert` puts its node in its place at each of its levels. So a skip list behaves like the sorted
list of its keys, and its iterator like a cursor on that list.

## Main results

* `Levels.findGreaterOrEqual_eq`, `Levels.findLessThan_eq`, `Levels.findLast_eq`
* `Levels.insert` — one `Insert`
* `insertAll_refines` — any sequence of them, then `Contains` and the iterator
-/

namespace Squirrel

namespace SkipList

open Std

variable {K : Type} [Inhabited K] {cmp : K → K → Ordering} {s : SkipList K} {order : List ℕ}
  {linked : ℕ → ℕ} {b : ℕ → Bool} {x ℓ : ℕ}

namespace Levels

variable [TransCmp cmp]

/-! ### The searches -/

theorem findGreaterOrEqualLoop_eq (h : Levels cmp s order linked) (k : K) (prev : ℕ → Option ℕ)
    {fuel : ℕ} (hp : Probe order linked (before cmp s k) x ℓ)
    (hfuel : (after x (0 :: order)).length + ℓ < fuel) :
    ∃ prev', findGreaterOrEqualLoop cmp s k fuel ⟨x, ℓ, prev⟩
        = some (order.find? fun n => !before cmp s k n, prev') ∧
      (∀ j ≤ ℓ, prev' j = some (prevOf order linked (before cmp s k) j)) ∧
      ∀ j, ℓ < j → prev' j = prev j := by
  induction fuel generalizing x ℓ prev with
  | zero => exact absurd hfuel (Nat.not_lt_zero _)
  | succ fuel ih =>
    have hload := h.next_of_probe hp
    simp only [findGreaterOrEqualLoop, hload, Option.bind_eq_bind, Option.bind_some]
    rcases h.turn_cases ⟨x, ℓ, prev⟩ hp hload with
      ⟨n, hturn, hp', hlt⟩ | ⟨hprev, ⟨hℓ, hturn⟩ | ⟨hℓ, hturn⟩⟩
    · have hfuel' : (after n (0 :: order)).length + ℓ < fuel := by
        simp only at hlt
        omega
      rw [hturn]
      exact ih prev hp' hfuel'
    · simp only at hℓ hprev
      obtain ⟨prev', hloop, hle, hgt⟩ := ih (Function.update prev ℓ (some x)) (probe_down hp)
        (by omega)
      rw [hturn]
      refine ⟨prev', hloop, fun j hj => ?_, fun j hj => ?_⟩
      · rcases Nat.lt_or_ge j ℓ with hlt | hge
        · exact hle j (by omega)
        · obtain rfl : j = ℓ := Nat.le_antisymm hj hge
          rw [hgt j (by omega), Function.update_self, hprev]
      · rw [hgt j (by omega), Function.update_of_ne (Nat.ne_of_gt hj)]
    · simp only at hℓ hprev
      subst hℓ
      rw [hturn]
      refine ⟨_, rfl, fun j hj => ?_, fun j hj => Function.update_of_ne (Nat.ne_of_gt hj) _ _⟩
      obtain rfl : j = 0 := Nat.le_zero.mp hj
      rw [Function.update_self, hprev]

omit [TransCmp cmp] in
theorem lt_fuel (h : Levels cmp s order linked) :
    (after 0 (0 :: order)).length + (s.maxHeight - 1) < s.fuel := by
  have hsize := h.size
  have hmax := h.maxHeight.1
  rw [after_cons_self, fuel]
  omega

omit [TransCmp cmp] in
theorem probe_top (h : Levels cmp s order linked) (b : ℕ → Bool) :
    Probe order linked b 0 (s.maxHeight - 1) := by
  have hmax := h.maxHeight
  exact h.probe_zero b (by omega)

/-- **`FindGreaterOrEqual`** finds the first node that is not before the key, and the nodes in front
of the key at every level. -/
theorem findGreaterOrEqual_eq (h : Levels cmp s order linked) (k : K) :
    ∃ prev, findGreaterOrEqual cmp s k = some (order.find? fun n => !before cmp s k n, prev) ∧
      ∀ j < s.maxHeight, prev j = some (prevOf order linked (before cmp s k) j) := by
  obtain ⟨prev, hloop, hle, -⟩ :=
    h.findGreaterOrEqualLoop_eq k (fun _ => none) (h.probe_top _) h.lt_fuel
  exact ⟨prev, hloop, fun j hj => hle j (by omega)⟩

theorem findLessThanLoop_eq (h : Levels cmp s order linked) (k : K) {fuel : ℕ}
    (hp : Probe order linked (before cmp s k) x ℓ)
    (hfuel : (after x (0 :: order)).length + ℓ < fuel) :
    findLessThanLoop cmp s k fuel x ℓ = some (prevOf order linked (before cmp s k) 0) := by
  induction fuel generalizing x ℓ with
  | zero => exact absurd hfuel (Nat.not_lt_zero _)
  | succ fuel ih =>
    simp only [findLessThanLoop, h.next_of_probe hp, Option.bind_eq_bind, Option.bind_some]
    -- Off the level, or at the end.
    have hdown : (∀ n, ((after x (0 :: order)).filter fun n => ℓ < linked n).head? = some n →
        before cmp s k n = false) →
        (if ℓ = 0 then some x else findLessThanLoop cmp s k fuel x (ℓ - 1))
          = some (prevOf order linked (before cmp s k) 0) := by
      intro hstop
      split
      · next hℓ =>
        subst hℓ
        rw [h.probe_stop (closed_before s k) hp hstop]
      · exact ih (probe_down hp) (by omega)
    cases hnext : ((after x (0 :: order)).filter fun n => ℓ < linked n).head? with
    | none => exact hdown fun n hn => absurd (hnext.symm.trans hn) (by simp)
    | some n =>
      by_cases hb : cmp (s.key n) k = .lt
      · obtain ⟨hp', hlt⟩ := h.probe_forward hp hnext (by simpa [before] using hb)
        simp only [hb, if_true]
        exact ih hp' (by omega)
      · simp only [hb, if_false]
        refine hdown fun m hm => ?_
        cases hnext.symm.trans hm
        simpa [before] using hb

/-- **`FindLessThan`** finds the last node before the key. -/
theorem findLessThan_eq (h : Levels cmp s order linked) (k : K) :
    findLessThan cmp s k = some (prevOf order linked (before cmp s k) 0) :=
  h.findLessThanLoop_eq k (h.probe_top _) h.lt_fuel

theorem findLastLoop_eq (h : Levels cmp s order linked) {fuel : ℕ}
    (hp : Probe order linked (fun _ => true) x ℓ)
    (hfuel : (after x (0 :: order)).length + ℓ < fuel) :
    findLastLoop s fuel x ℓ = some (prevOf order linked (fun _ => true) 0) := by
  induction fuel generalizing x ℓ with
  | zero => exact absurd hfuel (Nat.not_lt_zero _)
  | succ fuel ih =>
    simp only [findLastLoop, h.next_of_probe hp, Option.bind_eq_bind, Option.bind_some]
    cases hnext : ((after x (0 :: order)).filter fun n => ℓ < linked n).head? with
    | some n =>
      obtain ⟨hp', hlt⟩ := h.probe_forward hp hnext rfl
      exact ih hp' (by omega)
    | none =>
      simp only
      split
      · next hℓ =>
        subst hℓ
        rw [h.probe_stop (closed_true s) hp fun n hn => absurd (hnext.symm.trans hn) (by simp)]
      · exact ih (probe_down hp) (by omega)

omit [TransCmp cmp] in
/-- On the bottom level a search goes past every node it could. -/
theorem prevOf_zero (h : Levels cmp s order linked) (b : ℕ → Bool) :
    prevOf order linked b 0 = (order.filter b).getLastD 0 := by
  rw [prevOf, List.filter_eq_self.mpr]
  intro n hn
  simpa using (h.pos n (List.mem_filter.mp hn).1).1

/-- **`FindLast`** finds the last node. -/
theorem findLast_eq (h : Levels cmp s order linked) : s.findLast = some (order.getLastD 0) := by
  have hloop := h.findLastLoop_eq (h.probe_top _) h.lt_fuel
  rw [h.prevOf_zero, List.filter_eq_self.mpr fun _ _ => rfl] at hloop
  exact hloop

end Levels

/-! ### Inserting -/

section Insert

variable [TransCmp cmp] {height : ℕ} {k : K} {prev : ℕ → Option ℕ}

/-- What linking a node leaves alone. -/
structure Frame (s s' : SkipList K) : Prop where
  key : ∀ n, s'.key n = s.key n
  height : ∀ n, s'.height n = s.height n
  length : s'.nodes.length = s.nodes.length
  maxHeight : s'.maxHeight = s.maxHeight

/-- One round of the last loop of `Insert`. -/
theorem Linking.link_round {i : ℕ} (h : Linking cmp s order linked x k height prev i)
    (hi : i < height) :
    ∃ s', link x prev s i = some s' ∧ Frame s s' ∧
      Linking cmp s'
        (if i = 0 then order.filter (before cmp s k) ++ x :: order.filter fun n => !before cmp s k n
          else order)
        (Function.update linked x (i + 1)) x k height prev (i + 1) := by
  obtain ⟨v, hv⟩ := h.load hi
  obtain ⟨hown, hvx⟩ := h.storeOwn hi v
  have hne : prevOf order linked (before cmp s k) i ≠ x := by
    intro heq
    -- Nothing equal to the key is in front of it.
    have hself : cmp (s.key x) (s.key x) = .eq := ReflCmp.compare_self
    have hx0 : x ≠ 0 := Nat.pos_iff_ne_zero.mp h.alloc.1
    rw [prevOf, List.getLastD_eq_getLast?] at heq
    cases hl : ((order.filter (before cmp s k)).filter fun n => i < linked n).getLast? with
    | none =>
      rw [hl] at heq
      exact hx0 heq.symm
    | some n =>
      rw [hl] at heq
      have hmem := (List.mem_filter.mp (List.mem_filter.mp (List.mem_of_getLast? hl)).1).2
      rw [Option.getD_some] at heq
      rw [heq] at hmem
      rw [← h.key_eq] at hmem
      simp [before, hself] at hmem
  have hslot := lt_of_next hvx
  have hnext : (s.setNext x i v).next (prevOf order linked (before cmp s k) i) i = some v := by
    have hx := h.alloc.2
    rw [next_setNext hx (by rw [h.height_eq]; exact hi), if_neg fun hc => hne hc.1.symm]
    exact hv
  obtain ⟨order', linked', hlink, rfl, rfl⟩ := hown.publish hi (by
    rw [before_setNext]
    exact hvx.trans hnext.symm)
  rw [before_setNext] at hlink
  refine ⟨_, ?_, ⟨fun n => ?_, fun n => ?_, ?_, ?_⟩, hlink⟩
  · rw [link, h.prev_eq i hi, Option.bind_eq_bind, Option.bind_some, hv, Option.bind_eq_bind,
      Option.bind_some]
  · rw [key_setNext, key_setNext]
  · rw [height_setNext, height_setNext]
  · rw [length_nodes_setNext, length_nodes_setNext]
  · rfl

/-- The whole loop. -/
theorem Linking.link_rounds (h : Linking cmp s order linked x k height prev 0) (j : ℕ)
    (hj : j ≤ height) :
    ∃ s', (List.range j).foldlM (link x prev) s = some s' ∧ Frame s s' ∧
      Linking cmp s'
        (if j = 0 then order
          else order.filter (before cmp s k) ++ x :: order.filter fun n => !before cmp s k n)
        (if j = 0 then linked else Function.update linked x j) x k height prev j := by
  induction j with
  | zero => exact ⟨s, rfl, ⟨fun _ => rfl, fun _ => rfl, rfl, rfl⟩, h⟩
  | succ j ih =>
    obtain ⟨s₁, hfold, hframe, hlink⟩ := ih (by omega)
    obtain ⟨s₂, hround, hframe', hlink'⟩ := hlink.link_round (by omega)
    refine ⟨s₂, ?_, ⟨fun n => ?_, fun n => ?_, ?_, ?_⟩, ?_⟩
    · rw [List.range_succ, List.foldlM_append, hfold]
      simp [hround]
    · rw [hframe'.key, hframe.key]
    · rw [hframe'.height, hframe.height]
    · rw [hframe'.length, hframe.length]
    · rw [hframe'.maxHeight, hframe.maxHeight]
    · have hbefore : before cmp s₁ k = before cmp s k := by
        funext n
        rw [before, before, hframe.key]
      rw [if_neg (Nat.succ_ne_zero j), if_neg (Nat.succ_ne_zero j)]
      rcases Nat.eq_zero_or_pos j with rfl | hpos
      · simpa [hbefore] using hlink'
      · have hj0 := Nat.pos_iff_ne_zero.mp hpos
        rw [if_neg hj0, if_neg hj0, if_neg hj0, Function.update_idem] at hlink'
        exact hlink'

/-- **One `Insert`** of a key that equals no key in the list. -/
theorem Levels.insert (h : Levels cmp s order linked) (hne : ∀ n ∈ order, cmp (s.key n) k ≠ .eq)
    (hpos : 0 < height) (hle : height ≤ kMaxHeight) :
    ∃ s', insert cmp s k height = some s' ∧ s'.nodes.length = s.nodes.length + 1 ∧
      s'.key s.nodes.length = k ∧ s'.height s.nodes.length = height ∧
      (∀ n < s.nodes.length, s'.key n = s.key n ∧ s'.height n = s.height n) ∧
      Levels cmp s'
        (order.filter (before cmp s k) ++ s.nodes.length :: order.filter fun n => !before cmp s k n)
        (Function.update linked s.nodes.length height) := by
  obtain ⟨prev, hfind, hprev⟩ := h.findGreaterOrEqual_eq k
  -- The assertion holds.
  have hassert : ¬ ∃ n, order.find? (fun n => !before cmp s k n) = some n ∧
      cmp k (s.key n) = .eq := by
    rintro ⟨n, hn, heq⟩
    exact hne n (List.mem_of_find?_eq_some hn) (OrientedCmp.eq_symm heq)
  set m := max s.maxHeight height with hm
  set s₁ : SkipList K := { s with maxHeight := m } with hs₁
  set prev' : ℕ → Option ℕ := fillPrev prev s.maxHeight height with hprev'
  have hraise : Levels cmp s₁ order linked :=
    h.raise (le_max_left _ _) (max_le h.maxHeight.2 hle)
  have hsize := h.size
  have hnode : (s₁.newNode k height).1 = s.nodes.length := rfl
  have hnew : (s₁.newNode k height).2.node s.nodes.length = ⟨k, List.replicate height none⟩ :=
    node_newNode_self s₁ k height
  have hold : ∀ n < s.nodes.length, (s₁.newNode k height).2.node n = s.node n := fun n hn =>
    node_newNode s₁ k height hn
  have hbefore : ∀ n ∈ order, before cmp (s₁.newNode k height).2 k n = before cmp s k n := by
    intro n hn
    rw [before, before, key, hold n (h.alloc n hn).2, key]
  have hlen : (s₁.newNode k height).2.nodes.length = s.nodes.length + 1 := by
    simp [SkipList.newNode, hs₁]
  have hlinking : Linking cmp (s₁.newNode k height).2 order linked s.nodes.length k height prev'
      0 := by
    refine ⟨hraise.newNode k height, ⟨by omega, by omega⟩, by rw [key, hnew], ?_, le_max_right _ _,
      fun j hj => ?_, fun _ => ⟨fun hmem => ?_, fun n hn => ?_, by omega⟩, fun hc => absurd rfl hc⟩
    · rw [SkipList.height, hnew, List.length_replicate]
    · have hsame : prevOf order linked (before cmp (s₁.newNode k height).2 k) j
          = prevOf order linked (before cmp s k) j := by
        rw [prevOf, prevOf, List.filter_congr hbefore]
      rw [hsame, hprev', fillPrev]
      split
      · next hc =>
        have hnone : (order.filter (before cmp s k)).filter (fun n => j < linked n) = [] := by
          refine List.filter_eq_nil_iff.mpr fun n hn => ?_
          have := (h.pos n (List.mem_filter.mp hn).1).2
          simp only [decide_eq_true_eq]
          omega
        rw [prevOf, hnone, List.getLastD_nil]
      · exact hprev j (by omega)
    · exact absurd (h.alloc _ hmem).2 (Nat.lt_irrefl _)
    · rw [key, hold n (h.alloc n hn).2]
      exact hne n hn
  obtain ⟨s', hfold, hframe, hlink⟩ := hlinking.link_rounds height le_rfl
  have hlo : order.filter (before cmp (s₁.newNode k height).2 k) = order.filter (before cmp s k) :=
    List.filter_congr hbefore
  have hhi : order.filter (fun n => !before cmp (s₁.newNode k height).2 k n)
      = order.filter fun n => !before cmp s k n :=
    List.filter_congr fun n hn => by rw [hbefore n hn]
  rw [if_neg (Nat.pos_iff_ne_zero.mp hpos), if_neg (Nat.pos_iff_ne_zero.mp hpos), hlo, hhi] at hlink
  refine ⟨s', ?_, hframe.length.trans hlen, ?_, ?_, fun n hn => ⟨?_, ?_⟩, hlink.levels⟩
  · have hprevs : (if s.maxHeight < height then fillPrev prev s.maxHeight height else prev)
        = prev' := by
      split
      · rfl
      · next hc =>
        funext i
        rw [hprev', fillPrev, if_neg (by omega)]
    have hs : (if s.maxHeight < height then { s with maxHeight := height } else s) = s₁ := by
      split
      · next hc => rw [hs₁, hm, max_eq_right hc.le]
      · next hc => rw [hs₁, hm, max_eq_left (by omega)]
    rw [SkipList.insert, hfind, Option.bind_eq_bind, Option.bind_some]
    simp only
    rw [if_neg hassert, hprevs, hs]
    exact hfold
  · exact hlink.key_eq
  · exact hlink.height_eq
  · rw [hframe.key, key, hold n hn, key]
  · rw [hframe.height, SkipList.height, hold n hn, SkipList.height]

end Insert

/-! ### Iterating -/

section Iterate

variable [TransCmp cmp]

/-- The nodes behind the one at position `i`. -/
theorem Levels.after_getElem (h : Levels cmp s order linked) {i : ℕ} (hi : order[i]? = some x) :
    after x (0 :: order) = order.drop (i + 1) := by
  obtain ⟨hlt, rfl⟩ := List.getElem?_eq_some_iff.mp hi
  have hsplit : 0 :: order = (0 :: order.take i) ++ order[i] :: order.drop (i + 1) := by
    rw [List.cons_append, List.getElem_cons_drop, List.take_append_drop]
  have hnd := h.nodup
  rw [hsplit] at hnd
  rw [hsplit]
  exact after_append_cons (fun hmem => List.disjoint_of_nodup_append hnd hmem List.mem_cons_self) _

/-- The nodes before the key of the one at position `i`. -/
theorem Levels.filter_before_getElem (h : Levels cmp s order linked) {i : ℕ}
    (hi : order[i]? = some x) : order.filter (before cmp s (s.key x)) = order.take i := by
  obtain ⟨hlt, hget⟩ := List.getElem?_eq_some_iff.mp hi
  have hself : cmp (s.key x) (s.key x) = .eq := ReflCmp.compare_self
  have hsplit : order = order.take i ++ x :: order.drop (i + 1) := by
    rw [← hget, List.getElem_cons_drop, List.take_append_drop]
  have hsorted := h.sorted
  rw [hsplit] at hsorted
  obtain ⟨-, hback, hcross⟩ := List.pairwise_append.mp hsorted
  have hnone : (order.drop (i + 1)).filter (before cmp s (s.key x)) = [] := by
    refine List.filter_eq_nil_iff.mpr fun n hn hb => ?_
    have hlt' := (List.pairwise_cons.mp hback).1 n hn
    have := closed_before s _ _ _ hlt' hb
    simp [before, hself] at this
  have hall : (order.take i).filter (before cmp s (s.key x)) = order.take i := by
    refine List.filter_eq_self.mpr fun n hn => ?_
    simpa [before] using hcross n hn _ List.mem_cons_self
  conv_lhs => rw [hsplit]
  rw [List.filter_append, List.filter_cons_of_neg (by simp [before, hself]), hnone, hall,
    List.append_nil]

/-- The iterator's node is the one at the cursor's position. -/
def IterAt (order : List ℕ) (it : Option ℕ) (pos : Option ℕ) : Prop :=
  it = pos.bind (order[·]?) ∧ ∀ i ∈ pos, i < order.length

theorem iterAt_place (order : List ℕ) (i : ℕ) : IterAt order order[i]? (Cursor.place order i) := by
  rcases Nat.lt_or_ge i order.length with hlt | hge
  · rw [Cursor.place_of_lt hlt]
    refine ⟨rfl, fun j hj => ?_⟩
    cases hj
    exact hlt
  · rw [Cursor.place_of_ge hge, List.getElem?_eq_none hge]
    exact ⟨rfl, fun j hj => absurd hj (by simp)⟩

/-- `FindLessThan` and `FindLast` return `head_` for nothing, which the iterator turns into null. -/
theorem ite_getLastD (l : List ℕ) (h : 0 ∉ l) :
    (if l.getLastD 0 = 0 then none else some (l.getLastD 0)) = l.getLast? := by
  rw [List.getLastD_eq_getLast?]
  cases hl : l.getLast? with
  | none => rfl
  | some n =>
    rw [Option.getD_some, if_neg]
    rintro rfl
    exact h (List.mem_of_getLast? hl)

/-- **One operation of the iterator** is one of a cursor on the keys in order. -/
theorem Levels.iterStep_refines (h : Levels cmp s order linked) {it pos pos' : Option ℕ}
    (op : Cursor.Op K) (hit : IterAt order it pos)
    (hstep : Cursor.step (fun a k => cmp a k = .lt) (order.map s.key) pos op = some pos') :
    ∃ it', iterStep cmp s it op = some it' ∧ IterAt order it' pos' := by
  have hplace : ∀ i, Cursor.place (order.map s.key) i = Cursor.place order i := fun i => by
    rw [Cursor.place, Cursor.place, List.length_map]
  obtain ⟨rfl, hpos⟩ := hit
  cases op with
  | seek target =>
    obtain ⟨prev, hfind, -⟩ := h.findGreaterOrEqual_eq target
    cases hstep
    refine ⟨_, by simp only [iterStep, hfind, Option.bind_eq_bind, Option.bind_some]; rfl, ?_⟩
    rw [List.findIdx_map, hplace, List.find?_eq_getElem?_findIdx]
    exact iterAt_place order _
  | seekToFirst =>
    cases hstep
    refine ⟨order[0]?, ?_, hplace 0 ▸ iterAt_place order 0⟩
    have hnext := h.next_of_probe (h.probe_zero (fun _ => true) (show 0 < kMaxHeight by decide))
    rw [after_cons_self, List.filter_eq_self.mpr fun n hn => by simpa using (h.pos n hn).1] at hnext
    rw [iterStep, hnext, List.head?_eq_getElem?]
  | seekToLast =>
    cases hstep
    refine ⟨order[order.length - 1]?, ?_, ?_⟩
    · simp only [iterStep, h.findLast_eq, Option.bind_eq_bind, Option.bind_some]
      rw [ite_getLastD _ h.zero_notMem, List.getLast?_eq_getElem?]
    · rw [hplace, List.length_map]
      exact iterAt_place order _
  | next =>
    cases pos with
    | none => exact absurd hstep (by simp [Cursor.step])
    | some i =>
      cases hstep
      have hlt := hpos i rfl
      have hx : order[i]? = some order[i] := List.getElem?_eq_getElem hlt
      have hat : IterAt order order[i + 1]? (Cursor.place (order.map s.key) (i + 1)) := by
        rw [hplace]
        exact iterAt_place order (i + 1)
      refine ⟨order[i + 1]?, ?_, hat⟩
      have hmem : order[i] ∈ order := List.getElem_mem hlt
      have hchain := h.chain_of_mem (List.mem_cons_of_mem 0 hmem) (h.pos _ hmem).1
      have hall : (order.drop (i + 1)).filter (fun n => 0 < linked n) = order.drop (i + 1) :=
        List.filter_eq_self.mpr fun n hn => by simpa using (h.pos n (List.mem_of_mem_drop hn)).1
      rw [h.after_getElem hx, hall] at hchain
      simp only [iterStep, Option.bind_some, hx, Option.bind_eq_bind]
      rw [hchain.next_eq, List.head?_drop]
  | prev =>
    cases pos with
    | none => exact absurd hstep (by simp [Cursor.step])
    | some i =>
      cases hstep
      have hlt := hpos i rfl
      have hx : order[i]? = some order[i] := List.getElem?_eq_getElem hlt
      refine ⟨(order.take i).getLast?, ?_, ?_⟩
      · simp only [iterStep, Option.bind_some, hx, Option.bind_eq_bind, h.findLessThan_eq,
          h.prevOf_zero, h.filter_before_getElem hx]
        rw [ite_getLastD _ fun hmem => h.zero_notMem (List.mem_of_mem_take hmem)]
      · by_cases hi : i = 0
        · subst hi
          exact ⟨by simp, fun j hj => absurd hj (by simp)⟩
        · simp only [hi, if_false]
          refine ⟨?_, fun j hj => ?_⟩
          · rw [List.getLast?_eq_getElem?, List.length_take, min_eq_left hlt.le,
              List.getElem?_take_of_lt (by omega)]
            rfl
          · cases hj
            omega

end Iterate

/-! ### Whole runs -/

section Run

variable [TransCmp cmp]

variable (cmp) in
/-- The list holds the entries, each a key with its height, in the order of `order`. -/
structure Holds (s : SkipList K) (entries : List (K × ℕ)) (order : List ℕ) : Prop where
  levels : Levels cmp s order s.height
  perm : (order.map fun n => (s.key n, s.height n)).Perm entries

omit [TransCmp cmp] in
theorem holds_new : Holds cmp (new : SkipList K) [] [] := by
  refine ⟨levels_new.congr fun n hn => ?_, List.Perm.refl _⟩
  rw [List.mem_singleton.mp hn]
  rfl

theorem Holds.insert {entries : List (K × ℕ)} (h : Holds cmp s entries order) {e : K × ℕ}
    (hne : ∀ e' ∈ entries, cmp e'.1 e.1 ≠ .eq) (hheight : 1 ≤ e.2 ∧ e.2 ≤ kMaxHeight) :
    ∃ s' order', insert cmp s e.1 e.2 = some s' ∧ Holds cmp s' (e :: entries) order' := by
  have hfresh : ∀ n ∈ order, cmp (s.key n) e.1 ≠ .eq := by
    intro n hn
    exact hne (s.key n, s.height n) (h.perm.subset (List.mem_map.mpr ⟨n, hn, rfl⟩))
  obtain ⟨s', hins, -, hkey, hheight', hold, hlevels⟩ :=
    h.levels.insert hfresh hheight.1 hheight.2
  have hlt : ∀ n ∈ 0 :: order, n < s.nodes.length := by
    intro n hn
    rcases List.mem_cons.mp hn with rfl | hn
    · exact Nat.zero_lt_of_lt h.levels.size
    · exact (h.levels.alloc n hn).2
  have horder := h.levels.order_eq (closed_before s e.1)
  refine ⟨s', _, hins, hlevels.congr fun n hn => ?_, ?_⟩
  · by_cases hn' : n = s.nodes.length
    · rw [hn', hheight', Function.update_self]
    · rw [Function.update_of_ne hn']
      refine (hold n (hlt n ?_)).2
      rcases List.mem_cons.mp hn with rfl | hn
      · exact List.mem_cons_self
      · refine List.mem_cons_of_mem 0 ?_
        rw [horder]
        rcases List.mem_append.mp hn with hn | hn
        · exact List.mem_append_left _ hn
        · exact List.mem_append_right _ ((List.mem_cons.mp hn).resolve_left hn')
  · refine (List.Perm.map _ List.perm_middle).trans ?_
    rw [List.map_cons, hkey, hheight', ← horder]
    refine List.Perm.cons e ?_
    have hmap : (order.map fun n => (s'.key n, s'.height n))
        = order.map fun n => (s.key n, s.height n) :=
      List.map_congr_left fun n hn => by
        obtain ⟨h1, h2⟩ := hold n (hlt n (List.mem_cons_of_mem 0 hn))
        rw [h1, h2]
    rw [hmap]
    exact h.perm

theorem Holds.insertAll {entries more : List (K × ℕ)} (h : Holds cmp s entries order)
    (hne : (more.reverse ++ entries).Pairwise fun e e' => cmp e'.1 e.1 ≠ .eq)
    (hheight : ∀ e ∈ more, 1 ≤ e.2 ∧ e.2 ≤ kMaxHeight) :
    ∃ s' order', insertAll cmp s more = some s' ∧
      Holds cmp s' (more.reverse ++ entries) order' := by
  induction more generalizing s entries order with
  | nil => exact ⟨s, order, rfl, h⟩
  | cons e more ih =>
    rw [List.reverse_cons, List.append_assoc, List.singleton_append] at hne ⊢
    have hfirst := (List.pairwise_append.mp hne).2.1
    obtain ⟨s₁, order₁, hins, h₁⟩ :=
      h.insert (List.pairwise_cons.mp hfirst).1 (hheight e List.mem_cons_self)
    obtain ⟨s', order', hall, h'⟩ :=
      ih h₁ hne fun e' he' => hheight e' (List.mem_cons_of_mem e he')
    refine ⟨s', order', ?_, h'⟩
    rw [SkipList.insertAll, List.foldlM_cons, hins]
    exact hall

omit [TransCmp cmp] in
/-- What a search found: the least node that is not before the key, if there is one. -/
theorem Levels.find_least (h : Levels cmp s order linked) (k : K) {m : ℕ}
    (hfind : (order.find? fun n => !before cmp s k n) = some m) :
    m ∈ order ∧ cmp (s.key m) k ≠ .lt ∧
      ∀ n ∈ order, cmp (s.key n) k ≠ .lt → n = m ∨ cmp (s.key m) (s.key n) = .lt := by
  obtain ⟨hm, pre, post, hsplit, hpre⟩ := List.find?_eq_some_iff_append.mp hfind
  refine ⟨List.mem_of_find?_eq_some hfind, by simpa [before] using hm, fun n hn hkey => ?_⟩
  have hsorted := h.sorted
  rw [hsplit] at hn hsorted
  rcases List.mem_append.mp hn with hn | hn
  · exact absurd (hpre n hn) (by simp [before, hkey])
  · rcases List.mem_cons.mp hn with rfl | hn
    · exact Or.inl rfl
    · right
      exact (List.pairwise_cons.mp (List.pairwise_append.mp hsorted).2.1).1 n hn

/-- What `Contains` returns. -/
theorem Levels.contains_eq (h : Levels cmp s order linked) (k : K) :
    ∃ found, contains cmp s k = some found ∧
      (found = true ↔ ∃ n ∈ order, cmp k (s.key n) = .eq) := by
  obtain ⟨prev, hfind, -⟩ := h.findGreaterOrEqual_eq k
  cases hres : order.find? fun n => !before cmp s k n with
  | none =>
    refine ⟨false, by simp [contains, hfind, hres], ?_⟩
    constructor
    · exact fun hc => absurd hc (by simp)
    · rintro ⟨n, hn, heq⟩
      have hb := List.find?_eq_none.mp hres n hn
      have heq' : cmp (s.key n) k = .eq := OrientedCmp.eq_symm heq
      simp [before, heq'] at hb
  | some m =>
    refine ⟨decide (cmp k (s.key m) = .eq), by simp [contains, hfind, hres], ?_⟩
    rw [decide_eq_true_eq]
    obtain ⟨hm, hge, hleast⟩ := h.find_least k hres
    constructor
    · exact fun heq => ⟨m, hm, heq⟩
    · rintro ⟨n, hn, heq⟩
      have heq' : cmp (s.key n) k = .eq := OrientedCmp.eq_symm heq
      rcases hleast n hn (by rw [heq']; decide) with rfl | hlt
      · exact heq
      · exact absurd (TransCmp.lt_of_lt_of_eq hlt heq') hge

variable (cmp) in
/-- **A skip list refines a sorted set.** For every strict total order and every sequence of
`Insert` calls with distinct keys and heights from one to `kMaxHeight`: the bottom level holds the
keys in order, each higher level the nodes tall enough for it, and the levels from `max_height_` on
are empty; `Contains` says whether a key was inserted, and the iterator moves like a cursor. -/
theorem insertAll_refines [LawfulEqCmp cmp] (entries : List (K × ℕ))
    (hdistinct : (entries.map Prod.fst).Nodup)
    (hheight : ∀ e ∈ entries, 1 ≤ e.2 ∧ e.2 ≤ kMaxHeight) :
    ∃ s order, insertAll cmp new entries = some s ∧
      Chain (fun x => s.next x 0) 0 order ∧
      (order.map s.key).Pairwise (fun a b => cmp a b = .lt) ∧
      (order.map fun n => (s.key n, s.height n)).Perm entries ∧
      (∀ ℓ < kMaxHeight, Chain (fun x => s.next x ℓ) 0 (order.filter fun n => ℓ < s.height n)) ∧
      (∀ ℓ, (order.filter fun n => ℓ + 1 < s.height n).Sublist
        (order.filter fun n => ℓ < s.height n)) ∧
      (∀ ℓ < kMaxHeight, s.maxHeight ≤ ℓ → s.next 0 ℓ = some none) ∧
      (∀ k, ∃ found, contains cmp s k = some found ∧
        (found = true ↔ k ∈ entries.map Prod.fst)) ∧
      ∀ ops pos, Cursor.run (Cursor.step (fun a k => cmp a k = .lt) (order.map s.key)) none ops
          = some pos →
        ∃ it, Cursor.run (iterStep cmp s) none ops = some it ∧ it.isSome = pos.isSome ∧
          it.map s.key = pos.bind fun i => (order.map s.key)[i]? := by
  have hpair : List.Pairwise (fun e e' : K × ℕ => cmp e'.1 e.1 ≠ .eq) (entries.reverse ++ []) := by
    rw [List.append_nil, List.pairwise_reverse]
    refine (List.pairwise_map.mp hdistinct).imp fun {a b} hab heq => ?_
    exact hab (LawfulEqCmp.compare_eq_iff_eq.mp heq)
  obtain ⟨s, order, hall, hlevels, hperm⟩ := holds_new.insertAll hpair hheight
  rw [List.append_nil] at hperm
  have hbottom : order.filter (fun n => 0 < s.height n) = order :=
    List.filter_eq_self.mpr fun n hn => by simpa using (hlevels.pos n hn).1
  have hperm' := hperm.trans entries.reverse_perm
  refine ⟨s, order, hall, hbottom ▸ hlevels.chain 0 (by decide),
    List.pairwise_map.mpr hlevels.sorted, hperm', hlevels.chain, fun ℓ => ?_, fun ℓ hℓ hmax =>
      ?_, fun k => ?_, fun ops pos hrun => ?_⟩
  · refine List.monotone_filter_right order fun n hn => ?_
    simp only [decide_eq_true_eq] at hn ⊢
    omega
  · have hchain := hlevels.chain ℓ hℓ
    have hnone : order.filter (fun n => ℓ < s.height n) = [] := by
      refine List.filter_eq_nil_iff.mpr fun n hn => ?_
      have := (hlevels.pos n hn).2
      simp only [decide_eq_true_eq]
      omega
    rw [hnone] at hchain
    exact hchain
  · obtain ⟨found, hfound, hiff⟩ := hlevels.contains_eq k
    refine ⟨found, hfound, hiff.trans ?_⟩
    have hkeys : (order.map s.key).Perm (entries.map Prod.fst) := by
      have := hperm'.map Prod.fst
      rwa [List.map_map] at this
    rw [← hkeys.mem_iff, List.mem_map]
    constructor
    · rintro ⟨n, hn, heq⟩
      exact ⟨n, hn, (LawfulEqCmp.compare_eq_iff_eq.mp heq).symm⟩
    · rintro ⟨n, hn, rfl⟩
      exact ⟨n, hn, ReflCmp.compare_self⟩
  · have hstart : IterAt order none none := ⟨rfl, fun i hi => absurd hi (by simp)⟩
    obtain ⟨it, hit, heq, hlt⟩ := Cursor.run_simulates
      (fun it pos op pos' hR hstep => hlevels.iterStep_refines op hR hstep) hstart hrun
    refine ⟨it, hit, ?_, ?_⟩
    · rw [heq]
      cases pos with
      | none => rfl
      | some i =>
        rw [Option.bind_some, List.getElem?_eq_getElem (hlt i rfl)]
        rfl
    · rw [heq]
      cases pos with
      | none => rfl
      | some i => rw [Option.bind_some, Option.bind_some, List.getElem?_map]

/-- Three keys, of the least and the greatest height and one between. -/
theorem insertAll_three :
    ∃ s, insertAll compare (new : SkipList ℕ) [(5, 1), (3, 12), (8, 2)] = some s ∧
    contains compare s 8 = some true ∧ contains compare s 4 = some false := by
  obtain ⟨s, order, hall, -, -, -, -, -, -, hcontains, -⟩ :=
    insertAll_refines (compare : ℕ → ℕ → Ordering) [(5, 1), (3, 12), (8, 2)] (by decide) (by decide)
  obtain ⟨found, hfound, hiff⟩ := hcontains 8
  obtain ⟨found', hfound', hiff'⟩ := hcontains 4
  refine ⟨s, hall, ?_, ?_⟩
  · rw [hfound, hiff.mpr (by decide)]
  · rw [hfound', Bool.eq_false_iff.mpr fun h => absurd (hiff'.mp h) (by decide)]

end Run

end SkipList

end Squirrel
