import Squirrel.Db.SkipList
import Squirrel.Lib.LinkedList
import Mathlib.Data.List.GetD

/-!
# The levels of a skip list

`Levels cmp s order linked` describes a skip list by the list `order` of its nodes and the number
`linked n` of levels each is linked at: level `ℓ` is the sublist of the nodes with `ℓ < linked n`.
For a node whose `Insert` is over `linked` is its height; for one that is being inserted it counts
the levels done so far, so that the same description serves between any two stores of an `Insert`.

A search stands at a node that is linked at its level and comes before the key, which is `Probe`.
What it loads next, and where it ends up, is read off `order`.

## Main results

* `Levels.next_of_probe`, `Levels.probe_forward`, `Levels.probe_stop` — one round of a search
* `Levels.link_bottom`, `Levels.link_above` — what publishing a node at one more level does
-/

namespace Squirrel

namespace SkipList

open Std

variable {K : Type} [Inhabited K] {cmp : K → K → Ordering} {s : SkipList K}

/-! ### Loads and stores -/

theorem node_of_ge {x : ℕ} (h : s.nodes.length ≤ x) : s.node x = default := by
  rw [node, List.getD_eq_default _ _ h]

/-- A slot that holds something is within the tower of an allocated node. -/
theorem lt_of_next {x level : ℕ} {y : Option ℕ} (h : s.next x level = some y) :
    x < s.nodes.length ∧ level < s.height x := by
  refine ⟨?_, ?_⟩
  · by_contra hge
    rw [next, node_of_ge (Nat.not_lt.mp hge)] at h
    simp [default] at h
  · by_contra hge
    rw [next, List.getD_eq_default _ _ (Nat.not_lt.mp hge)] at h
    exact absurd h (by simp)

theorem node_setNext (s : SkipList K) (x level : ℕ) (y : Option ℕ) (z : ℕ) :
    (s.setNext x level y).node z =
      if x = z ∧ z < s.nodes.length then
        { s.node z with next := (s.node z).next.set level (some y) }
      else s.node z := by
  simp only [node, setNext, List.getD_eq_getElem?_getD, List.getElem?_modify]
  by_cases hz : z < s.nodes.length
  · by_cases hx : x = z <;> simp [hx, hz]
  · simp [hz]

@[simp] theorem key_setNext (s : SkipList K) (x level : ℕ) (y : Option ℕ) (z : ℕ) :
    (s.setNext x level y).key z = s.key z := by
  rw [key, node_setNext]
  split <;> rfl

@[simp] theorem height_setNext (s : SkipList K) (x level : ℕ) (y : Option ℕ) (z : ℕ) :
    (s.setNext x level y).height z = s.height z := by
  rw [height, node_setNext]
  split
  · rw [List.length_set]
    rfl
  · rfl

omit [Inhabited K] in
@[simp] theorem length_nodes_setNext (s : SkipList K) (x level : ℕ) (y : Option ℕ) :
    (s.setNext x level y).nodes.length = s.nodes.length := List.length_modify _ _ _

omit [Inhabited K] in
@[simp] theorem maxHeight_setNext (s : SkipList K) (x level : ℕ) (y : Option ℕ) :
    (s.setNext x level y).maxHeight = s.maxHeight := rfl

/-- A store changes one slot. -/
theorem next_setNext {x level : ℕ} (hx : x < s.nodes.length) (hl : level < s.height x)
    (y : Option ℕ) (z ℓ : ℕ) :
    (s.setNext x level y).next z ℓ = if x = z ∧ level = ℓ then some y else s.next z ℓ := by
  rw [next, node_setNext]
  by_cases hz : x = z
  · subst hz
    rw [if_pos ⟨rfl, hx⟩]
    by_cases hℓ : level = ℓ
    · subst hℓ
      have hlt : level < ((s.node x).next.set level (some y)).length := by
        rw [List.length_set]
        exact hl
      rw [if_pos ⟨rfl, rfl⟩, List.getD_eq_getElem _ _ hlt, List.getElem_set_self]
    · rw [if_neg fun hc => hℓ hc.2, next, List.getD_eq_getElem?_getD, List.getElem?_set_ne hℓ,
        ← List.getD_eq_getElem?_getD]
  · rw [if_neg fun hc => hz hc.1, if_neg fun hc => hz hc.1, next]

theorem node_newNode (s : SkipList K) (k : K) (h : ℕ) {z : ℕ} (hz : z < s.nodes.length) :
    (s.newNode k h).2.node z = s.node z := by
  rw [newNode, node, List.getD_append _ _ _ _ hz, node]

theorem node_newNode_self (s : SkipList K) (k : K) (h : ℕ) :
    (s.newNode k h).2.node s.nodes.length = ⟨k, List.replicate h none⟩ := by
  simp [newNode, node]

/-! ### Levels -/

variable (cmp) in
/-- The nodes in order, and the number of levels each is linked at. -/
structure Levels (s : SkipList K) (order : List ℕ) (linked : ℕ → ℕ) : Prop where
  sorted : order.Pairwise fun a b => cmp (s.key a) (s.key b) = .lt
  /-- Level `ℓ` holds the nodes linked at more than `ℓ` levels. -/
  chain : ∀ ℓ < kMaxHeight, Chain (fun x => s.next x ℓ) 0 (order.filter fun n => ℓ < linked n)
  alloc : ∀ n ∈ order, 0 < n ∧ n < s.nodes.length
  pos : ∀ n ∈ order, 0 < linked n ∧ linked n ≤ s.maxHeight
  head : linked 0 = kMaxHeight
  maxHeight : 0 < s.maxHeight ∧ s.maxHeight ≤ kMaxHeight
  size : order.length < s.nodes.length

variable (cmp) in
/-- The node comes before the key. -/
def before (s : SkipList K) (k : K) (n : ℕ) : Bool := cmp (s.key n) k = .lt

variable (cmp) in
/-- What a search goes past: in front of a node it goes past there are only such nodes. -/
def Closed (s : SkipList K) (b : ℕ → Bool) : Prop :=
  ∀ x y, cmp (s.key x) (s.key y) = .lt → b y = true → b x = true

theorem closed_before [TransCmp cmp] (s : SkipList K) (k : K) : Closed cmp s (before cmp s k) := by
  intro x y hxy hy
  simp only [before, decide_eq_true_eq] at hy ⊢
  exact TransCmp.lt_trans hxy hy

theorem closed_true (s : SkipList K) : Closed cmp s fun _ => true := fun _ _ _ _ => rfl

/-- The last node that a search goes past at a level. -/
def prevOf (order : List ℕ) (linked : ℕ → ℕ) (b : ℕ → Bool) (ℓ : ℕ) : ℕ :=
  ((order.filter b).filter fun n => ℓ < linked n).getLastD 0

/-- Where a search can stand: at a node linked at its level that it goes past. -/
structure Probe (order : List ℕ) (linked : ℕ → ℕ) (b : ℕ → Bool) (x ℓ : ℕ) : Prop where
  mem : x ∈ 0 :: order
  linked : ℓ < linked x
  past : x ≠ 0 → b x = true

namespace Levels

variable {order : List ℕ} {linked : ℕ → ℕ} {b : ℕ → Bool} {x ℓ : ℕ}

theorem linked_le (h : Levels cmp s order linked) (hx : x ∈ 0 :: order) :
    linked x ≤ kMaxHeight := by
  rcases List.mem_cons.mp hx with rfl | hx
  · exact h.head.le
  · exact (h.pos x hx).2.trans h.maxHeight.2

theorem zero_notMem (h : Levels cmp s order linked) : 0 ∉ order :=
  fun hmem => absurd (h.alloc 0 hmem).1 (Nat.lt_irrefl 0)

/-- A node linked at a level points to the next node linked there. -/
theorem chain_of_mem (h : Levels cmp s order linked) (hx : x ∈ 0 :: order) (hl : ℓ < linked x) :
    Chain (fun x => s.next x ℓ) x ((after x (0 :: order)).filter fun n => ℓ < linked n) := by
  have hℓ : ℓ < kMaxHeight := hl.trans_le (h.linked_le hx)
  have hhead : (0 :: order).filter (fun n => ℓ < linked n)
      = 0 :: order.filter fun n => ℓ < linked n := by
    rw [List.filter_cons_of_pos (by simpa [h.head] using hℓ)]
  rw [← after_filter (by simpa using hl), hhead]
  refine (h.chain ℓ hℓ).after ?_
  rw [← hhead]
  exact List.mem_filter.mpr ⟨hx, by simpa using hl⟩

theorem probe_zero (h : Levels cmp s order linked) (b : ℕ → Bool) (hℓ : ℓ < kMaxHeight) :
    Probe order linked b 0 ℓ :=
  ⟨List.mem_cons_self, by rw [h.head]; exact hℓ, fun hne => absurd rfl hne⟩

/-- **What a search loads.** -/
theorem next_of_probe (h : Levels cmp s order linked) (hp : Probe order linked b x ℓ) :
    s.next x ℓ = some ((after x (0 :: order)).filter fun n => ℓ < linked n).head? :=
  (h.chain_of_mem hp.mem hp.linked).next_eq

theorem probe_down (hp : Probe order linked b x ℓ) : Probe order linked b x (ℓ - 1) :=
  ⟨hp.mem, (Nat.sub_le ℓ 1).trans_lt hp.linked, hp.past⟩

variable [TransCmp cmp]

theorem nodup (h : Levels cmp s order linked) : (0 :: order).Nodup := by
  refine List.nodup_cons.mpr ⟨h.zero_notMem, h.sorted.imp fun {a b} hab => ?_⟩
  rintro rfl
  have hself : cmp (s.key a) (s.key a) = .eq := ReflCmp.compare_self
  exact absurd (hself.symm.trans hab) (by simp)

omit [TransCmp cmp] in
/-- The nodes that a search goes past come first. -/
theorem order_eq (h : Levels cmp s order linked) (hb : Closed cmp s b) :
    order = order.filter b ++ order.filter (fun n => !b n) :=
  filter_append_filter_not h.sorted hb

/-- A search that goes on along its level stands at a node again, closer to the end. -/
theorem probe_forward (h : Levels cmp s order linked) (hp : Probe order linked b x ℓ) {n : ℕ}
    (hn : ((after x (0 :: order)).filter fun n => ℓ < linked n).head? = some n)
    (hn' : b n = true) :
    Probe order linked b n ℓ ∧
      (after n (0 :: order)).length < (after x (0 :: order)).length := by
  obtain ⟨hmem, hl⟩ := List.mem_filter.mp (List.mem_of_mem_head? hn)
  exact ⟨⟨after_subset n hmem, by simpa using hl, fun _ => hn'⟩,
    length_after_lt h.nodup hp.mem hmem⟩

/-- The nodes of a list in front of a member of it, in order. -/
theorem order_split (h : Levels cmp s order linked) (hb : Closed cmp s b)
    (hp : Probe order linked b x ℓ) :
    ∃ pre, 0 :: order = pre ++ x :: after x (0 :: order) ∧
      (∀ n ∈ pre ++ [x], n ≠ 0 → b n = true) ∧
      ∀ n ∈ after x (0 :: order), n ∈ order := by
  obtain ⟨pre, hpre⟩ := exists_eq_append_after hp.mem
  refine ⟨pre, hpre, fun n hn hn0 => ?_, fun n hn => ?_⟩
  · rcases List.mem_append.mp hn with hn | hn
    · cases pre with
      | nil => exact absurd hn List.not_mem_nil
      | cons y pre =>
        obtain ⟨rfl, htail⟩ := List.cons.inj hpre
        have hn' : n ∈ pre := (List.mem_cons.mp hn).resolve_left hn0
        have hx0 : x ≠ 0 := by
          rintro rfl
          exact h.zero_notMem (htail ▸ List.mem_append_right _ List.mem_cons_self)
        have hpair := h.sorted
        rw [htail] at hpair
        exact hb _ _ ((List.pairwise_append.mp hpair).2.2 n hn' x List.mem_cons_self)
          (hp.past hx0)
    · rw [List.mem_singleton] at hn
      subst hn
      exact hp.past hn0
  · have hmem := after_subset n hn
    refine (List.mem_cons.mp hmem).resolve_left fun hn0 => ?_
    subst hn0
    have hnd := h.nodup
    rw [hpre] at hnd
    cases pre with
    | nil =>
      obtain ⟨rfl, -⟩ := List.cons.inj hpre
      exact (List.nodup_cons.mp hnd).1 hn
    | cons y pre =>
      obtain ⟨rfl, -⟩ := List.cons.inj hpre
      rw [List.cons_append] at hnd
      exact (List.nodup_cons.mp hnd).1 (List.mem_append_right _ (List.mem_cons_of_mem _ hn))

/-- Along a level, the nodes behind one that is not before the key are not either. -/
theorem not_past_of_head (h : Levels cmp s order linked) (hb : Closed cmp s b)
    (hp : Probe order linked b x ℓ)
    (hstop : ∀ n, ((after x (0 :: order)).filter fun n => ℓ < linked n).head? = some n →
      b n = false) :
    ∀ n ∈ (after x (0 :: order)).filter (fun n => ℓ < linked n), b n = false := by
  obtain ⟨pre, hpre, -, hsub⟩ := h.order_split hb hp
  have hsorted : (after x (0 :: order)).Pairwise fun a b => cmp (s.key a) (s.key b) = .lt := by
    refine List.Pairwise.sublist ?_ h.sorted
    cases pre with
    | nil =>
      obtain ⟨-, htail⟩ := List.cons.inj hpre
      exact htail ▸ List.Sublist.refl _
    | cons y pre =>
      obtain ⟨-, htail⟩ := List.cons.inj hpre
      conv_rhs => rw [htail]
      exact (List.sublist_cons_self _ _).trans (List.sublist_append_right _ _)
  intro n hn
  cases hl : (after x (0 :: order)).filter fun n => ℓ < linked n with
  | nil =>
    rw [hl] at hn
    exact absurd hn List.not_mem_nil
  | cons m rest =>
    have hm := hstop m (by rw [hl]; rfl)
    have hpair := hsorted.sublist (List.filter_sublist (p := fun n => decide (ℓ < linked n)))
    rw [hl] at hn hpair
    rcases List.mem_cons.mp hn with rfl | hrest
    · exact hm
    · by_contra hbn
      have hlt := (List.pairwise_cons.mp hpair).1 n hrest
      exact absurd (hb _ _ hlt (by simpa using hbn)) (by simp [hm])

/-- **Where a search leaves its level**: at the node in front of the key. -/
theorem probe_stop (h : Levels cmp s order linked) (hb : Closed cmp s b)
    (hp : Probe order linked b x ℓ)
    (hstop : ∀ n, ((after x (0 :: order)).filter fun n => ℓ < linked n).head? = some n →
      b n = false) : prevOf order linked b ℓ = x := by
  obtain ⟨pre, hpre, hfront, hsub⟩ := h.order_split hb hp
  have hback := h.not_past_of_head hb hp hstop
  -- The head counts as being in front of the key; then the nodes in front of it end with `x`.
  set q : ℕ → Bool := fun n => (decide (n = 0) || b n) && decide (ℓ < linked n)
    with hq
  have hqx : q x = true := by
    rcases eq_or_ne x 0 with rfl | hx0
    · simp [hq, hp.linked]
    · simp [hq, hp.past hx0, hp.linked]
  have hpost : (after x (0 :: order)).filter q = [] := by
    refine List.filter_eq_nil_iff.mpr fun n hn => ?_
    have hn0 : n ≠ 0 := fun heq => h.zero_notMem (heq ▸ hsub n hn)
    simp only [hq, hn0, decide_false, Bool.false_or, Bool.and_eq_true, not_and, decide_eq_true_eq]
    intro hbn hl
    exact absurd (hback n (List.mem_filter.mpr ⟨hn, by simpa using hl⟩)) (by simp [hbn])
  have hlist : (0 :: order).filter q
      = 0 :: (order.filter b).filter fun n => ℓ < linked n := by
    have hℓ : ℓ < kMaxHeight := hp.linked.trans_le (h.linked_le hp.mem)
    rw [List.filter_cons_of_pos (by simp [hq, h.head, hℓ]), List.filter_filter]
    congr 1
    refine List.filter_congr fun n hn => ?_
    have hn0 : n ≠ 0 := fun heq => h.zero_notMem (heq ▸ hn)
    simp [hq, hn0, Bool.and_comm]
  have hlast : ((0 :: order).filter q).getLastD 0 = x := by
    rw [hpre, List.filter_append, List.filter_cons_of_pos hqx, hpost]
    simp
  rw [hlist, List.getLastD_cons] at hlast
  exact hlast

/-- **What a search returns.** On the bottom level, what is behind the search is what is not before
the key. -/
theorem filter_not_past (h : Levels cmp s order linked) (hb : Closed cmp s b)
    (hp : Probe order linked b x 0)
    (hstop : ∀ n, ((after x (0 :: order)).filter fun n => 0 < linked n).head? = some n →
      b n = false) :
    (after x (0 :: order)).filter (fun n => 0 < linked n)
      = order.filter fun n => !b n := by
  obtain ⟨pre, hpre, hfront, hsub⟩ := h.order_split hb hp
  have hback := h.not_past_of_head hb hp hstop
  have hall : (after x (0 :: order)).filter (fun n => 0 < linked n) = after x (0 :: order) :=
    List.filter_eq_self.mpr fun n hn => by simpa using (h.pos n (hsub n hn)).1
  rw [hall] at hback ⊢
  have hlist : (0 :: order).filter (fun n => decide (n ≠ 0) && !b n)
      = order.filter fun n => !b n := by
    rw [List.filter_cons_of_neg (by simp)]
    refine List.filter_congr fun n hn => ?_
    have hn0 : n ≠ 0 := fun heq => h.zero_notMem (heq ▸ hn)
    simp [hn0]
  have hnone : (pre ++ [x]).filter (fun n => decide (n ≠ 0) && !b n) = [] := by
    refine List.filter_eq_nil_iff.mpr fun n hn => ?_
    by_cases hn0 : n = 0
    · simp [hn0]
    · simp [hfront n hn hn0]
  generalize after x (0 :: order) = post at *
  rw [← hlist, hpre, ← List.singleton_append, ← List.append_assoc, List.filter_append, hnone,
    List.nil_append]
  refine (List.filter_eq_self.mpr fun n hn => ?_).symm
  have hn0 : n ≠ 0 := fun heq => h.zero_notMem (heq ▸ hsub n hn)
  simp [hn0, hback n hn]

end Levels

/-! ### One round of a search -/

theorem turn_forward {k : K} {n : ℕ} (h : before cmp s k n = true) (st : Search) :
    turn cmp s k st (some n) = .inl { st with x := n } := by
  have hafter : keyIsAfterNode cmp s k (some n) = true := h
  simp [turn, hafter]

theorem turn_stop {k : K} {next : Option ℕ} (h : ∀ n, next = some n → before cmp s k n = false)
    (st : Search) :
    turn cmp s k st next =
      if st.level = 0 then .inr (next, Function.update st.prev st.level (some st.x))
      else .inl { st with
        level := st.level - 1, prev := Function.update st.prev st.level (some st.x) } := by
  cases next with
  | none => rfl
  | some n =>
    have hafter : keyIsAfterNode cmp s k (some n) = false := h n rfl
    simp [turn, hafter]

/-- Either the next node is gone past, or the search leaves its level. -/
theorem forward_or_stop (b : ℕ → Bool) (next : Option ℕ) :
    (∃ n, next = some n ∧ b n = true) ∨ ∀ n, next = some n → b n = false := by
  cases next with
  | none => exact Or.inr fun n hn => absurd hn (by simp)
  | some n =>
    cases hb : b n with
    | true => exact Or.inl ⟨n, rfl, hb⟩
    | false =>
      refine Or.inr fun m hm => ?_
      cases hm
      exact hb

namespace Levels

variable {order : List ℕ} {linked : ℕ → ℕ} {b : ℕ → Bool} {x ℓ : ℕ} [TransCmp cmp]

/-- **One round of `FindGreaterOrEqual`**: on to another node; or off the level, where the node in
front of the key is found, and from the bottom level to the result. -/
theorem turn_cases (h : Levels cmp s order linked) {k : K} (st : Search)
    (hp : Probe order linked (before cmp s k) st.x st.level) {next : Option ℕ}
    (hload : s.next st.x st.level = some next) :
    (∃ n, turn cmp s k st next = .inl { st with x := n } ∧
        Probe order linked (before cmp s k) n st.level ∧
        (after n (0 :: order)).length < (after st.x (0 :: order)).length) ∨
      prevOf order linked (before cmp s k) st.level = st.x ∧
        (st.level ≠ 0 ∧ turn cmp s k st next = .inl { st with
            level := st.level - 1, prev := Function.update st.prev st.level (some st.x) } ∨
          st.level = 0 ∧ turn cmp s k st next = .inr (order.find? fun n => !before cmp s k n,
            Function.update st.prev st.level (some st.x))) := by
  obtain rfl := Option.some.inj (hload.symm.trans (h.next_of_probe hp))
  rcases forward_or_stop (before cmp s k)
    ((after st.x (0 :: order)).filter fun n => st.level < linked n).head? with ⟨n, hn, hb⟩ | hstop
  · obtain ⟨hp', hlt⟩ := h.probe_forward hp hn hb
    exact Or.inl ⟨n, hn ▸ turn_forward hb st, hp', hlt⟩
  · refine Or.inr ⟨h.probe_stop (closed_before s k) hp hstop, ?_⟩
    rw [turn_stop hstop]
    by_cases hℓ : st.level = 0
    · refine Or.inr ⟨hℓ, ?_⟩
      rw [if_pos hℓ]
      rw [hℓ] at hp hstop ⊢
      rw [h.filter_not_past (closed_before s k) hp hstop, List.head?_filter]
    · exact Or.inl ⟨hℓ, if_neg hℓ⟩

/-! ### Stores -/

omit [TransCmp cmp] in
/-- A store to a slot that no level runs through. -/
theorem setNext_own (h : Levels cmp s order linked) {i : ℕ} (hx : x < s.nodes.length)
    (hi : i < s.height x) (hout : x ∈ 0 :: order → linked x ≤ i) (y : Option ℕ) :
    Levels cmp (s.setNext x i y) order linked where
  sorted := by simpa using h.sorted
  chain ℓ hℓ := by
    refine (h.chain ℓ hℓ).congr fun z hz => ?_
    rw [next_setNext hx hi, if_neg]
    rintro ⟨rfl, rfl⟩
    rcases List.mem_cons.mp hz with rfl | hz
    · exact absurd (hout List.mem_cons_self) (by rw [h.head]; omega)
    · obtain ⟨hmem, hl⟩ := List.mem_filter.mp hz
      exact absurd (hout (List.mem_cons_of_mem _ hmem)) (by simpa using hl)
  alloc := by simpa using h.alloc
  pos := by simpa using h.pos
  head := h.head
  maxHeight := by simpa using h.maxHeight
  size := by simpa using h.size

/-- The level below a published slot: node `x` is linked in behind the last of `pre`. -/
theorem chain_setNext (h : Levels cmp s order linked) {i : ℕ} (hi : i < kMaxHeight)
    {pre post : List ℕ} (hsplit : order.filter (fun n => i < linked n) = pre ++ post)
    (hx : s.next x i = s.next (pre.getLastD 0) i) (hfresh : x ∉ 0 :: (pre ++ post)) :
    Chain (fun z => (s.setNext (pre.getLastD 0) i (some x)).next z i) 0 (pre ++ x :: post) ∧
      ∀ ℓ < kMaxHeight, ℓ ≠ i → Chain (fun z => (s.setNext (pre.getLastD 0) i (some x)).next z ℓ) 0
        (order.filter fun n => ℓ < linked n) := by
  have hchain := h.chain i hi
  rw [hsplit] at hchain
  have hnext : s.next (pre.getLastD 0) i = some post.head? := hchain.of_append.next_eq
  obtain ⟨hp, hl⟩ := lt_of_next hnext
  have hnodup : (0 :: (pre ++ post)).Nodup := by
    rw [← hsplit]
    exact h.nodup.sublist (List.cons_sublist_cons.mpr List.filter_sublist)
  refine ⟨?_, fun ℓ hℓ hne => ?_⟩
  · refine (hchain.insert (hx.trans hnext) hnodup hfresh).congr fun z _ => ?_
    rw [next_setNext hp hl, Function.update_apply]
    simp only [and_true, eq_comm]
  · refine (h.chain ℓ hℓ).congr fun z _ => ?_
    rw [next_setNext hp hl, if_neg fun hc => hne hc.2.symm]

/-- **Publishing a node at the bottom** puts it into the order, linked at one level. -/
theorem link_bottom (h : Levels cmp s order linked) (hx : x ∉ 0 :: order) (hlt : x < s.nodes.length)
    (hne : ∀ n ∈ order, cmp (s.key n) (s.key x) ≠ .eq) (hsize : order.length + 1 < s.nodes.length)
    (hnext : s.next x 0 = s.next (prevOf order linked (before cmp s (s.key x)) 0) 0) :
    Levels cmp (s.setNext (prevOf order linked (before cmp s (s.key x)) 0) 0 (some x))
      (order.filter (before cmp s (s.key x)) ++ x :: order.filter fun n =>
        !before cmp s (s.key x) n)
      (Function.update linked x 1) := by
  have hx0 : x ≠ 0 := fun heq => hx (heq ▸ List.mem_cons_self)
  have hxo : x ∉ order := fun hmem => hx (List.mem_cons_of_mem _ hmem)
  have hlinked : ∀ n ∈ order, Function.update linked x 1 n = linked n := fun n hn =>
    Function.update_of_ne (fun heq : n = x => hxo (heq ▸ hn)) _ _
  set lo := order.filter (before cmp s (s.key x)) with hlo
  set hi := order.filter (fun n => !before cmp s (s.key x) n) with hhi
  have horder : order = lo ++ hi := h.order_eq (closed_before s (s.key x))
  have hbottom : ∀ l : List ℕ, (∀ n ∈ l, n ∈ order) → l.filter (fun n => 0 < linked n) = l :=
    fun l hl => List.filter_eq_self.mpr fun n hn => by simpa using (h.pos n (hl n hn)).1
  have hmem : ∀ n ∈ lo ++ hi, n ∈ order := fun n hn => horder ▸ hn
  have hlofilter : lo.filter (fun n => 0 < linked n) = lo :=
    hbottom lo fun n hn => hmem n (List.mem_append_left _ hn)
  have hprev : prevOf order linked (before cmp s (s.key x)) 0 = lo.getLastD 0 := by
    rw [prevOf, ← hlo, hlofilter]
  rw [hprev] at hnext ⊢
  have hsplit : order.filter (fun n => 0 < linked n) = lo ++ hi := by
    rw [hbottom order fun n hn => hn]
    exact horder
  obtain ⟨hchain0, hchain⟩ := h.chain_setNext (by decide) hsplit hnext (horder ▸ hx)
  have hpos := h.maxHeight
  refine ⟨?_, fun ℓ hℓ => ?_, ?_, ?_, ?_, h.maxHeight, ?_⟩
  · simp only [key_setNext]
    have hsorted := h.sorted
    rw [horder] at hsorted
    obtain ⟨hplo, hphi, hcross⟩ := List.pairwise_append.mp hsorted
    refine List.pairwise_append.mpr ⟨hplo, List.pairwise_cons.mpr ⟨fun n hn => ?_, hphi⟩,
      fun a ha b hb => ?_⟩
    · have hnb := (List.mem_filter.mp hn).2
      simp only [before, Bool.not_eq_true', decide_eq_false_iff_not] at hnb
      have hneq := hne n (List.mem_filter.mp hn).1
      refine OrientedCmp.gt_iff_lt.mp ?_
      cases hc : cmp (s.key n) (s.key x) with
      | lt => exact absurd hc hnb
      | eq => exact absurd hc hneq
      | gt => rfl
    · rcases List.mem_cons.mp hb with rfl | hb
      · simpa [before] using (List.mem_filter.mp ha).2
      · exact hcross a ha b hb
  · have hother : ∀ l : List ℕ, (∀ n ∈ l, n ∈ order) →
        l.filter (fun n => ℓ < Function.update linked x 1 n) = l.filter fun n => ℓ < linked n :=
      fun l hl => List.filter_congr fun n hn => by rw [hlinked n (hl n hn)]
    rw [List.filter_append, hother lo fun n hn => hmem n (List.mem_append_left _ hn)]
    rcases Nat.eq_zero_or_pos ℓ with rfl | hℓpos
    · rw [List.filter_cons_of_pos (by simp),
        hother hi fun n hn => hmem n (List.mem_append_right _ hn), hlofilter,
        hbottom hi fun n hn => hmem n (List.mem_append_right _ hn)]
      exact hchain0
    · rw [List.filter_cons_of_neg (by simpa using hℓpos.ne'),
        hother hi fun n hn => hmem n (List.mem_append_right _ hn), ← List.filter_append, ← horder]
      exact hchain ℓ hℓ (Nat.pos_iff_ne_zero.mp hℓpos)
  · intro n hn
    rw [length_nodes_setNext]
    rcases List.mem_append.mp hn with hn | hn
    · exact h.alloc n (hmem n (List.mem_append_left _ hn))
    · rcases List.mem_cons.mp hn with rfl | hn
      · exact ⟨Nat.pos_of_ne_zero hx0, hlt⟩
      · exact h.alloc n (hmem n (List.mem_append_right _ hn))
  · intro n hn
    rw [maxHeight_setNext]
    by_cases hnx : n = x
    · subst hnx
      rw [Function.update_self]
      exact ⟨Nat.one_pos, hpos.1⟩
    · have hno : n ∈ order := by
        rcases List.mem_append.mp hn with hn | hn
        · exact hmem n (List.mem_append_left _ hn)
        · exact hmem n (List.mem_append_right _ ((List.mem_cons.mp hn).resolve_left hnx))
      rw [hlinked n hno]
      exact h.pos n hno
  · rw [Function.update_of_ne (Ne.symm hx0)]
    exact h.head
  · rw [length_nodes_setNext, List.length_append, List.length_cons, Nat.add_succ,
      ← List.length_append, ← horder]
    exact hsize

/-- **Publishing a node one level up** leaves the order alone. -/
theorem link_above (h : Levels cmp s order linked) (hx : x ∈ order) {i : ℕ} (hi : linked x = i)
    (hmax : i < s.maxHeight)
    (hnext : s.next x i = s.next (prevOf order linked (before cmp s (s.key x)) i) i) :
    Levels cmp (s.setNext (prevOf order linked (before cmp s (s.key x)) i) i (some x)) order
      (Function.update linked x (i + 1)) := by
  have hx0 : x ≠ 0 := fun heq => h.zero_notMem (heq ▸ hx)
  have hselfcmp : cmp (s.key x) (s.key x) = .eq := ReflCmp.compare_self
  obtain ⟨pre, hpre⟩ := exists_eq_append_after hx
  set post := after x order with hpost
  have hnodup := (List.nodup_cons.mp h.nodup).2
  rw [hpre] at hnodup
  obtain ⟨hnp, hns⟩ : x ∉ pre ∧ x ∉ post := by
    obtain ⟨-, h2, h3⟩ := List.nodup_append.mp hnodup
    exact ⟨fun hmem => h3 x hmem x List.mem_cons_self rfl, (List.nodup_cons.mp h2).1⟩
  have hsorted := h.sorted
  rw [hpre] at hsorted
  obtain ⟨-, hpair, hcross⟩ := List.pairwise_append.mp hsorted
  -- The nodes before the key of `x` are the ones in front of it.
  have hlo : order.filter (before cmp s (s.key x)) = pre := by
    have hself : before cmp s (s.key x) x = false := by simp [before, hselfcmp]
    have hback : post.filter (before cmp s (s.key x)) = [] := by
      refine List.filter_eq_nil_iff.mpr fun n hn hb => ?_
      have hlt := (List.pairwise_cons.mp hpair).1 n hn
      exact absurd (closed_before s _ _ _ hlt hb) (by simp [hself])
    rw [hpre, List.filter_append, List.filter_cons_of_neg (by simp [hself]), hback, List.append_nil]
    refine List.filter_eq_self.mpr fun n hn => ?_
    simpa [before] using hcross n hn x List.mem_cons_self
  have hprev : prevOf order linked (before cmp s (s.key x)) i
      = (pre.filter fun n => i < linked n).getLastD 0 := by
    rw [prevOf, hlo]
  have hsplit : order.filter (fun n => i < linked n)
      = (pre.filter fun n => i < linked n) ++ post.filter fun n => i < linked n := by
    rw [hpre, List.filter_append, List.filter_cons_of_neg (by simp [hi])]
  have hfresh :
      x ∉ 0 :: ((pre.filter fun n => i < linked n) ++ post.filter fun n => i < linked n) := by
    rw [← hsplit, List.mem_cons, not_or]
    exact ⟨hx0, fun hmem => absurd (List.mem_filter.mp hmem).2 (by simp [hi])⟩
  rw [hprev] at hnext ⊢
  have hik : i < kMaxHeight := hmax.trans_le h.maxHeight.2
  obtain ⟨hchaini, hchain⟩ := h.chain_setNext hik hsplit hnext hfresh
  have hlinked : ∀ n, n ≠ x → Function.update linked x (i + 1) n = linked n := fun n hn =>
    Function.update_of_ne hn _ _
  refine ⟨by simpa using h.sorted, fun ℓ hℓ => ?_, by simpa using h.alloc, fun n hn => ?_, ?_,
    h.maxHeight, by simpa using h.size⟩
  · rcases eq_or_ne ℓ i with rfl | hne
    · have hsame : ∀ l : List ℕ, x ∉ l → l.filter (fun n => ℓ < Function.update linked x (ℓ + 1) n)
          = l.filter fun n => ℓ < linked n :=
        fun l hl => List.filter_congr fun n hn => by rw [hlinked n fun heq => hl (heq ▸ hn)]
      have hnew : order.filter (fun n => ℓ < Function.update linked x (ℓ + 1) n)
          = (pre.filter fun n => ℓ < linked n) ++ x :: post.filter fun n => ℓ < linked n := by
        rw [hpre, List.filter_append, List.filter_cons_of_pos (by simp), hsame pre hnp,
          hsame post hns]
      rw [hnew]
      exact hchaini
    · have hsame : order.filter (fun n => ℓ < Function.update linked x (i + 1) n)
          = order.filter fun n => ℓ < linked n := by
        refine List.filter_congr fun n _ => ?_
        by_cases hnx : n = x
        · rw [hnx, Function.update_self, hi, decide_eq_decide]
          omega
        · rw [hlinked n hnx]
      rw [hsame]
      exact hchain ℓ hℓ hne
  · by_cases hnx : n = x
    · rw [hnx, Function.update_self]
      exact ⟨Nat.succ_pos i, hmax⟩
    · rw [hlinked n hnx]
      exact h.pos n hn
  · rw [hlinked 0 (Ne.symm hx0)]
    exact h.head

omit [TransCmp cmp] in
theorem congr (h : Levels cmp s order linked) {linked' : ℕ → ℕ}
    (hl : ∀ n ∈ 0 :: order, linked' n = linked n) : Levels cmp s order linked' := by
  refine ⟨h.sorted, fun ℓ hℓ => ?_, h.alloc, fun n hn => ?_, ?_, h.maxHeight, h.size⟩
  · have hfilter : order.filter (fun n => ℓ < linked' n) = order.filter fun n => ℓ < linked n :=
      List.filter_congr fun n hn => by rw [hl n (List.mem_cons_of_mem 0 hn)]
    rw [hfilter]
    exact h.chain ℓ hℓ
  · rw [hl n (List.mem_cons_of_mem 0 hn)]
    exact h.pos n hn
  · rw [hl 0 List.mem_cons_self]
    exact h.head

omit [TransCmp cmp] in
/-- A store to `max_height_`. -/
theorem raise (h : Levels cmp s order linked) {m : ℕ} (hm : s.maxHeight ≤ m) (hk : m ≤ kMaxHeight) :
    Levels cmp { s with maxHeight := m } order linked :=
  ⟨h.sorted, h.chain, h.alloc, fun n hn => ⟨(h.pos n hn).1, (h.pos n hn).2.trans hm⟩, h.head,
    ⟨h.maxHeight.1.trans_le hm, hk⟩, h.size⟩

omit [TransCmp cmp] in
/-- An allocation. -/
theorem newNode (h : Levels cmp s order linked) (k : K) (m : ℕ) :
    Levels cmp (s.newNode k m).2 order linked := by
  have hlen : (s.newNode k m).2.nodes.length = s.nodes.length + 1 := by simp [SkipList.newNode]
  have hkey : ∀ n ∈ order, (s.newNode k m).2.key n = s.key n := fun n hn => by
    rw [key, node_newNode s k m (h.alloc n hn).2, key]
  refine ⟨?_, fun ℓ hℓ => ?_, fun n hn => ?_, h.pos, h.head, h.maxHeight, ?_⟩
  · refine h.sorted.imp_of_mem fun {a b} ha hb hab => ?_
    rw [hkey a ha, hkey b hb]
    exact hab
  · refine (h.chain ℓ hℓ).congr fun z hz => ?_
    have hlt : z < s.nodes.length := by
      rcases List.mem_cons.mp hz with rfl | hz
      · exact Nat.zero_lt_of_lt h.size
      · exact (h.alloc z (List.mem_filter.mp hz).1).2
    rw [next, node_newNode s k m hlt, next]
  · obtain ⟨hpos, hlt⟩ := h.alloc n hn
    exact ⟨hpos, by omega⟩
  · have := h.size
    omega

end Levels

/-- Linking a node in front of which the search stops changes nothing for the search. -/
theorem prevOf_update (order : List ℕ) (linked : ℕ → ℕ) {b : ℕ → Bool} {x : ℕ} (hx : b x = false)
    (m ℓ : ℕ) : prevOf order (Function.update linked x m) b ℓ = prevOf order linked b ℓ := by
  rw [prevOf, prevOf]
  congr 1
  refine List.filter_congr fun n hn => ?_
  rw [Function.update_of_ne]
  rintro rfl
  exact absurd (List.mem_filter.mp hn).2 (by simp [hx])

theorem prevOf_insert (order : List ℕ) (linked : ℕ → ℕ) {b : ℕ → Bool} {x : ℕ} (hx : b x = false)
    (ℓ : ℕ) : prevOf (order.filter b ++ x :: order.filter fun n => !b n) linked b ℓ
      = prevOf order linked b ℓ := by
  rw [prevOf, prevOf, List.filter_append, List.filter_cons_of_neg (by simp [hx]),
    List.filter_filter, List.filter_filter]
  simp

theorem levels_new : Levels cmp (new : SkipList K) [] (fun _ => kMaxHeight) := by
  refine ⟨List.Pairwise.nil, fun ℓ hℓ => ?_, fun n hn => absurd hn List.not_mem_nil,
    fun n hn => absurd hn List.not_mem_nil, rfl, ⟨Nat.one_pos, (by decide : 1 ≤ kMaxHeight)⟩,
    Nat.one_pos⟩
  change (List.replicate kMaxHeight (some none)).getD ℓ none = some none
  exact List.getD_replicate _ hℓ

end SkipList

end Squirrel
