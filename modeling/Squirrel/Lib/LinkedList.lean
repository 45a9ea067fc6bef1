import Mathlib.Data.List.Nodup
import Mathlib.Logic.Function.Basic
import Mathlib.Order.Defs.PartialOrder

/-!
# Singly linked lists in a memory

`Chain next a l`: following `next` from `a` meets the elements of `l` in order and ends in the null
pointer. `next` is partial, so that a chain also says that none of its links is missing.

A pointer into the list is described by what is behind it: `after x l` is the part of `l` behind the
first `x`.

`Path next p l` is for memories in which every link is there: it starts from a pointer, which may be
null, where a `Chain` starts from a node.
-/

namespace Squirrel

variable {P : Type*}

/-- Following `next` from `a` meets the elements of the list in order, then null. -/
def Chain (next : P → Option (Option P)) : P → List P → Prop
  | a, [] => next a = some none
  | a, b :: l => next a = some (some b) ∧ Chain next b l

namespace Chain

variable {next next' : P → Option (Option P)} {a b : P} {l : List P}

theorem next_eq (h : Chain next a l) : next a = some l.head? := by
  cases l with
  | nil => exact h
  | cons b l => exact h.1

/-- The list is determined by its first node. -/
theorem unique {l' : List P} (h : Chain next a l) (h' : Chain next a l') : l = l' := by
  have hhead := Option.some.inj (h.next_eq.symm.trans h'.next_eq)
  induction l generalizing a l' with
  | nil => exact (List.head?_eq_none_iff.mp hhead.symm).symm
  | cons b l ih =>
    cases l' with
    | nil => cases hhead
    | cons b' l' =>
      cases hhead
      rw [ih h.2 h'.2 (Option.some.inj (h.2.next_eq.symm.trans h'.2.next_eq))]

theorem congr (h : Chain next a l) (hn : ∀ x ∈ a :: l, next' x = next x) : Chain next' a l := by
  induction l generalizing a with
  | nil => exact (hn a List.mem_cons_self).trans h
  | cons b l ih =>
    exact ⟨(hn a List.mem_cons_self).trans h.1, ih h.2 fun x hx => hn x (List.mem_cons_of_mem a hx)⟩

/-- A chain may start at any node with the same link. -/
theorem restart (h : Chain next a l) (hb : next b = next a) : Chain next b l := by
  cases l with
  | nil => exact hb.trans h
  | cons c l => exact ⟨hb.trans h.1, h.2⟩

theorem of_append {pre post : List P} (h : Chain next a (pre ++ post)) :
    Chain next (pre.getLastD a) post := by
  induction pre generalizing a with
  | nil => exact h
  | cons b pre ih =>
    rw [List.getLastD_cons]
    exact ih h.2

variable [DecidableEq P]

/-- **Linking a node in.** A node that points to the rest of the list is linked in by redirecting
the one pointer in front of it. -/
theorem insert {pre post : List P} {x : P} (h : Chain next a (pre ++ post))
    (hx : next x = some post.head?) (hnodup : (a :: (pre ++ post)).Nodup)
    (hfresh : x ∉ a :: (pre ++ post)) :
    Chain (Function.update next (pre.getLastD a) (some (some x))) a (pre ++ x :: post) := by
  induction pre generalizing a with
  | nil =>
    have hne : x ≠ a := fun heq => hfresh (heq ▸ List.mem_cons_self)
    refine ⟨Function.update_self .., ?_⟩
    refine Chain.congr (h.restart (hx.trans h.next_eq.symm)) fun y hy => ?_
    refine Function.update_of_ne ?_ _ _
    rintro rfl
    rcases List.mem_cons.mp hy with rfl | hmem
    · exact hne rfl
    · exact (List.nodup_cons.mp hnodup).1 hmem
  | cons b pre ih =>
    obtain ⟨hnot, hrest⟩ := List.nodup_cons.mp hnodup
    rw [List.getLastD_cons]
    refine ⟨?_, ih h.2 hrest fun hmem => hfresh (List.mem_cons_of_mem a hmem)⟩
    rw [Function.update_of_ne]
    · exact h.1
    · rintro rfl
      refine hnot ?_
      cases pre with
      | nil => exact List.mem_cons_self
      | cons c pre =>
        rw [List.getLastD_eq_getLast?, List.getLast?_eq_some_getLast (List.cons_ne_nil c pre)]
        exact List.mem_cons_of_mem _ (List.mem_append_left _ (List.getLast_mem _))

end Chain

/-! ### Sorted lists -/

/-- In a list sorted for `r`, what is `p` comes first, if whatever is `r`-below a `p` is `p`. -/
theorem filter_append_filter_not {r : P → P → Prop} {p : P → Bool} {l : List P}
    (hl : l.Pairwise r) (hp : ∀ x y, r x y → p y = true → p x = true) :
    l = l.filter p ++ l.filter (fun x => !p x) := by
  induction l with
  | nil => rfl
  | cons x l ih =>
    obtain ⟨hx, hl'⟩ := List.pairwise_cons.mp hl
    cases hpx : p x with
    | true =>
      rw [List.filter_cons_of_pos hpx, List.filter_cons_of_neg (by simp [hpx]), List.cons_append,
        ← ih hl']
    | false =>
      have hnone : l.filter p = [] := by
        refine List.filter_eq_nil_iff.mpr fun y hy hpy => ?_
        exact absurd (hp x y (hx y hy) hpy) (by simp [hpx])
      have hall : l.filter (fun x => !p x) = l := by
        refine List.filter_eq_self.mpr fun y hy => ?_
        have := List.filter_eq_nil_iff.mp hnone y hy
        simpa using this
      rw [List.filter_cons_of_neg (by simp [hpx]), List.filter_cons_of_pos (by simp [hpx]), hnone,
        hall, List.nil_append]

/-! ### What is behind a pointer -/

variable [DecidableEq P]

/-- The part of the list behind the first `x`. -/
def after (x : P) : List P → List P
  | [] => []
  | y :: l => if y = x then l else after x l

theorem after_cons_self (x : P) (l : List P) : after x (x :: l) = l := if_pos rfl

theorem after_cons_of_ne {x y : P} (h : y ≠ x) (l : List P) : after x (y :: l) = after x l :=
  if_neg h

theorem exists_eq_append_after {x : P} {l : List P} (h : x ∈ l) :
    ∃ pre, l = pre ++ x :: after x l := by
  induction l with
  | nil => exact absurd h List.not_mem_nil
  | cons y l ih =>
    by_cases hy : y = x
    · subst hy
      exact ⟨[], by rw [after_cons_self, List.nil_append]⟩
    · obtain ⟨pre, hpre⟩ := ih ((List.mem_cons.mp h).resolve_left fun heq => hy heq.symm)
      refine ⟨y :: pre, ?_⟩
      rw [after_cons_of_ne hy, List.cons_append, ← hpre]

theorem after_append_cons {x : P} {pre : List P} (h : x ∉ pre) (post : List P) :
    after x (pre ++ x :: post) = post := by
  induction pre with
  | nil => exact after_cons_self x post
  | cons y pre ih =>
    rw [List.mem_cons, not_or] at h
    rw [List.cons_append, after_cons_of_ne (Ne.symm h.1)]
    exact ih h.2

theorem after_filter {p : P → Bool} {x : P} (hx : p x = true) (l : List P) :
    after x (l.filter p) = (after x l).filter p := by
  induction l with
  | nil => rfl
  | cons y l ih =>
    by_cases hy : y = x
    · subst hy
      rw [List.filter_cons_of_pos hx, after_cons_self, after_cons_self]
    · rw [after_cons_of_ne hy, ← ih]
      cases hp : p y with
      | true => rw [List.filter_cons_of_pos hp, after_cons_of_ne hy]
      | false => rw [List.filter_cons_of_neg (by simp [hp])]

theorem after_subset {x : P} {l : List P} : ∀ y ∈ after x l, y ∈ l := by
  induction l with
  | nil => exact fun y hy => hy
  | cons z l ih =>
    intro y hy
    by_cases hz : z = x
    · subst hz
      rw [after_cons_self] at hy
      exact List.mem_cons_of_mem z hy
    · rw [after_cons_of_ne hz] at hy
      exact List.mem_cons_of_mem z (ih y hy)

/-- Behind a node that is behind `x` there is less than behind `x`. -/
theorem length_after_lt {x y : P} {l : List P} (hnodup : l.Nodup) (hx : x ∈ l)
    (hy : y ∈ after x l) : (after y l).length < (after x l).length := by
  obtain ⟨pre, hpre⟩ := exists_eq_append_after hx
  obtain ⟨pre', hpre'⟩ := exists_eq_append_after hy
  have hsplit : l = (pre ++ x :: pre') ++ y :: after y (after x l) := by
    rw [List.append_assoc, List.cons_append, ← hpre', ← hpre]
  have hnot : y ∉ pre ++ x :: pre' := by
    rw [hsplit] at hnodup
    exact fun hmem => List.disjoint_of_nodup_append hnodup hmem List.mem_cons_self
  have hafter : after y l = after y (after x l) := by
    conv_lhs => rw [hsplit]
    exact after_append_cons hnot _
  rw [hafter]
  conv_rhs => rw [hpre', List.length_append, List.length_cons]
  omega

theorem Chain.after {next : P → Option (Option P)} {a x : P} {l : List P} (h : Chain next a l)
    (hx : x ∈ a :: l) : Chain next x (after x (a :: l)) := by
  induction l generalizing a with
  | nil =>
    rw [List.mem_singleton] at hx
    subst hx
    rw [after_cons_self]
    exact h
  | cons b l ih =>
    by_cases hax : a = x
    · subst hax
      rw [after_cons_self]
      exact h
    · rw [after_cons_of_ne hax]
      exact ih h.2 ((List.mem_cons.mp hx).resolve_left fun heq => hax heq.symm)

/-! ### Lists that start from a pointer -/

/-- Following `next` from the pointer `p` meets the elements of the list in order, then null. -/
def Path (next : P → Option P) : Option P → List P → Prop
  | p, [] => p = none
  | p, a :: l => p = some a ∧ Path next (next a) l

namespace Path

variable {next next' : P → Option P} {p q : Option P} {a : P} {l pre post post' : List P}

omit [DecidableEq P] in
/-- The list is determined by the pointer. -/
theorem unique {l' : List P} (h : Path next p l) (h' : Path next p l') : l = l' := by
  induction l generalizing p l' with
  | nil =>
    cases l' with
    | nil => rfl
    | cons b l' => exact absurd (Eq.trans (Eq.symm h) h'.1) (Option.some_ne_none b).symm
  | cons a l ih =>
    cases l' with
    | nil => exact absurd (Eq.trans (Eq.symm h') h.1) (Option.some_ne_none a).symm
    | cons b l' =>
      obtain rfl : a = b := Option.some.inj (h.1.symm.trans h'.1)
      rw [ih h.2 h'.2]

omit [DecidableEq P] in
theorem congr (h : Path next p l) (hn : ∀ x ∈ l, next' x = next x) : Path next' p l := by
  induction l generalizing p with
  | nil => exact h
  | cons a l ih =>
    refine ⟨h.1, ih ?_ fun x hx => hn x (List.mem_cons_of_mem a hx)⟩
    rw [hn a List.mem_cons_self]
    exact h.2

omit [DecidableEq P] in
/-- The list behind a node starts from the node's link. -/
theorem of_append (h : Path next p (pre ++ a :: post)) : Path next (next a) post := by
  induction pre generalizing p with
  | nil => exact h.2
  | cons b pre ih => exact ih h.2

/-- Writing the link of a node that is not in the list changes nothing. -/
theorem update (h : Path next p l) (ha : a ∉ l) (q : Option P) :
    Path (Function.update next a q) p l := by
  refine h.congr fun x hx => Function.update_of_ne ?_ _ _
  rintro rfl
  exact ha hx

/-- Redirecting the link of a node replaces what is behind it. -/
theorem splice (h : Path next p (pre ++ a :: post)) (hpre : a ∉ pre) (hq : Path next q post')
    (hpost : a ∉ post') : Path (Function.update next a q) p (pre ++ a :: post') := by
  induction pre generalizing p with
  | nil =>
    refine ⟨h.1, ?_⟩
    rw [Function.update_self]
    exact hq.update hpost q
  | cons b pre ih =>
    rw [List.mem_cons, not_or] at hpre
    refine ⟨h.1, ?_⟩
    rw [Function.update_of_ne (Ne.symm hpre.1)]
    exact ih h.2 hpre.2

end Path

end Squirrel
