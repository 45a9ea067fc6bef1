import Mathlib.Data.List.Chain
import Mathlib.Data.List.Nodup
import Mathlib.Logic.Function.Basic

/-!
# Circular doubly linked lists

`Ring next prev head l`: from `head`, the forward links lead through the elements of `l` and back to
`head`, and the backward links are their inverse. The head stands for the list and is no element.

Both operations are written as the assignments make them. Taking an element out joins its two
neighbours and leaves its own links alone; putting one in happens just before the head.

## Main results

* `Ring.remove`, `Ring.append`
-/

namespace Squirrel

variable {P : Type*} {next prev next' prev' : P → P} {head x : P} {l pre post : List P}

/-- The links of `a` and `b` make them neighbours, `a` first. -/
def Joined (next prev : P → P) (a b : P) : Prop := next a = b ∧ prev b = a

/-- A circular doubly linked list with a head. -/
def Ring (next prev : P → P) (head : P) (l : List P) : Prop :=
  (head :: (l ++ [head])).IsChain (Joined next prev)

/-- Neighbours stay neighbours if the links they are joined by are kept. -/
theorem isChain_joined_congr (h : l.IsChain (Joined next prev))
    (hn : ∀ a ∈ l.dropLast, next' a = next a) (hp : ∀ b ∈ l.tail, prev' b = prev b) :
    l.IsChain (Joined next' prev') := by
  induction l with
  | nil => exact List.IsChain.nil
  | cons a l ih =>
    cases l with
    | nil => exact List.IsChain.singleton a
    | cons b l =>
      rw [List.isChain_cons_cons] at h ⊢
      obtain ⟨⟨hab, hba⟩, htail⟩ := h
      refine ⟨⟨?_, ?_⟩, ih htail (fun c hc => hn c ?_) fun c hc => hp c (List.mem_of_mem_tail hc)⟩
      · exact (hn a List.mem_cons_self).trans hab
      · exact (hp b List.mem_cons_self).trans hba
      · exact List.mem_cons_of_mem a hc

/-- The last element of a list without repetitions is not among the others. -/
theorem ne_getLast_of_mem_dropLast {a : P} (hne : l ≠ []) (hl : l.Nodup) (ha : a ∈ l.dropLast) :
    a ≠ l.getLast hne := by
  rw [← List.dropLast_append_getLast hne, List.nodup_append] at hl
  exact hl.2.2 a ha _ (List.mem_singleton_self _)

namespace Ring

theorem nil_iff : Ring next prev head [] ↔ next head = head ∧ prev head = head := by
  simp [Ring, Joined]

/-- What is on both sides of an element. -/
theorem split_iff : Ring next prev head (pre ++ x :: post) ↔
    (head :: (pre ++ [x])).IsChain (Joined next prev) ∧
      (x :: (post ++ [head])).IsChain (Joined next prev) := by
  rw [Ring, List.append_assoc, List.cons_append, ← List.cons_append, List.isChain_split,
    List.cons_append]

/-- The links out of the head. -/
theorem head_links (h : Ring next prev head l) :
    next head = (l ++ [head]).head (by simp) ∧
      prev head = (head :: l).getLast (List.cons_ne_nil _ _) := by
  constructor
  · cases l with
    | nil => exact (nil_iff.mp h).1
    | cons x l => exact (List.isChain_cons_cons.mp h).1.1
  · rw [Ring, ← List.cons_append, List.isChain_append] at h
    exact (h.2.2 _ (List.getLast_mem_getLast? _) head rfl).2

/-- The links out of an element. -/
theorem links (h : Ring next prev head (pre ++ x :: post)) :
    next x = (post ++ [head]).head (by simp) ∧
      prev x = (head :: pre).getLast (List.cons_ne_nil _ _) := by
  obtain ⟨hpre, hpost⟩ := split_iff.mp h
  constructor
  · cases post with
    | nil => exact (List.isChain_cons_cons.mp hpost).1.1
    | cons y post => exact (List.isChain_cons_cons.mp hpost).1.1
  · rw [← List.cons_append, List.isChain_append] at hpre
    exact (hpre.2.2 _ (List.getLast_mem_getLast? _) x rfl).2

variable [DecidableEq P]

/-- **Taking an element out.** -/
theorem remove (h : Ring next prev head (pre ++ x :: post))
    (hnodup : (head :: (pre ++ x :: post)).Nodup) :
    Ring (Function.update next (prev x) (next x)) (Function.update prev (next x) (prev x)) head
      (pre ++ post) := by
  obtain ⟨hnext, hprev⟩ := h.links
  obtain ⟨hpre, hpost⟩ := split_iff.mp h
  rw [← List.cons_append, List.isChain_append] at hpre
  rw [← List.cons_append, List.nodup_append] at hnodup
  obtain ⟨hfront, hback, hdisj⟩ := hnodup
  have hcycle : (post ++ [head]).Nodup := by
    refine List.nodup_append.mpr ⟨(List.nodup_cons.mp hback).2, List.nodup_singleton head, ?_⟩
    intro a ha b hb
    rw [List.mem_singleton.mp hb]
    exact (hdisj head List.mem_cons_self a (List.mem_cons_of_mem x ha)).symm
  have hnext_notMem : next x ∉ pre := by
    intro hmem
    have hn : next x ∈ post ++ [head] := hnext ▸ List.head_mem _
    rcases List.mem_append.mp hn with hn | hn
    · exact hdisj _ (List.mem_cons_of_mem head hmem) _ (List.mem_cons_of_mem x hn) rfl
    · rw [List.mem_singleton.mp hn] at hmem
      exact (List.nodup_cons.mp hfront).1 hmem
  have hprev_notMem : prev x ∉ post := by
    intro hmem
    have hp : prev x ∈ head :: pre := hprev ▸ List.getLast_mem _
    exact hdisj _ hp _ (List.mem_cons_of_mem x hmem) rfl
  rw [Ring, List.append_assoc, ← List.cons_append, List.isChain_append]
  refine ⟨isChain_joined_congr hpre.1 (fun a ha => ?_) (fun b hb => ?_),
    isChain_joined_congr hpost.tail (fun a ha => ?_) (fun b hb => ?_), fun a ha b hb => ?_⟩
  · refine Function.update_of_ne ?_ _ _
    rw [hprev]
    exact ne_getLast_of_mem_dropLast _ hfront ha
  · refine Function.update_of_ne ?_ _ _
    rintro rfl
    exact hnext_notMem hb
  · refine Function.update_of_ne ?_ _ _
    rintro rfl
    rw [List.dropLast_concat] at ha
    exact hprev_notMem ha
  · refine Function.update_of_ne ?_ _ _
    rintro rfl
    rw [← List.cons_head_tail (List.append_ne_nil_of_right_ne_nil post (List.cons_ne_nil head [])),
      ← hnext] at hcycle
    exact (List.nodup_cons.mp hcycle).1 hb
  · rw [List.getLast?_eq_some_getLast (List.cons_ne_nil _ _), Option.mem_some_iff, ← hprev] at ha
    rw [List.head?_eq_some_head
      (List.append_ne_nil_of_right_ne_nil post (List.cons_ne_nil head [])), Option.mem_some_iff,
      ← hnext] at hb
    subst ha hb
    exact ⟨Function.update_self .., Function.update_self ..⟩

/-- **Putting an element in**, just before the head. -/
theorem append (h : Ring next prev head l) (hnodup : (head :: l).Nodup) (hx : x ∉ head :: l) :
    Ring (Function.update (Function.update next x head) (prev head) x)
      (Function.update (Function.update prev x (prev head)) head x) head (l ++ [x]) := by
  have hlast : prev head ∈ head :: l := h.head_links.2 ▸ List.getLast_mem _
  have hxlast : x ≠ prev head := fun heq => hx (heq ▸ hlast)
  have hxhead : x ≠ head := fun heq => hx (heq ▸ List.mem_cons_self)
  have hprev := h.head_links.2
  rw [Ring, ← List.cons_append, List.isChain_append] at h
  rw [Ring, List.append_assoc, ← List.cons_append, List.isChain_append]
  refine ⟨isChain_joined_congr h.1 (fun a ha => ?_) (fun b hb => ?_), ?_, fun a ha b hb => ?_⟩
  · have hne : a ≠ prev head := by
      rw [hprev]
      exact ne_getLast_of_mem_dropLast _ hnodup ha
    have hax : a ≠ x := fun heq => hx (heq ▸ List.dropLast_subset _ ha)
    rw [Function.update_of_ne hne, Function.update_of_ne hax]
  · have hbhead : b ≠ head := fun heq => (List.nodup_cons.mp hnodup).1 (heq ▸ hb)
    have hbx : b ≠ x := fun heq => hx (heq ▸ List.mem_cons_of_mem head hb)
    rw [Function.update_of_ne hbhead, Function.update_of_ne hbx]
  · refine List.isChain_pair.mpr ⟨?_, Function.update_self ..⟩
    rw [Function.update_of_ne hxlast, Function.update_self]
  · rw [List.getLast?_eq_some_getLast (List.cons_ne_nil _ _), Option.mem_some_iff, ← hprev] at ha
    obtain rfl : x = b := by simpa using hb
    subst ha
    refine ⟨Function.update_self .., ?_⟩
    rw [Function.update_of_ne hxhead, Function.update_self]

end Ring

end Squirrel
