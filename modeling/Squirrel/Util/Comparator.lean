import Squirrel.Lib.LittleEndian

/-!
# Comparators

A `Comparator` is an order on byte strings, with two operations that shorten keys for index blocks.
`Compare` returns an `int` of which every caller looks only at the sign, so it is an `Ordering`
here.

`Slice::compare` is `memcmp` on the common length, then the lengths. It is the lexicographic order
on lists of bytes, which Lean knows to be a total order.

## Main results

* `Slice.compare_eq` — `Slice::compare` is lexicographic
* `bytewiseComparator_lawful` — the shortened keys lie where they must
-/

namespace Squirrel

open Std

/-- `memcmp` of two regions of one length. -/
def memcmp : Bytes → Bytes → Ordering
  | a :: as, b :: bs => if a < b then .lt else if b < a then .gt else memcmp as bs
  | _, _ => .eq

namespace Slice

/-- `Slice::compare`. -/
def compare (a b : Bytes) : Ordering :=
  let minLen := if a.length < b.length then a.length else b.length
  let r := memcmp (a.take minLen) (b.take minLen)
  if r = .eq then
    if a.length < b.length then .lt else if b.length < a.length then .gt else r
  else r

theorem compare_eq (a b : Bytes) : compare a b = List.compareLex Ord.compare a b := by
  induction a generalizing b with
  | nil => cases b <;> rfl
  | cons x a ih =>
    cases b with
    | nil => rfl
    | cons y b =>
      have hmin : (if (x :: a).length < (y :: b).length then (x :: a).length else (y :: b).length)
          = (if a.length < b.length then a.length else b.length) + 1 := by
        simp only [List.length_cons, Nat.add_lt_add_iff_right]
        split <;> rfl
      rw [List.compareLex_cons_cons, ← ih, compare, hmin]
      simp only [List.take_succ_cons, memcmp, List.length_cons, Nat.add_lt_add_iff_right]
      have hcmp : Ord.compare x y = compareOfLessAndEq x y := rfl
      rcases Nat.lt_trichotomy x.toNat y.toNat with hlt | heq | hgt
      · have hxy : x < y := UInt8.lt_iff_toNat_lt.mpr hlt
        simp [hcmp, compareOfLessAndEq, hxy]
      · obtain rfl : x = y := UInt8.toNat_inj.mp heq
        simp [UInt8.lt_irrefl, compare]
      · have hyx : y < x := UInt8.lt_iff_toNat_lt.mpr hgt
        have hxy : ¬ x < y := fun h => Nat.lt_asymm hgt (UInt8.lt_iff_toNat_lt.mp h)
        have hne : x ≠ y := by
          rintro rfl
          exact Nat.lt_irrefl _ hgt
        simp [hcmp, compareOfLessAndEq, hxy, hyx, hne]

instance : TransCmp compare := by
  have h : compare = List.compareLex Ord.compare := by
    funext a b
    exact compare_eq a b
  rw [h]
  infer_instance

instance : LawfulEqCmp compare := by
  have h : compare = List.compareLex Ord.compare := by
    funext a b
    exact compare_eq a b
  rw [h]
  infer_instance

theorem compare_cons_of_lt {x y : UInt8} (h : x.toNat < y.toNat) (a b : Bytes) :
    compare (x :: a) (y :: b) = .lt := by
  have hxy : x < y := UInt8.lt_iff_toNat_lt.mpr h
  have hcmp : Ord.compare x y = .lt := by
    change compareOfLessAndEq x y = .lt
    rw [compareOfLessAndEq, if_pos hxy]
  rw [compare_eq, List.compareLex_cons_cons, hcmp, Ordering.lt_then]

/-- A common beginning does not matter. -/
theorem compare_append (p a b : Bytes) : compare (p ++ a) (p ++ b) = compare a b := by
  induction p with
  | nil => rfl
  | cons x p ih =>
    have hx : Ord.compare x x = .eq := ReflCmp.compare_self
    rw [compare_eq, List.cons_append, List.cons_append, List.compareLex_cons_cons, hx,
      Ordering.eq_then, ← compare_eq, ih]

end Slice

/-- Comparing through a function. -/
theorem transCmp_comap {α β : Type} (cmp : β → β → Ordering) [TransCmp cmp] (f : α → β) :
    TransCmp fun a b => cmp (f a) (f b) where
  eq_swap := OrientedCmp.eq_swap
  isLE_trans := TransCmp.isLE_trans

/-! ### The interface -/

/-- A `Comparator`. The two functions that change a key return the new one, and nothing where an
assertion fails. -/
structure Comparator where
  compare : Bytes → Bytes → Ordering
  findShortestSeparator (start limit : Bytes) : Option Bytes
  findShortSuccessor (key : Bytes) : Option Bytes

/-- What tables ask of a comparator, on the keys that satisfy `P`. -/
structure Comparator.Lawful (c : Comparator) (P : Bytes → Prop) : Prop where
  trans : TransCmp c.compare
  separator : ∀ {start limit}, P start → P limit → c.compare start limit = .lt →
    ∃ sep, c.findShortestSeparator start limit = some sep ∧
      c.compare start sep ≠ .gt ∧ c.compare sep limit = .lt
  successor : ∀ {key}, P key →
    ∃ succ, c.findShortSuccessor key = some succ ∧ c.compare key succ ≠ .gt

/-! ### `BytewiseComparator` -/

/-- The number of bytes at the front that two strings have in common. -/
def sharedLength : Bytes → Bytes → ℕ
  | a :: as, b :: bs => if a = b then sharedLength as bs + 1 else 0
  | _, _ => 0

/-- Two strings part at a byte, or one begins with the other. -/
theorem sharedLength_cases (a b : Bytes) :
    (∃ p x as y bs, a = p ++ x :: as ∧ b = p ++ y :: bs ∧ x ≠ y ∧ sharedLength a b = p.length) ∨
      sharedLength a b = min a.length b.length := by
  induction a generalizing b with
  | nil => right; simp [sharedLength]
  | cons x a ih =>
    cases b with
    | nil => right; simp [sharedLength]
    | cons y b =>
      by_cases hxy : x = y
      · subst hxy
        rcases ih b with ⟨p, x', as, y', bs, rfl, rfl, hne, hlen⟩ | hlen
        · left
          exact ⟨x :: p, x', as, y', bs, rfl, rfl, hne, by simp [sharedLength, hlen]⟩
        · right
          simp only [sharedLength, if_true, hlen, List.length_cons]
          omega
      · left
        exact ⟨[], x, a, y, b, rfl, rfl, hxy, by simp [sharedLength, hxy]⟩

namespace BytewiseComparator

/-- `BytewiseComparatorImpl::FindShortestSeparator`. -/
def findShortestSeparator (start limit : Bytes) : Option Bytes :=
  let minLength := min start.length limit.length
  let diffIndex := sharedLength start limit
  if minLength ≤ diffIndex then some start
  else
    let diffByte := start.getD diffIndex 0
    if diffByte.toNat < 0xff ∧ diffByte.toNat + 1 < (limit.getD diffIndex 0).toNat then
      let start := (start.set diffIndex (diffByte + 1)).take (diffIndex + 1)
      if Slice.compare start limit = .lt then some start else none
    else some start

/-- The loop of `BytewiseComparatorImpl::FindShortSuccessor`: a run of `0xff` is left alone. -/
def findShortSuccessor : Bytes → Bytes
  | [] => []
  | byte :: key => if byte ≠ 0xff then [byte + 1] else byte :: findShortSuccessor key

theorem toNat_succ {b : UInt8} (h : b.toNat < 0xff) : (b + 1).toNat = b.toNat + 1 := by
  rw [UInt8.toNat_add, show (1 : UInt8).toNat = 1 from rfl]
  omega

/-- The separator is the start itself, or a key properly between the two. -/
theorem findShortestSeparator_cases (start limit : Bytes) :
    findShortestSeparator start limit = some start ∨
      ∃ sep, findShortestSeparator start limit = some sep ∧
        Slice.compare start sep = .lt ∧ Slice.compare sep limit = .lt := by
  rcases sharedLength_cases start limit with ⟨p, x, as, y, bs, rfl, rfl, -, hlen⟩ | hlen
  · by_cases hfit : x.toNat < 0xff ∧ x.toNat + 1 < y.toNat
    · have hset : (p ++ (x + 1) :: as).take (p.length + 1) = p ++ [x + 1] := by
        rw [List.take_append, List.take_of_length_le (Nat.le_succ _)]
        simp
      have hnext := toNat_succ hfit.1
      have hlo : Slice.compare (p ++ x :: as) (p ++ [x + 1]) = .lt := by
        rw [Slice.compare_append]
        exact Slice.compare_cons_of_lt (by omega) _ _
      have hhi : Slice.compare (p ++ [x + 1]) (p ++ y :: bs) = .lt := by
        rw [Slice.compare_append]
        exact Slice.compare_cons_of_lt (by omega) _ _
      right
      refine ⟨_, ?_, hlo, hhi⟩
      simp only [findShortestSeparator, hlen]
      simp [hfit, hset, hhi]
    · left
      simp only [findShortestSeparator, hlen]
      simp [hfit]
  · left
    simp [findShortestSeparator, hlen]

theorem length_of_findShortestSeparator {start limit sep : Bytes}
    (h : findShortestSeparator start limit = some sep) : sep.length ≤ start.length := by
  rw [findShortestSeparator] at h
  dsimp only at h
  split at h
  · rw [Option.some.inj h]
  · split at h
    · split at h
      · rw [← Option.some.inj h, List.length_take, List.length_set]
        exact Nat.min_le_right _ _
      · cases h
    · rw [Option.some.inj h]

/-- Keys that are not in order are left alone. -/
theorem findShortestSeparator_of_not_lt {start limit : Bytes}
    (h : Slice.compare start limit ≠ .lt) : findShortestSeparator start limit = some start := by
  rcases findShortestSeparator_cases start limit with heq | ⟨sep, -, hlo, hhi⟩
  · exact heq
  · exact absurd (TransCmp.lt_trans hlo hhi) h

theorem length_findShortSuccessor_le (key : Bytes) :
    (findShortSuccessor key).length ≤ key.length := by
  induction key with
  | nil => exact le_rfl
  | cons byte key ih =>
    rw [findShortSuccessor]
    split
    · exact Nat.succ_le_succ (Nat.zero_le _)
    · exact Nat.succ_le_succ ih

theorem compare_findShortSuccessor (key : Bytes) :
    Slice.compare key (findShortSuccessor key) = .lt ∨ findShortSuccessor key = key := by
  induction key with
  | nil => right; rfl
  | cons byte key ih =>
    by_cases hff : byte = 0xff
    · subst hff
      rcases ih with hlt | heq
      · left
        have hstep := Slice.compare_append [0xff] key (findShortSuccessor key)
        simpa [findShortSuccessor, hlt] using hstep
      · right
        simp [findShortSuccessor, heq]
    · left
      have hbyte : byte.toNat < 0xff := by
        have hlt : byte.toNat < 256 := byte.toNat_lt
        have hne : byte.toNat ≠ (0xff : UInt8).toNat := fun h => hff (UInt8.toNat_inj.mp h)
        have h255 : (0xff : UInt8).toNat = 255 := rfl
        omega
      have hnext := toNat_succ hbyte
      simp only [findShortSuccessor, ne_eq, hff, not_false_eq_true, if_true]
      exact Slice.compare_cons_of_lt (by omega) _ _

end BytewiseComparator

/-- `BytewiseComparator()`. -/
def bytewiseComparator : Comparator where
  compare := Slice.compare
  findShortestSeparator := BytewiseComparator.findShortestSeparator
  findShortSuccessor key := some (BytewiseComparator.findShortSuccessor key)

theorem compare_bytewiseComparator : bytewiseComparator.compare = Slice.compare := rfl

/-- **Bytewise keys.** The order is total, a separator lies in `[start, limit)` and a successor is
not below its key. -/
theorem bytewiseComparator_lawful : bytewiseComparator.Lawful fun _ => True where
  trans := inferInstanceAs (TransCmp Slice.compare)
  separator := by
    intro start limit _ _ hlt
    rcases BytewiseComparator.findShortestSeparator_cases start limit with h | ⟨sep, h, hlo, hhi⟩
    · refine ⟨start, h, ?_, hlt⟩
      have hrefl : Slice.compare start start = .eq := ReflCmp.compare_self
      simp [bytewiseComparator, hrefl]
    · exact ⟨sep, h, by simp [bytewiseComparator, hlo], hhi⟩
  successor := by
    intro key _
    refine ⟨_, rfl, ?_⟩
    rcases BytewiseComparator.compare_findShortSuccessor key with hlt | heq
    · simp [bytewiseComparator, hlt]
    · have hrefl : Slice.compare key key = .eq := ReflCmp.compare_self
      simp [bytewiseComparator, heq, hrefl]

end Squirrel
