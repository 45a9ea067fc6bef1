import Mathlib.Data.List.Basic

/-!
# Interleaved lists

Several lists, shuffled into one whose items carry the number of the list they come from. `part U i`
is list `i` again, and `rank U i p` says how far list `i` has been consumed when the first `p` items
of `U` have: it is the position in `part U i` that belongs to position `p` in `U`.

The tags are a means of proof. `exists_interleaving` tags the merge sort of a flattened list of
sorted lists, so that each of them is a part of the result.
-/

namespace Squirrel

namespace Interleave

variable {α : Type*} {U : List (ℕ × α)} {i c p : ℕ} {a : α}

/-- The items of list `i`. -/
def part (U : List (ℕ × α)) (i : ℕ) : List α := (U.filter fun x => x.1 = i).map Prod.snd

/-- How many of the first `p` items come from list `i`. -/
def rank (U : List (ℕ × α)) (i p : ℕ) : ℕ := (part (U.take p) i).length

theorem mem_part : a ∈ part U i ↔ (i, a) ∈ U := by
  simp [part]

theorem part_append (U V : List (ℕ × α)) (i : ℕ) : part (U ++ V) i = part U i ++ part V i := by
  simp [part]

theorem part_take_append_drop (U : List (ℕ × α)) (i p : ℕ) :
    part (U.take p) i ++ part (U.drop p) i = part U i := by
  rw [← part_append, List.take_append_drop]

theorem rank_le (U : List (ℕ × α)) (i p : ℕ) : rank U i p ≤ (part U i).length := by
  rw [← part_take_append_drop U i p, List.length_append]
  exact Nat.le_add_right _ _

@[simp] theorem rank_zero (U : List (ℕ × α)) (i : ℕ) : rank U i 0 = 0 := rfl

@[simp] theorem rank_length (U : List (ℕ × α)) (i : ℕ) :
    rank U i U.length = (part U i).length := by
  rw [rank, List.take_length]

theorem rank_succ_self (h : U[p]? = some (c, a)) : rank U c (p + 1) = rank U c p + 1 := by
  rw [rank, List.take_add_one, h, part_append, List.length_append, rank]
  simp [part]

theorem rank_succ_of_ne (h : U[p]? = some (c, a)) (hne : i ≠ c) :
    rank U i (p + 1) = rank U i p := by
  rw [rank, List.take_add_one, h, part_append, List.length_append, rank]
  simp [part, hne.symm]

/-- What is left of list `i` begins at its rank. -/
theorem part_getElem?_rank (U : List (ℕ × α)) (i p : ℕ) :
    (part U i)[rank U i p]? = (part (U.drop p) i).head? := by
  rw [← part_take_append_drop U i p, rank, List.getElem?_append_right (Nat.le_refl _),
    Nat.sub_self, List.head?_eq_getElem?]

/-- What has been consumed of list `i` ends below its rank. -/
theorem part_getElem?_rank_sub_one (h : rank U i p ≠ 0) :
    (part U i)[rank U i p - 1]? = (part (U.take p) i).getLast? := by
  rw [← part_take_append_drop U i p, rank,
    List.getElem?_append_left (Nat.sub_one_lt h), List.getLast?_eq_getElem?]

theorem part_getElem?_rank_self (h : U[p]? = some (c, a)) : (part U c)[rank U c p]? = some a := by
  obtain ⟨hp, hget⟩ := List.getElem?_eq_some_iff.mp h
  rw [part_getElem?_rank, List.drop_eq_getElem_cons hp, hget]
  simp [part]

/-- The ranks at the place where a predicate ceases to hold are the places where it does in the
parts. -/
theorem rank_countP {q : α → Bool} (h : U.take (U.countP fun x => q x.2)
    = U.filter fun x => q x.2) (i : ℕ) :
    rank U i (U.countP fun x => q x.2) = (part U i).countP q := by
  rw [rank, h, part, part, List.length_map, List.countP_map, List.countP_eq_length_filter,
    List.filter_filter, List.filter_filter]
  congr 2
  funext x
  exact Bool.and_comm _ _

/-! ### Tagging a merge sort -/

/-- The items of each list with the list's number. -/
def tagged (lists : List (List α)) : List (ℕ × α) :=
  (lists.zipIdx.map fun l => l.1.map fun a => (l.2, a)).flatten

theorem map_snd_tagged (lists : List (List α)) : (tagged lists).map Prod.snd = lists.flatten := by
  rw [tagged, List.map_flatten, List.map_map]
  have h : (List.map Prod.snd ∘ fun l : List α × ℕ => l.1.map fun a => (l.2, a)) = Prod.fst := by
    funext l
    simp [Function.comp_def]
  rw [h, List.zipIdx_map_fst]

theorem mem_tagged {lists : List (List α)} :
    (i, a) ∈ tagged lists ↔ ∃ l, lists[i]? = some l ∧ a ∈ l := by
  simp only [tagged, List.mem_flatten, List.mem_map, List.mem_zipIdx_iff_getElem?]
  constructor
  · rintro ⟨_, ⟨⟨l, j⟩, hl, rfl⟩, hmem⟩
    obtain ⟨b, hb, heq⟩ := List.mem_map.mp hmem
    obtain ⟨rfl, rfl⟩ := Prod.mk.inj heq
    exact ⟨l, hl, hb⟩
  · rintro ⟨l, hl, ha⟩
    exact ⟨_, ⟨(l, i), hl, rfl⟩, List.mem_map.mpr ⟨a, ha, rfl⟩⟩

theorem part_tagged {lists : List (List α)} {l : List α} (h : lists[i]? = some l) :
    part (tagged lists) i = l := by
  obtain ⟨hi, rfl⟩ := List.getElem?_eq_some_iff.mp h
  have hsplit : lists.zipIdx = (lists.take i).zipIdx ++
      (lists[i], i) :: (lists.drop (i + 1)).zipIdx (i + 1) := by
    conv_lhs => rw [← List.take_append_drop i lists, List.drop_eq_getElem_cons hi]
    rw [List.zipIdx_append, List.zipIdx_cons, List.length_take_of_le (Nat.le_of_lt hi)]
    simp
  -- no other list has this number
  have hother : ∀ ls : List (List α × ℕ), (∀ x ∈ ls, x.2 ≠ i) →
      part (ls.map fun l => l.1.map fun a => (l.2, a)).flatten i = [] := by
    intro ls hls
    rw [List.eq_nil_iff_forall_not_mem]
    intro b hb
    obtain ⟨_, hl, hmem⟩ := List.mem_flatten.mp (mem_part.mp hb)
    obtain ⟨x, hx, rfl⟩ := List.mem_map.mp hl
    obtain ⟨_, -, heq⟩ := List.mem_map.mp hmem
    exact hls x hx (Prod.mk.inj heq).1
  rw [tagged, hsplit, List.map_append, List.map_cons, List.flatten_append, List.flatten_cons,
    part_append, part_append, hother, hother]
  · simp [part, List.filter_map, Function.comp_def]
  · rintro x hx rfl
    exact absurd (List.le_snd_of_mem_zipIdx hx) (by omega)
  · rintro x hx rfl
    have := List.snd_lt_add_of_mem_zipIdx hx
    rw [List.length_take] at this
    omega

/-- The lists come one after the other. -/
theorem tagged_pairwise (lists : List (List α)) :
    (tagged lists).Pairwise fun x y => x.1 ≤ y.1 := by
  rw [tagged, List.pairwise_flatten]
  constructor
  · intro l hl
    obtain ⟨x, -, rfl⟩ := List.mem_map.mp hl
    rw [List.pairwise_map]
    exact List.pairwise_of_forall fun _ _ => Nat.le_refl _
  · rw [List.pairwise_map]
    have hidx : lists.zipIdx.Pairwise fun x y => x.2 < y.2 := by
      rw [← List.pairwise_map, List.zipIdx_map_snd]
      exact List.pairwise_lt_range'
    refine hidx.imp fun {l l'} hlt => ?_
    intro x hx y hy
    obtain ⟨a, -, rfl⟩ := List.mem_map.mp hx
    obtain ⟨b, -, rfl⟩ := List.mem_map.mp hy
    exact Nat.le_of_lt hlt

/-- Equal items stay in the order of their lists, since the sort is stable. -/
theorem mergeSort_tagged_ties {le : α → α → Bool}
    (trans : ∀ a b c, le a b → le b c → le a c) (total : ∀ a b, le a b || le b a)
    (lists : List (List α)) :
    ((tagged lists).mergeSort fun x y => le x.2 y.2).Pairwise
      fun x y => le y.2 x.2 → x.1 ≤ y.1 := by
  rw [← List.mergeSort_zipIdx, List.pairwise_map]
  have hsorted := List.pairwise_mergeSort
    (@List.zipIdxLE_trans (ℕ × α) (fun x y => le x.2 y.2) fun x y z => trans x.2 y.2 z.2)
    (@List.zipIdxLE_total (ℕ × α) (fun x y => le x.2 y.2) fun x y => total x.2 y.2)
    (tagged lists).zipIdx
  refine hsorted.imp_of_mem fun {v v'} hv hv' hle hback => ?_
  rw [List.mem_mergeSort, List.mem_zipIdx_iff_getElem?] at hv hv'
  have hidx : v.2 ≤ v'.2 := by
    rw [List.zipIdxLE] at hle
    split at hle
    · next h => simpa [hback] using hle
    · cases hle
  obtain ⟨hlt, hget⟩ := List.getElem?_eq_some_iff.mp hv
  obtain ⟨hlt', hget'⟩ := List.getElem?_eq_some_iff.mp hv'
  rcases Nat.lt_or_eq_of_le hidx with h | h
  · rw [← hget, ← hget']
    exact List.pairwise_iff_getElem.mp (tagged_pairwise lists) _ _ hlt hlt' h
  · rw [← hget, ← hget']
    simp only [h, Nat.le_refl]

/-- **Merge sorting the items of sorted lists interleaves the lists**, with equal items in the order
of their lists. -/
theorem exists_interleaving {le : α → α → Bool}
    (trans : ∀ a b c, le a b → le b c → le a c) (total : ∀ a b, le a b || le b a)
    {lists : List (List α)} (hsorted : ∀ l ∈ lists, l.Pairwise fun a b => le a b) :
    ∃ U : List (ℕ × α), U.map Prod.snd = lists.flatten.mergeSort le ∧
      U.Pairwise (fun x y => le x.2 y.2) ∧ U.Pairwise (fun x y => le y.2 x.2 → x.1 ≤ y.1) ∧
      (∀ x ∈ U, x.1 < lists.length) ∧ ∀ i l, lists[i]? = some l → part U i = l := by
  let le' : ℕ × α → ℕ × α → Bool := fun x y => le x.2 y.2
  have trans' : ∀ x y z, le' x y → le' y z → le' x z := fun x y z => trans x.2 y.2 z.2
  have total' : ∀ x y, le' x y || le' y x := fun x y => total x.2 y.2
  refine ⟨(tagged lists).mergeSort le', ?_, List.pairwise_mergeSort trans' total' _,
    mergeSort_tagged_ties trans total lists, ?_, ?_⟩
  · rw [← map_snd_tagged]
    exact List.map_mergeSort fun _ _ _ _ => rfl
  · rintro ⟨i, a⟩ hx
    obtain ⟨l, hl, -⟩ := mem_tagged.mp (List.mem_mergeSort.mp hx)
    exact (List.getElem?_eq_some_iff.mp hl).1
  · intro i l hl
    -- the sort is stable, so that the sorted list `l` is still a sublist
    have hpart : (tagged lists).filter (fun x => x.1 = i) = l.map fun a => (i, a) := by
      rw [← part_tagged hl, part, List.map_map]
      refine (List.map_id _).symm.trans (List.map_congr_left fun x hx => ?_)
      rw [List.mem_filter, decide_eq_true_iff] at hx
      exact Prod.ext hx.2 rfl
    have hle : (l.map fun a => (i, a)).Pairwise fun x y => le' x y := by
      rw [List.pairwise_map]
      exact hsorted l (List.mem_of_getElem? hl)
    have hsub : (l.map fun a => (i, a)).Sublist ((tagged lists).mergeSort le') :=
      List.sublist_mergeSort trans' total' hle (hpart ▸ List.filter_sublist)
    have hfilter := hsub.filter fun x => x.1 = i
    have hself : (l.map fun a => (i, a)).filter (fun x => x.1 = i) = l.map fun a => (i, a) := by
      rw [← hpart, List.filter_filter]
      simp
    have hlen := ((List.mergeSort_perm (tagged lists) le').filter fun x => x.1 = i).length_eq
    rw [hpart] at hlen
    rw [hself] at hfilter
    rw [part, ← hfilter.eq_of_length hlen.symm, List.map_map]
    exact List.map_id l

end Interleave

end Squirrel
