import Mathlib.Algebra.GroupWithZero.Nat
import Mathlib.Data.List.Nodup
import Mathlib.Order.Interval.Finset.Nat

/-!
# Carving regions into pieces

An allocator gets regions of memory and hands out pieces of them. It has one region in use, whose
tail is free, and can do three things: carve the next piece off the free tail, possibly with a gap
in front of it; hand out a new region as a whole; put a new region in use and carve the first piece
off that, which abandons the old tail.

`Pool.Sound` is what keeps the pieces apart, and `Pool.Tail` says that the free part is exactly what
is left of the region in use. Both are kept by all three steps, as long as new regions are apart
from the old ones.

## Main results

* `Pool.Sound.carve`, `Pool.Sound.dedicate`, `Pool.Sound.renew` — pieces stay apart, and inside
* `Pool.Tail.carve`, `Pool.Tail.dedicate`, `Pool.Tail.renew` — the free part stays the unused tail
* `sum_size_lt` — regions of one address space that are apart fit into it together
-/

namespace Squirrel

namespace Carving

/-- `size` addresses, from `start` on. -/
structure Extent where
  start : ℕ
  size : ℕ
  deriving DecidableEq

namespace Extent

/-- The address behind the extent. -/
def stop (e : Extent) : ℕ := e.start + e.size

/-- The addresses of the extent. -/
def cells (e : Extent) : Set ℕ := Set.Ico e.start e.stop

/-- One extent lies in another. -/
def Within (e o : Extent) : Prop := o.start ≤ e.start ∧ e.stop ≤ o.stop

/-- Two extents have no address in common. -/
def Apart (e o : Extent) : Prop := ∀ x ∈ e.cells, x ∉ o.cells

variable {e e' o o' : Extent}

theorem mem_cells {x : ℕ} : x ∈ e.cells ↔ e.start ≤ x ∧ x < e.stop := Iff.rfl

theorem Within.refl (e : Extent) : e.Within e := ⟨le_rfl, le_rfl⟩

theorem Within.mem (h : e.Within o) {x : ℕ} (hx : x ∈ e.cells) : x ∈ o.cells :=
  ⟨h.1.trans hx.1, hx.2.trans_le h.2⟩

theorem Apart.symm (h : e.Apart o) : o.Apart e := fun x hx hx' => h x hx' hx

/-- Parts of extents that are apart are apart. -/
theorem Apart.mono (h : o.Apart o') (he : e.Within o) (he' : e'.Within o') : e.Apart e' :=
  fun x hx hx' => h x (he.mem hx) (he'.mem hx')

theorem apart_of_le (h : e.stop ≤ o.start) : e.Apart o := by
  intro x hx hx'
  rw [mem_cells] at hx hx'
  omega

theorem apart_of_empty (h : o.size = 0) : e.Apart o := by
  intro x hx hx'
  rw [mem_cells, stop, h] at hx'
  omega

/-- A piece that is apart from a tail, and has addresses, ends in front of it. -/
theorem Apart.stop_le (h : e.Apart o) (hpos : 0 < e.size) (hle : e.stop ≤ o.stop) :
    e.stop ≤ o.start := by
  by_contra hgt
  have hlt : max e.start o.start < e.stop := max_lt (by rw [stop]; omega) (by omega)
  have hmem : max e.start o.start ∈ e.cells := ⟨le_max_left _ _, hlt⟩
  exact h _ hmem ⟨le_max_right _ _, hlt.trans_le hle⟩

end Extent

open Extent

/-! ### Regions of one address space -/

/-- **Extents that are apart fit into the address space together.** Address zero is in none. -/
theorem sum_size_lt {l : List Extent} {N : ℕ} (hN : 0 < N) (hapart : l.Pairwise Apart)
    (hrange : ∀ e ∈ l, ∀ x ∈ e.cells, 0 < x ∧ x < N) : (l.map Extent.size).sum < N := by
  have hnodup : (l.flatMap fun e => List.range' e.start e.size).Nodup := by
    refine List.nodup_flatMap.mpr ⟨fun e _ => List.nodup_range', hapart.imp ?_⟩
    intro e o h x hx hx'
    rw [List.mem_range'_1] at hx hx'
    exact h x hx hx'
  have hsub : (l.flatMap fun e => List.range' e.start e.size).toFinset ⊆ Finset.Ioo 0 N := by
    intro x hx
    obtain ⟨e, he, hx⟩ := List.mem_flatMap.mp (List.mem_toFinset.mp hx)
    rw [List.mem_range'_1] at hx
    exact Finset.mem_Ioo.mpr (hrange e he x hx)
  have hcard := Finset.card_le_card hsub
  rw [List.toFinset_card_of_nodup hnodup, Nat.card_Ioo, List.length_flatMap] at hcard
  have hlen : (l.map fun e => (List.range' e.start e.size).length) = l.map Extent.size := by
    simp
  rw [hlen] at hcard
  omega

/-! ### What an allocator has and has handed out -/

/-- The regions an allocator owns, the pieces it has granted, and the free tail of the region in
use. -/
structure Pool where
  owned : List Extent
  granted : List Extent
  free : Extent

namespace Pool

/-- The next piece of the free tail, behind a gap. -/
def carve (p : Pool) (gap size : ℕ) : Pool where
  owned := p.owned
  granted := p.granted ++ [⟨p.free.start + gap, size⟩]
  free := ⟨p.free.start + (gap + size), p.free.size - (gap + size)⟩

/-- A new region, granted as a whole. -/
def dedicate (p : Pool) (o : Extent) : Pool where
  owned := p.owned ++ [o]
  granted := p.granted ++ [o]
  free := p.free

/-- A new region, put in use for a first piece. -/
def renew (p : Pool) (o : Extent) (size : ℕ) : Pool where
  owned := p.owned ++ [o]
  granted := p.granted ++ [⟨o.start, size⟩]
  free := ⟨o.start + size, o.size - size⟩

/-- The pieces and the free tail lie in regions and have no address in common. -/
structure Sound (p : Pool) : Prop where
  within : ∀ g ∈ p.granted, ∃ o ∈ p.owned, g.Within o
  apart : p.granted.Pairwise Apart
  pos : ∀ g ∈ p.granted, 0 < g.size
  free_apart : ∀ g ∈ p.granted, g.Apart p.free
  free_within : p.free.size = 0 ∨ ∃ o ∈ p.owned, p.free.Within o
  sum_le : (p.granted.map Extent.size).sum + p.free.size ≤ (p.owned.map Extent.size).sum

/-- The free part is the tail of a region of `n` addresses: it starts where the last piece of that
region ends, and regions that have come later are granted as a whole. Before the first such region
nothing is free. -/
def Tail (n : ℕ) (p : Pool) : Prop :=
  (p.free.size = 0 ∧ ∀ o ∈ p.owned, o ∈ p.granted) ∨
    ∃ before cur after, p.owned = before ++ cur :: after ∧ cur.size = n ∧
      (∀ o ∈ after, o ∈ p.granted) ∧ p.free.stop = cur.stop ∧
      ∃ g ∈ p.granted, g.Within cur ∧ g.stop = p.free.start

variable {p : Pool} {gap size n : ℕ} {o : Extent}

theorem sum_append (l : List Extent) (e : Extent) :
    ((l ++ [e]).map Extent.size).sum = (l.map Extent.size).sum + e.size := by
  simp

/-- A piece of a new region is apart from all that is in the old ones. -/
theorem Sound.apart_new (h : p.Sound) (ho : ∀ o' ∈ p.owned, o'.Apart o) {g : Extent}
    (hg : g ∈ p.granted) : g.Apart o := by
  obtain ⟨o', ho', hwithin⟩ := h.within g hg
  exact (ho o' ho').mono hwithin (.refl o)

theorem Sound.within_append (h : p.Sound) {e : Extent} (he : ∃ o' ∈ p.owned ++ [o], e.Within o') :
    ∀ g ∈ p.granted ++ [e], ∃ o' ∈ p.owned ++ [o], g.Within o' := by
  intro g hg
  rcases List.mem_append.mp hg with hg | hg
  · obtain ⟨o', ho', hwithin⟩ := h.within g hg
    exact ⟨o', List.mem_append_left _ ho', hwithin⟩
  · rw [List.mem_singleton.mp hg]
    exact he

theorem Sound.apart_append (h : p.Sound) {e : Extent} (he : ∀ g ∈ p.granted, g.Apart e) :
    (p.granted ++ [e]).Pairwise Apart := by
  refine List.pairwise_append.mpr ⟨h.apart, List.pairwise_singleton _ _, fun g hg e' he' => ?_⟩
  rw [List.mem_singleton.mp he']
  exact he g hg

theorem Sound.pos_append (h : p.Sound) {e : Extent} (he : 0 < e.size) :
    ∀ g ∈ p.granted ++ [e], 0 < g.size := by
  intro g hg
  rcases List.mem_append.mp hg with hg | hg
  · exact h.pos g hg
  · rw [List.mem_singleton.mp hg]
    exact he

/-- **Carving keeps the pieces apart.** -/
theorem Sound.carve (h : p.Sound) (hpos : 0 < size) (hfit : gap + size ≤ p.free.size) :
    (p.carve gap size).Sound := by
  obtain ⟨o, ho, hwithin⟩ : ∃ o ∈ p.owned, p.free.Within o := by
    rcases h.free_within with hzero | hwithin
    · omega
    · exact hwithin
  have hpiece : Within ⟨p.free.start + gap, size⟩ p.free := by
    constructor
    · exact Nat.le_add_right _ _
    · simp only [stop]
      omega
  have hrest : Within ⟨p.free.start + (gap + size), p.free.size - (gap + size)⟩ p.free := by
    constructor
    · exact Nat.le_add_right _ _
    · simp only [stop]
      omega
  have hsum := h.sum_le
  refine ⟨?_, h.apart_append fun g hg => (h.free_apart g hg).mono (.refl g) hpiece,
    h.pos_append hpos, ?_, .inr ⟨o, ho, hrest.1.trans' hwithin.1, hrest.2.trans hwithin.2⟩, ?_⟩
  · intro g hg
    rcases List.mem_append.mp hg with hg | hg
    · exact h.within g hg
    · rw [List.mem_singleton.mp hg]
      exact ⟨o, ho, hpiece.1.trans' hwithin.1, hpiece.2.trans hwithin.2⟩
  · intro g hg
    rcases List.mem_append.mp hg with hg | hg
    · exact (h.free_apart g hg).mono (.refl g) hrest
    · rw [List.mem_singleton.mp hg]
      exact apart_of_le (by simp only [stop, Pool.carve]; omega)
  · simp only [Pool.carve, sum_append]
    omega

/-- **Granting a new region as a whole keeps the pieces apart.** -/
theorem Sound.dedicate (h : p.Sound) (hpos : 0 < o.size) (ho : ∀ o' ∈ p.owned, o'.Apart o) :
    (p.dedicate o).Sound := by
  have hsum := h.sum_le
  refine ⟨h.within_append ⟨o, by simp, .refl o⟩, h.apart_append fun g hg => h.apart_new ho hg,
    h.pos_append hpos, ?_, ?_, ?_⟩
  · intro g hg
    rcases List.mem_append.mp hg with hg | hg
    · exact h.free_apart g hg
    · rw [List.mem_singleton.mp hg]
      rcases h.free_within with hzero | ⟨o', ho', hwithin⟩
      · exact apart_of_empty hzero
      · exact ((ho o' ho').mono hwithin (.refl o)).symm
  · rcases h.free_within with hzero | ⟨o', ho', hwithin⟩
    · exact .inl hzero
    · exact .inr ⟨o', List.mem_append_left _ ho', hwithin⟩
  · simp only [Pool.dedicate, sum_append]
    omega

/-- **Putting a new region in use keeps the pieces apart.** -/
theorem Sound.renew (h : p.Sound) (hpos : 0 < size) (hle : size ≤ o.size)
    (ho : ∀ o' ∈ p.owned, o'.Apart o) : (p.renew o size).Sound := by
  have hpiece : Within ⟨o.start, size⟩ o := by
    constructor
    · exact le_rfl
    · simp only [stop]
      omega
  have hrest : Within ⟨o.start + size, o.size - size⟩ o := by
    constructor
    · exact Nat.le_add_right _ _
    · simp only [stop]
      omega
  have hsum := h.sum_le
  refine ⟨h.within_append ⟨o, by simp, hpiece⟩,
    h.apart_append fun g hg => (h.apart_new ho hg).mono (.refl g) hpiece, h.pos_append hpos, ?_,
    .inr ⟨o, by simp [Pool.renew], hrest⟩, ?_⟩
  · intro g hg
    rcases List.mem_append.mp hg with hg | hg
    · exact (h.apart_new ho hg).mono (.refl g) hrest
    · rw [List.mem_singleton.mp hg]
      exact apart_of_le (by simp [stop, Pool.renew])
  · simp only [Pool.renew, sum_append]
    omega

/-! ### The free tail -/

theorem Tail.carve (h : p.Tail n) (hpos : 0 < size) (hfit : gap + size ≤ p.free.size) :
    (p.carve gap size).Tail n := by
  rcases h with ⟨hzero, -⟩ | ⟨before, cur, after, howned, hn, hafter, hstop, g, hg, hwithin, hlast⟩
  · omega
  · refine .inr ⟨before, cur, after, howned, hn, ?_, ?_, ⟨p.free.start + gap, size⟩,
      List.mem_append_right _ (by simp), ?_, ?_⟩
    · intro o ho
      exact List.mem_append_left _ (hafter o ho)
    · rw [← hstop]
      simp only [stop, Pool.carve]
      omega
    · -- the last piece starts in the region, so the free part does
      have hstart : cur.start ≤ g.start := hwithin.1
      have hend : g.stop = p.free.start := hlast
      simp only [stop] at hend hstop
      constructor
      · dsimp only
        omega
      · simp only [stop]
        omega
    · simp only [stop, Pool.carve]
      omega

theorem Tail.dedicate (h : p.Tail n) : (p.dedicate o).Tail n := by
  rcases h with ⟨hzero, hall⟩ | ⟨before, cur, after, howned, hn, hafter, hstop, g, hg, hwithin,
    hlast⟩
  · refine .inl ⟨hzero, fun o' ho' => ?_⟩
    rcases List.mem_append.mp ho' with ho' | ho'
    · exact List.mem_append_left _ (hall o' ho')
    · exact List.mem_append_right _ ho'
  · refine .inr ⟨before, cur, after ++ [o], by simp [Pool.dedicate, howned], hn, ?_, hstop, g,
      List.mem_append_left _ hg, hwithin, hlast⟩
    intro o' ho'
    rcases List.mem_append.mp ho' with ho' | ho'
    · exact List.mem_append_left _ (hafter o' ho')
    · exact List.mem_append_right _ ho'

theorem Tail.renew (hle : size ≤ o.size) : (p.renew o size).Tail o.size := by
  refine .inr ⟨p.owned, o, [], rfl, rfl, by simp, ?_, ⟨o.start, size⟩,
    List.mem_append_right _ (by simp), ⟨le_rfl, ?_⟩, rfl⟩
  · simp only [stop, Pool.renew]
    omega
  · simp only [stop]
    omega

/-- Pieces of the region in use end in front of the free tail. -/
theorem Sound.stop_le (h : p.Sound) {cur g : Extent} (hstop : p.free.stop = cur.stop)
    (hg : g ∈ p.granted) (hwithin : g.Within cur) : g.stop ≤ p.free.start :=
  (h.free_apart g hg).stop_le (h.pos g hg) (hstop ▸ hwithin.2)

end Pool

end Carving

end Squirrel
