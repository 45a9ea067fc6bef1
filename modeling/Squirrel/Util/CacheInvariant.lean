import Squirrel.Lib.Lru
import Squirrel.Lib.Ring
import Squirrel.Util.CacheTable
import Mathlib.Algebra.BigOperators.Intervals
import Mathlib.Algebra.Order.BigOperators.Group.Finset

/-!
# The invariant of the cache

Who refers to an entry is a list: the unreleased handles, then the list of the cache. The count of
an entry in it is its reference count, so releasing a handle drops an occurrence, evicting an entry
moves one from the cache to a handle about to be released, and an entry is deleted when its last
occurrence goes. This is `Counts`, and it is all that `Unref` is about.

The invariant of a cache joins it to the two structures the entries are threaded through.

## Main definitions

* `LRUCache.Counts`, `LRUCache.Inv`

## Main results

* `Inv.insert`, `Inv.lookup`, `Inv.release`, `Inv.erase` — what each operation does to it
* `Inv.destroy`
-/

namespace Squirrel

namespace LRUCache

open Function (update)

variable {c : LRUCache} {hash : Bytes → ℕ} {order rest pins R : List ℕ} {e : ℕ}

/-! ### Reference counts -/

/-- The charge of an entry. -/
def charge (c : LRUCache) (e : ℕ) : ℕ := (c.entry e).charge

/-- The call of the deleter of an entry. -/
def deletion (c : LRUCache) (e : ℕ) : Deletion :=
  ⟨e, (c.entry e).deleter, (c.entry e).key, (c.entry e).value⟩

/-- An entry as an item of an abstract map. -/
def item (c : LRUCache) (e : ℕ) : Lru.Item Bytes ℕ :=
  ⟨e, (c.entry e).key, (c.entry e).value, c.charge e⟩

theorem item_injective (c : LRUCache) : Function.Injective c.item := fun _ _ h =>
  congrArg Lru.Item.id h

theorem total_map_item (c : LRUCache) (l : List ℕ) :
    Lru.total (l.map c.item) = ∑ e ∈ l.toFinset, c.charge e := by
  have himage : (l.map c.item).toFinset = l.toFinset.image c.item := by
    ext x
    simp
  rw [Lru.total, himage, Finset.sum_image fun _ _ _ _ h => c.item_injective h]
  rfl

/-- What an operation that allocates nothing leaves alone. -/
structure Keeps (c c' : LRUCache) : Prop where
  capacity_eq : c'.capacity = c.capacity
  entry_eq : c'.entry = c.entry
  fresh_eq : c'.fresh = c.fresh

theorem Keeps.trans {c c' c'' : LRUCache} (h : Keeps c c') (h' : Keeps c' c'') : Keeps c c'' :=
  ⟨h'.capacity_eq.trans h.capacity_eq, h'.entry_eq.trans h.entry_eq, h'.fresh_eq.trans h.fresh_eq⟩

theorem Keeps.item_eq {c c' : LRUCache} (h : Keeps c c') : c'.item = c.item := by
  funext e
  rw [item, item, charge, charge, h.entry_eq]

theorem Keeps.sum_charge {c c' : LRUCache} (h : Keeps c c') :
    ∑ e ∈ Finset.Ico 1 c'.fresh, c'.charge e = ∑ e ∈ Finset.Ico 1 c.fresh, c.charge e := by
  rw [h.fresh_eq]
  refine Finset.sum_congr rfl fun e _ => ?_
  rw [charge, charge, h.entry_eq]

/-- The charges of all entries there ever were are no more than `usage_` can hold. -/
def Bounded (c : LRUCache) : Prop := ∑ e ∈ Finset.Ico 1 c.fresh, c.charge e < 2 ^ 64

theorem Keeps.bounded {c c' : LRUCache} (h : Keeps c c') (hb : c.Bounded) : c'.Bounded := by
  rwa [Bounded, h.sum_charge]

/-- The new charge joins those of before. -/
theorem sum_charge_insert {c c' : LRUCache} {x : LRUEntry} (hpos : 0 < c.fresh)
    (hfresh : c'.fresh = c.fresh + 1) (hentry : c'.entry = update c.entry c.fresh x) :
    ∑ e ∈ Finset.Ico 1 c'.fresh, c'.charge e
      = ∑ e ∈ Finset.Ico 1 c.fresh, c.charge e + x.charge := by
  rw [hfresh, Finset.sum_Ico_succ_top hpos]
  refine congrArg₂ (· + ·) (Finset.sum_congr rfl fun e he => ?_) ?_
  · rw [charge, charge, hentry, Function.update_of_ne (Nat.ne_of_lt (Finset.mem_Ico.mp he).2)]
  · rw [charge, hentry, Function.update_self]

/-- The references are those of `R`, one for each occurrence. -/
structure Counts (c : LRUCache) (R : List ℕ) : Prop where
  fresh : 0 < c.fresh
  head : c.live 0 = true
  live : ∀ e, 0 < e → (c.live e = true ↔ e ∈ R)
  alloc : ∀ e ∈ R, 0 < e ∧ e < c.fresh
  refs : ∀ e, 0 < e → e < c.fresh → c.refs e = R.count e
  noSelf : ∀ e ∈ R, c.next e ≠ e
  usage : c.usage = (∑ e ∈ R.toFinset, c.charge e) % 2 ^ 64
  charges : ∀ e ∈ R, c.charge e < 2 ^ 64
  once : ∀ e, (c.deleted.map Deletion.handle).count e
    = if 0 < e ∧ e < c.fresh ∧ e ∉ R then 1 else 0
  calls : ∀ d ∈ c.deleted, d = c.deletion d.handle

namespace Counts

theorem perm {R' : List ℕ} (h : Counts c R) (hperm : R.Perm R') : Counts c R' where
  fresh := h.fresh
  head := h.head
  live e he := (h.live e he).trans hperm.mem_iff
  alloc e he := h.alloc e (hperm.mem_iff.mpr he)
  refs e he hlt := (h.refs e he hlt).trans (hperm.count_eq e)
  noSelf e he := h.noSelf e (hperm.mem_iff.mpr he)
  usage := by rw [h.usage, List.toFinset_eq_of_perm _ _ hperm]
  charges e he := h.charges e (hperm.mem_iff.mpr he)
  once e := by rw [h.once, if_congr (by rw [hperm.mem_iff]) rfl rfl]
  calls := h.calls

theorem live_of_mem (h : Counts c R) (he : e ∈ R) : c.live e = true :=
  (h.live e (h.alloc e he).1).mpr he

theorem accessible (h : Counts c R) {l : List ℕ} (hl : ∀ e ∈ l, e ∈ R) : Accessible c l :=
  fun e he => ⟨h.live_of_mem (hl e he), h.noSelf e (hl e he)⟩

theorem subset_Ico (h : Counts c R) : R.toFinset ⊆ Finset.Ico 1 c.fresh := by
  intro e he
  exact Finset.mem_Ico.mpr (h.alloc e (List.mem_toFinset.mp he))

theorem usage_of_bounded (h : Counts c R) (hb : c.Bounded) :
    c.usage = ∑ e ∈ R.toFinset, c.charge e := by
  rw [h.usage, Nat.mod_eq_of_lt]
  exact lt_of_le_of_lt (Finset.sum_le_sum_of_subset h.subset_Ico) hb

theorem refs_cons (h : Counts c (e :: R)) : c.refs e = R.count e + 1 := by
  obtain ⟨hpos, hlt⟩ := h.alloc e List.mem_cons_self
  rw [h.refs e hpos hlt, List.count_cons_self]

/-- The counts after the decrement. -/
theorem refs_update (h : Counts c (e :: R)) (a : ℕ) (ha : 0 < a) (hlt : a < c.fresh) :
    update c.refs e (c.refs e - 1) a = R.count a := by
  by_cases hae : a = e
  · rw [hae, Function.update_self, h.refs_cons, Nat.add_sub_cancel]
  · rw [Function.update_of_ne hae, h.refs a ha hlt, List.count_cons_of_ne (Ne.symm hae)]

/-- `Unref` of an entry that something else refers to. -/
theorem unref_of_mem (h : Counts c (e :: R)) (he : e ∈ R) :
    c.unref e = some { c with refs := update c.refs e (c.refs e - 1) } ∧
      Counts { c with refs := update c.refs e (c.refs e - 1) } R := by
  have hlive := h.live_of_mem List.mem_cons_self
  have hrefs := h.refs_cons
  have hcount : 0 < R.count e := List.count_pos_iff.mpr he
  have hmem : ∀ a, a ∈ e :: R ↔ a ∈ R := by
    intro a
    rw [List.mem_cons, or_iff_right_of_imp]
    rintro rfl
    exact he
  refine ⟨?_, h.fresh, h.head, fun a ha => (h.live a ha).trans (hmem a),
    fun a ha => h.alloc a (List.mem_cons_of_mem e ha), h.refs_update,
    fun a ha => h.noSelf a (List.mem_cons_of_mem e ha), ?_,
    fun a ha => h.charges a (List.mem_cons_of_mem e ha), fun a => ?_, h.calls⟩
  · rw [LRUCache.unref, if_neg (by simp [hlive, hrefs])]
    simp only [Function.update_self]
    rw [if_neg (by omega)]
  · have hset : (e :: R).toFinset = R.toFinset := by
      rw [List.toFinset_cons, Finset.insert_eq_self]
      exact List.mem_toFinset.mpr he
    rw [← hset]
    exact h.usage
  · exact (h.once a).trans (if_congr (by simp only [hmem a]) rfl rfl)

/-- `Unref` of an entry that nothing else refers to. -/
theorem unref_of_notMem (h : Counts c (e :: R)) (he : e ∉ R) :
    ∃ usage', c.unref e = some { c with
        refs := update c.refs e (c.refs e - 1), usage := usage',
        deleted := c.deleted ++ [c.deletion e], live := update c.live e false } ∧
      Counts { c with
        refs := update c.refs e (c.refs e - 1), usage := usage',
        deleted := c.deleted ++ [c.deletion e], live := update c.live e false } R := by
  obtain ⟨hpos, hlt⟩ := h.alloc e List.mem_cons_self
  have hlive := h.live_of_mem List.mem_cons_self
  have hrefs := h.refs_cons
  rw [List.count_eq_zero_of_not_mem he] at hrefs
  have hkey : c.key e = some (c.entry e).key := by
    simp [key, hlive, h.noSelf e List.mem_cons_self]
  have hsum : c.usage = (c.charge e + ∑ a ∈ R.toFinset, c.charge a) % 2 ^ 64 := by
    rw [h.usage, List.toFinset_cons, Finset.sum_insert]
    rwa [List.mem_toFinset]
  have hcharge := h.charges e List.mem_cons_self
  obtain ⟨usage', husage⟩ : ∃ usage', (c.usage + 2 ^ 64 - (c.entry e).charge) % 2 ^ 64 = usage' :=
    ⟨_, rfl⟩
  refine ⟨usage', ?_, h.fresh, ?_, fun a ha => ?_, fun a ha =>
    h.alloc a (List.mem_cons_of_mem e ha), h.refs_update, fun a ha =>
      h.noSelf a (List.mem_cons_of_mem e ha), ?_,
    fun a ha => h.charges a (List.mem_cons_of_mem e ha), fun a => ?_, fun d hd => ?_⟩
  · rw [LRUCache.unref, if_neg (by simp [hlive, hrefs])]
    simp only [Function.update_self]
    rw [if_pos (by omega)]
    simp only [key] at hkey
    simp only [key, hkey, husage, Option.bind_eq_bind, Option.bind_some]
    rfl
  · exact (Function.update_of_ne (Nat.ne_of_lt hpos) _ _).trans h.head
  · by_cases hae : a = e
    · subst hae
      simp [he]
    · simp only [Function.update_of_ne hae, h.live a ha, List.mem_cons, hae, false_or]
  · have hch : c.charge e = (c.entry e).charge := rfl
    rw [hch] at hsum hcharge
    change usage' = (∑ a ∈ R.toFinset, c.charge a) % 2 ^ 64
    omega
  · rw [List.map_append, List.count_append, h.once a]
    by_cases hae : a = e
    · subst hae
      simp [deletion, he, hpos, hlt]
    · simp [deletion, hae, Ne.symm hae]
  · rcases List.mem_append.mp hd with hd | hd
    · exact h.calls d hd
    · obtain rfl := List.mem_singleton.mp hd
      rfl

/-- **`Unref`.** A reference is dropped; with the last one the entry is deleted. -/
theorem unref (h : Counts c (e :: R)) :
    ∃ refs' usage' deleted' live', c.unref e = some { c with
        refs := refs', usage := usage', deleted := deleted', live := live' } ∧
      Counts { c with refs := refs', usage := usage', deleted := deleted', live := live' } R := by
  by_cases he : e ∈ R
  · exact ⟨_, _, _, _, h.unref_of_mem he⟩
  · obtain ⟨usage', hunref, hcounts⟩ := h.unref_of_notMem he
    exact ⟨_, _, _, _, hunref, hcounts⟩

/-- One more reference to an entry. -/
theorem ref (h : Counts c R) (he : e ∈ R) (hfew : R.count e + 1 < 2 ^ 32) {next' prev' : ℕ → ℕ}
    (hself : ∀ a ∈ R, next' a ≠ a) :
    Counts { c with
      refs := update c.refs e ((c.refs e + 1) % 2 ^ 32), next := next', prev := prev' }
      (e :: R) := by
  have hmem : ∀ a, a ∈ e :: R ↔ a ∈ R := by
    intro a
    rw [List.mem_cons, or_iff_right_of_imp]
    rintro rfl
    exact he
  refine ⟨h.fresh, h.head, fun a ha => (h.live a ha).trans (hmem a).symm,
    fun a ha => h.alloc a ((hmem a).mp ha), fun a ha hlt => ?_, fun a ha =>
      hself a ((hmem a).mp ha),
    ?_, fun a ha => h.charges a ((hmem a).mp ha),
    fun a => (h.once a).trans (if_congr (by simp only [hmem a]) rfl rfl), h.calls⟩
  · by_cases hae : a = e
    · subst hae
      simp only [Function.update_self]
      rw [h.refs a ha hlt, List.count_cons_self, Nat.mod_eq_of_lt hfew]
    · simp only [Function.update_of_ne hae]
      rw [h.refs a ha hlt, List.count_cons_of_ne (Ne.symm hae)]
  · have hset : (e :: R).toFinset = R.toFinset := by
      rw [List.toFinset_cons, Finset.insert_eq_self]
      exact List.mem_toFinset.mpr he
    rw [hset]
    exact h.usage

/-- A new entry, with a reference from the cache and a handle. -/
theorem alloc_fresh (h : Counts c R) {x : LRUEntry} {next' prev' : ℕ → ℕ} {usage' : ℕ}
    (hx : x.charge < 2 ^ 64) (husage : (c.usage + x.charge) % 2 ^ 64 = usage')
    (hself : ∀ a ∈ c.fresh :: R, next' a ≠ a) :
    Counts { c with
      fresh := c.fresh + 1, live := update c.live c.fresh true, entry := update c.entry c.fresh x,
      refs := update c.refs c.fresh 2, next := next', prev := prev', usage := usage' }
      (c.fresh :: c.fresh :: R) := by
  have hfresh : c.fresh ∉ R := fun hmem => Nat.lt_irrefl _ (h.alloc _ hmem).2
  have hne : ∀ a ∈ R, a ≠ c.fresh := fun a ha heq => hfresh (heq ▸ ha)
  have hcharge : ∀ a ≠ c.fresh, (update c.entry c.fresh x a).charge = c.charge a := by
    intro a ha
    rw [Function.update_of_ne ha]
    rfl
  refine ⟨Nat.succ_pos _, ?_, fun a ha => ?_, fun a ha => ?_, fun a ha hlt => ?_,
    fun a ha => hself a ?_, ?_, fun a ha => ?_, fun a => ?_, fun d hd => ?_⟩
  · exact (Function.update_of_ne (Nat.ne_of_lt h.fresh) _ _).trans h.head
  · by_cases hae : a = c.fresh
    · simp [hae]
    · simp [hae, h.live a ha]
  · rcases List.mem_cons.mp ha with rfl | ha
    · exact ⟨h.fresh, Nat.lt_succ_self _⟩
    · rcases List.mem_cons.mp ha with rfl | ha
      · exact ⟨h.fresh, Nat.lt_succ_self _⟩
      · exact ⟨(h.alloc a ha).1, Nat.lt_succ_of_lt (h.alloc a ha).2⟩
  · by_cases hae : a = c.fresh
    · subst hae
      simp [List.count_eq_zero_of_not_mem hfresh]
    · have hlt' : a < c.fresh := by
        simp only at hlt
        omega
      simp [hae, Ne.symm hae, h.refs a ha hlt']
  · rcases List.mem_cons.mp ha with rfl | ha
    · exact List.mem_cons_self
    · exact ha
  · rw [List.toFinset_cons, List.toFinset_cons, Finset.insert_idem, Finset.sum_insert
      (by rwa [List.mem_toFinset])]
    simp only [charge, Function.update_self]
    rw [← husage, h.usage, Nat.mod_add_mod, Nat.add_comm]
    refine congrArg (fun n => (x.charge + n) % 2 ^ 64) ?_
    exact Finset.sum_congr rfl fun a ha => (hcharge a (hne a (List.mem_toFinset.mp ha))).symm
  · by_cases hae : a = c.fresh
    · subst hae
      simpa only [charge, Function.update_self] using hx
    · have hmem : a ∈ R := by
        rcases List.mem_cons.mp ha with heq | ha
        · exact absurd heq hae
        · exact (List.mem_cons.mp ha).resolve_left hae
      exact (hcharge a hae).trans_lt (h.charges a hmem)
  · rw [h.once a]
    by_cases hae : a = c.fresh
    · simp [hae]
    · have hlt : a < c.fresh ↔ a < c.fresh + 1 := by omega
      simp [hae, hlt]
  · have hmem : d.handle ∈ c.deleted.map Deletion.handle := List.mem_map_of_mem hd
    have hpos := List.count_pos_iff.mpr hmem
    have hlt : d.handle < c.fresh := by
      rw [h.once] at hpos
      by_contra hge
      rw [if_neg (by omega)] at hpos
      exact Nat.lt_irrefl 0 hpos
    have hd' := h.calls d hd
    simp only [deletion] at hd' ⊢
    rwa [Function.update_of_ne (Nat.ne_of_lt hlt)]

end Counts

/-! ### The list -/

/-- **`LRU_Remove`.** No entry becomes its own successor. -/
theorem lruRemove_spec (hring : Ring c.next c.prev 0 order) (hnodup : (0 :: order).Nodup)
    (hlive : ∀ a ∈ 0 :: order, c.live a = true) (he : e ∈ order) :
    ∃ next' prev', c.lruRemove e = some { c with next := next', prev := prev' } ∧
      Ring next' prev' 0 (order.erase e) ∧ ∀ a, 0 < a → next' a = a → c.next a = a := by
  obtain ⟨pre, post, rfl⟩ := List.append_of_mem he
  obtain ⟨hnext, hprev⟩ := hring.links
  have hnext_mem : c.next e ∈ post ++ [0] := hnext ▸ List.head_mem _
  have hprev_mem : c.prev e ∈ 0 :: pre := hprev ▸ List.getLast_mem _
  have hnext_live : c.live (c.next e) = true := by
    refine hlive _ ?_
    rcases List.mem_append.mp hnext_mem with hmem | hmem
    · exact List.mem_cons_of_mem 0 (List.mem_append_right pre (List.mem_cons_of_mem e hmem))
    · rw [List.mem_singleton.mp hmem]
      exact List.mem_cons_self
  have hprev_live : c.live (c.prev e) = true := by
    refine hlive _ ?_
    rw [← List.cons_append]
    exact List.mem_append_left _ hprev_mem
  obtain ⟨hzero, hnodup'⟩ := List.nodup_cons.mp hnodup
  obtain ⟨-, hpost, hdisj⟩ := List.nodup_append.mp hnodup'
  have herase : (pre ++ e :: post).erase e = pre ++ post := by
    rw [List.erase_append_right _ fun hmem => hdisj e hmem e List.mem_cons_self rfl,
      List.erase_cons_head]
  have hne : e ≠ c.next e := by
    intro heq
    rw [← heq] at hnext_mem
    rcases List.mem_append.mp hnext_mem with hmem | hmem
    · exact (List.nodup_cons.mp hpost).1 hmem
    · exact hzero (List.mem_singleton.mp hmem ▸ he)
  refine ⟨_, _, ?_, herase ▸ hring.remove hnodup, fun a ha hself => ?_⟩
  · rw [lruRemove, if_pos ⟨hlive e (List.mem_cons_of_mem 0 he), hnext_live, hprev_live⟩]
    simp only [Function.update_of_ne hne]
  · by_cases hap : a = c.prev e
    · subst hap
      rw [Function.update_self] at hself
      rw [hself] at hnext_mem
      have hmem := (List.mem_cons.mp hprev_mem).resolve_left (Nat.ne_of_gt ha)
      rcases List.mem_append.mp hnext_mem with hmem' | hmem'
      · exact absurd rfl (hdisj _ hmem _ (List.mem_cons_of_mem e hmem'))
      · exact absurd (List.mem_singleton.mp hmem') (Nat.ne_of_gt ha)
    · rwa [Function.update_of_ne hap] at hself

/-- **`LRU_Append`.** -/
theorem lruAppend_spec (hring : Ring c.next c.prev 0 order) (hnodup : (0 :: order).Nodup)
    (hlive : ∀ a ∈ 0 :: order, c.live a = true) (he : e ∉ 0 :: order) (helive : c.live e = true) :
    ∃ next' prev', c.lruAppend e = some { c with next := next', prev := prev' } ∧
      Ring next' prev' 0 (order ++ [e]) ∧
      ∀ a, 0 < a → next' a = a → a ≠ e ∧ c.next a = a := by
  have hprev_mem : c.prev 0 ∈ 0 :: order := hring.head_links.2 ▸ List.getLast_mem _
  have hne : e ≠ c.prev 0 := fun heq => he (heq ▸ hprev_mem)
  have hzero : e ≠ 0 := fun heq => he (heq ▸ List.mem_cons_self)
  refine ⟨_, _, ?_, hring.append hnodup he, fun a ha hself => ?_⟩
  · simp only [lruAppend, Function.update_self]
    rw [if_pos ⟨helive, hlive _ hprev_mem⟩, Function.update_of_ne hne, Function.update_self]
  · by_cases hap : a = c.prev 0
    · rw [hap, Function.update_self] at hself
      exact absurd hself hne
    · rw [Function.update_of_ne hap] at hself
      by_cases hae : a = e
      · rw [hae, Function.update_self] at hself
        exact absurd hself.symm hzero
      · rw [Function.update_of_ne hae] at hself
        exact ⟨hae, hself⟩

/-! ### The invariant -/

/-- A cache that lists the entries `order`, oldest first, with handles `pins` in other hands. -/
structure Inv (hash : Bytes → ℕ) (c : LRUCache) (order pins : List ℕ) : Prop where
  counts : Counts c (pins ++ order)
  ring : Ring c.next c.prev 0 order
  table : Table hash c order

namespace Inv

theorem zero_notMem (h : Inv hash c order pins) : 0 ∉ order := fun hmem =>
  Nat.lt_irrefl 0 (h.counts.alloc 0 (List.mem_append_right pins hmem)).1

theorem nodup (h : Inv hash c order pins) : (0 :: order).Nodup :=
  List.nodup_cons.mpr ⟨h.zero_notMem, h.table.nodup⟩

theorem live (h : Inv hash c order pins) : ∀ a ∈ 0 :: order, c.live a = true := by
  intro a ha
  rcases List.mem_cons.mp ha with rfl | ha
  · exact h.counts.head
  · exact h.counts.live_of_mem (List.mem_append_right pins ha)

theorem accessible (h : Inv hash c order pins) : Accessible c order :=
  h.counts.accessible fun _ he => List.mem_append_right pins he

theorem length_lt (h : Inv hash c order pins) : order.length < c.fresh := by
  have hsub : order.toFinset ⊆ Finset.Ico 1 c.fresh := by
    intro e he
    exact h.counts.subset_Ico (List.mem_toFinset.mpr
      (List.mem_append_right pins (List.mem_toFinset.mp he)))
  have hcard := Finset.card_le_card hsub
  rw [List.toFinset_card_of_nodup h.table.nodup, Nat.card_Ico] at hcard
  have hfresh := h.counts.fresh
  omega

/-- **`Unref`**, of a handle. -/
theorem unref (h : Inv hash c order (e :: pins)) :
    ∃ c', c.unref e = some c' ∧ Inv hash c' order pins ∧ Keeps c c' := by
  obtain ⟨refs', usage', deleted', live', hunref, hcounts⟩ := h.counts.unref
  exact ⟨_, hunref, ⟨hcounts, h.ring, h.table.congr rfl rfl rfl rfl⟩, ⟨rfl, rfl, rfl⟩⟩

theorem release (h : Inv hash c order pins) (he : e ∈ pins) :
    ∃ c', c.release e = some c' ∧ Inv hash c' order (pins.erase e) ∧ Keeps c c' := by
  have hperm : (pins ++ order).Perm (e :: pins.erase e ++ order) :=
    (List.perm_cons_erase he).append_right order
  exact unref ⟨h.counts.perm hperm, h.ring, h.table⟩

/-- The reference of the list becomes a handle when an entry is taken out of the cache. -/
theorem detach (h : Inv hash c order pins) (he : e ∈ order) {next' prev' : ℕ → ℕ}
    {list' : List (Option ℕ)} {nextHash' : ℕ → Option ℕ} {elems' : ℕ}
    (hring : Ring next' prev' 0 (order.erase e)) (hself : ∀ a, 0 < a → next' a = a → c.next a = a)
    (htable : Table hash { c with
      next := next', prev := prev', list := list', nextHash := nextHash', elems := elems' }
      (order.erase e)) :
    Inv hash { c with
      next := next', prev := prev', list := list', nextHash := nextHash', elems := elems' }
      (order.erase e) (e :: pins) := by
  have hperm : (pins ++ order).Perm (e :: pins ++ order.erase e) :=
    ((List.perm_cons_erase he).append_left pins).trans List.perm_middle
  have hcounts := h.counts.perm hperm
  refine ⟨⟨hcounts.fresh, hcounts.head, hcounts.live, hcounts.alloc, hcounts.refs, ?_,
    hcounts.usage, hcounts.charges, hcounts.once, hcounts.calls⟩, hring, htable⟩
  intro a ha heq
  exact hcounts.noSelf a ha (hself a (hcounts.alloc a ha).1 heq)

/-- What is left when the entry with the key of `e` is removed from the table. -/
theorem rest_perm (h : Table hash c order) {e' : ℕ} (he : e ∈ order)
    (hperm : order.Perm (e' :: rest)) (hkey : (c.entry e').key = (c.entry e).key) :
    e' = e ∧ rest.Perm (order.erase e) := by
  obtain rfl : e' = e := h.eq_of_key (hperm.symm.subset List.mem_cons_self) he hkey
  exact ⟨rfl, (hperm.symm.trans (List.perm_cons_erase he)).cons_inv⟩

/-- The entries under other keys than that of `e`. -/
theorem others_eq_erase (h : Table hash c order) (he : e ∈ order) {k : Bytes}
    (hk : (c.entry e).key = k) :
    Lru.State.others k (order.map c.item) = (order.erase e).map c.item := by
  have hfilter : order.filter (fun a => (c.entry a).key ≠ k) = order.filter (· != e) := by
    refine List.filter_congr fun a ha => ?_
    have hiff : (c.entry a).key ≠ k ↔ a ≠ e := by
      rw [← hk]
      exact ⟨fun hne heq => hne (by rw [heq]), fun hne hkey => hne (h.eq_of_key ha he hkey)⟩
    rw [Bool.eq_iff_iff]
    simpa using hiff
  rw [Lru.State.others, List.filter_map, h.nodup.erase_eq_filter, ← hfilter]
  rfl

/-- No entry goes if none has the key. -/
theorem others_eq_self {k : Bytes} (hk : ∀ e ∈ order, (c.entry e).key ≠ k) :
    Lru.State.others k (order.map c.item) = order.map c.item := by
  refine List.filter_eq_self.mpr fun x hx => ?_
  obtain ⟨e, he, rfl⟩ := List.mem_map.mp hx
  exact decide_eq_true (hk e he)

/-- `Erase`: out of the table, then out of the list. -/
theorem erase (h : Inv hash c order pins) (k : Bytes) :
    ∃ c' order', c.erase k (hash k) = some c' ∧ Inv hash c' order' pins ∧ Keeps c c' ∧
      order'.map c.item = Lru.State.others k (order.map c.item) := by
  rcases h.table.remove h.accessible h.length_lt.le k with
    ⟨e, rest, list', nextHash', hperm, hk, hremove, htable⟩ | ⟨hremove, hnone⟩
  · have he : e ∈ order := hperm.symm.subset List.mem_cons_self
    have hrest := (rest_perm h.table he hperm rfl).2
    obtain ⟨next', prev', hlru, hring, hself⟩ := lruRemove_spec
      (c := { c with list := list', nextHash := nextHash', elems := rest.length })
      h.ring h.nodup h.live he
    have htable' : Table hash { c with
        next := next', prev := prev', list := list', nextHash := nextHash', elems := rest.length }
        (order.erase e) := (htable.perm hrest).congr rfl rfl rfl rfl
    obtain ⟨c', hunref, hinv', hkeeps⟩ := (h.detach he hring hself htable').unref
    refine ⟨c', order.erase e, ?_, hinv', ⟨hkeeps.capacity_eq, hkeeps.entry_eq, hkeeps.fresh_eq⟩,
      (others_eq_erase h.table he hk).symm⟩
    rw [LRUCache.erase, hremove, Option.bind_eq_bind, Option.bind_some]
    simp only [hlru, Option.bind_eq_bind, Option.bind_some, hunref]
  · refine ⟨c, order, ?_, h, ⟨rfl, rfl, rfl⟩, (others_eq_self hnone).symm⟩
    rw [LRUCache.erase, hremove]
    rfl

/-- What is in use is the charge of what is listed and of what is held. -/
theorem usage_eq (h : Inv hash c order pins) (hb : c.Bounded) :
    c.usage = Lru.total (pins.map c.item ++ order.map c.item) := by
  rw [← List.map_append, total_map_item]
  exact h.counts.usage_of_bounded hb

/-- The loop that evicts ends with little enough in use or with an empty list. What is left is what
the map is left with, provided that what is in use is not counted wrongly. -/
theorem evictLoop (h : Inv hash c order pins) {fuel : ℕ} (hfuel : order.length < fuel) :
    ∃ c' order', evictLoop fuel c = some c' ∧ Inv hash c' order' pins ∧
      (c'.usage ≤ c'.capacity ∨ order' = []) ∧ Keeps c c' ∧ order' <:+ order ∧
      (c.Bounded →
        order'.map c.item = Lru.evict c.capacity (pins.map c.item) (order.map c.item)) := by
  induction order generalizing c fuel with
  | nil =>
    obtain ⟨fuel, rfl⟩ := Nat.exists_eq_add_of_lt hfuel
    have hempty : c.next 0 = 0 := (Ring.nil_iff.mp h.ring).1
    refine ⟨c, [], ?_, h, Or.inr rfl, ⟨rfl, rfl, rfl⟩, List.suffix_refl _, fun _ => rfl⟩
    rw [LRUCache.evictLoop, if_neg (by simp [hempty])]
  | cons old order ih =>
    obtain ⟨fuel, rfl⟩ : ∃ n, fuel = n + 1 := ⟨fuel - 1, by omega⟩
    have hnext : c.next 0 = old := h.ring.head_links.1
    have hne : old ≠ 0 := fun heq => h.zero_notMem (heq ▸ List.mem_cons_self)
    have husage (hb : c.Bounded) :
        Lru.total (pins.map c.item ++ c.item old :: order.map c.item) = c.usage :=
      (h.usage_eq hb).symm
    by_cases hover : c.capacity < c.usage
    · obtain ⟨next', prev', hlru, hring, hself⟩ :=
        lruRemove_spec h.ring h.nodup h.live (List.mem_cons_self (a := old))
      have hacc : Accessible { c with next := next', prev := prev' } (old :: order) := by
        intro a ha
        have hmem : a ∈ pins ++ old :: order := List.mem_append_right pins ha
        exact ⟨(h.accessible a ha).1, fun heq =>
          (h.accessible a ha).2 (hself a (h.counts.alloc a hmem).1 heq)⟩
      have htable₀ : Table hash { c with next := next', prev := prev' } (old :: order) :=
        h.table.congr rfl rfl rfl rfl
      have hkey : ({ c with next := next', prev := prev' } : LRUCache).key old
          = some (c.entry old).key := hacc.key_eq List.mem_cons_self
      have hhash : (c.entry old).hash = hash (c.entry old).key :=
        h.table.hashes old List.mem_cons_self
      rcases htable₀.remove hacc h.length_lt.le (c.entry old).key with
        ⟨e, rest, list', nextHash', hperm, hk, hremove, htable⟩ | ⟨-, hnone⟩
      · obtain ⟨rfl, hrest⟩ := rest_perm htable₀ List.mem_cons_self hperm hk
        obtain ⟨c₁, hunref, hinv, hkeeps₁⟩ :=
          (h.detach List.mem_cons_self hring hself (htable.perm hrest)).unref
        have hkeeps : Keeps c c₁ := ⟨hkeeps₁.capacity_eq, hkeeps₁.entry_eq, hkeeps₁.fresh_eq⟩
        rw [List.erase_cons_head] at hinv
        obtain ⟨c', order', hloop, hinv', husage', hkeeps', hsuffix, hitems⟩ :=
          ih hinv (Nat.lt_of_succ_lt_succ hfuel)
        rw [hkeeps.item_eq, hkeeps.capacity_eq] at hitems
        refine ⟨c', order', ?_, hinv', husage', hkeeps.trans hkeeps',
          hsuffix.trans (List.suffix_cons _ _), fun hb => ?_⟩
        swap
        · rw [List.map_cons, Lru.evict, husage hb, if_pos hover, hitems (hkeeps.bounded hb)]
        rw [LRUCache.evictLoop, if_pos ⟨hover, by rwa [hnext]⟩]
        simp only [hnext, hlru, hkey, Option.bind_eq_bind, Option.bind_some, hhash, hremove, hunref]
        exact hloop
      · exact absurd rfl (hnone old List.mem_cons_self)
    · refine ⟨c, old :: order, ?_, h, Or.inl (Nat.le_of_not_lt hover), ⟨rfl, rfl, rfl⟩,
        List.suffix_refl _, fun hb => by
          rw [List.map_cons, Lru.evict, husage hb, if_neg hover]⟩
      rw [LRUCache.evictLoop, if_neg (by simp [hover])]

/-- `Lookup`. The count is kept as long as it fits in 32 bits. -/
theorem lookup (h : Inv hash c order pins) (k : Bytes) :
    (∃ e ∈ order, ∃ next' prev', c.tableLookup k (hash k) = some (some e) ∧ (c.entry e).key = k ∧
      c.lookup k (hash k) = some (some e, { c with
        refs := update c.refs e ((c.refs e + 1) % 2 ^ 32), next := next', prev := prev' }) ∧
      (pins.count e + 2 < 2 ^ 32 → Inv hash { c with
        refs := update c.refs e ((c.refs e + 1) % 2 ^ 32), next := next', prev := prev' }
        (order.erase e ++ [e]) (e :: pins))) ∨
    c.lookup k (hash k) = some (none, c) ∧ ∀ e ∈ order, (c.entry e).key ≠ k := by
  obtain ⟨r, hlookup, hsome, hnone⟩ := h.table.lookup h.accessible h.length_lt.le k
  cases r with
  | none =>
    right
    refine ⟨?_, hnone rfl⟩
    rw [LRUCache.lookup, hlookup]
    rfl
  | some e =>
    left
    obtain ⟨he, hk⟩ := hsome e rfl
    obtain ⟨next₁, prev₁, hremove, hring₁, hself₁⟩ := lruRemove_spec
      (c := { c with refs := update c.refs e ((c.refs e + 1) % 2 ^ 32) }) h.ring h.nodup h.live he
    have hnodup : (0 :: order.erase e).Nodup :=
      h.nodup.sublist (List.cons_sublist_cons.mpr List.erase_sublist)
    have hnot : e ∉ 0 :: order.erase e := by
      rw [List.mem_cons, not_or]
      exact ⟨fun heq => h.zero_notMem (heq ▸ he), h.table.nodup.not_mem_erase⟩
    have hlive : ∀ a ∈ 0 :: order.erase e, c.live a = true := fun a ha =>
      h.live a (List.Sublist.subset (List.cons_sublist_cons.mpr List.erase_sublist) ha)
    obtain ⟨next', prev', happend, hring, hself⟩ := lruAppend_spec (c := { c with
        refs := update c.refs e ((c.refs e + 1) % 2 ^ 32), next := next₁, prev := prev₁ })
      hring₁ hnodup hlive hnot (h.live e (List.mem_cons_of_mem 0 he))
    refine ⟨e, he, next', prev', hlookup, hk, ?_, fun hfew => ?_⟩
    · rw [LRUCache.lookup, hlookup, Option.bind_eq_bind, Option.bind_some]
      simp only [hremove, happend, Option.bind_eq_bind, Option.bind_some]
    · have hmoved : (order.erase e ++ [e]).Perm order :=
        (List.perm_append_singleton e _).trans (List.perm_cons_erase he).symm
      refine ⟨?_, hring, (h.table.perm hmoved.symm).congr rfl rfl rfl rfl⟩
      have hperm : (e :: (pins ++ order)).Perm (e :: pins ++ (order.erase e ++ [e])) :=
        (hmoved.symm.append_left pins).cons e
      have hcount : (pins ++ order).count e + 1 < 2 ^ 32 := by
        rw [List.count_append, List.count_eq_one_of_mem h.table.nodup he]
        exact hfew
      refine (h.counts.ref (List.mem_append_right pins he) hcount fun a ha heq => ?_).perm hperm
      have hpos := (h.counts.alloc a ha).1
      exact h.counts.noSelf a ha (hself₁ a hpos (hself a hpos heq).2)

/-- A new handle at the end of the list, not yet in the table. -/
theorem append_fresh (h : Inv hash c order pins) {x : LRUEntry} {usage' : ℕ}
    (hx : x.charge < 2 ^ 64) (husage : (c.usage + x.charge) % 2 ^ 64 = usage') :
    ∃ next' prev',
      ({ c with
        fresh := c.fresh + 1, live := update c.live c.fresh true,
        entry := update c.entry c.fresh x,
        refs := update c.refs c.fresh 2 } : LRUCache).lruAppend c.fresh = some { c with
          fresh := c.fresh + 1, live := update c.live c.fresh true,
          entry := update c.entry c.fresh x,
          refs := update c.refs c.fresh 2, next := next', prev := prev' } ∧
      Ring next' prev' 0 (order ++ [c.fresh]) ∧
      Counts { c with
        fresh := c.fresh + 1, live := update c.live c.fresh true,
        entry := update c.entry c.fresh x, refs := update c.refs c.fresh 2, next := next',
        prev := prev', usage := usage' } (c.fresh :: c.fresh :: (pins ++ order)) := by
  have hfresh : c.fresh ∉ 0 :: order := by
    intro hmem
    rcases List.mem_cons.mp hmem with heq | hmem
    · exact absurd heq (Nat.ne_of_gt h.counts.fresh)
    · exact Nat.lt_irrefl _ (h.counts.alloc _ (List.mem_append_right pins hmem)).2
  have hlive : ∀ a ∈ 0 :: order, update c.live c.fresh true a = true := by
    intro a ha
    have hne : a ≠ c.fresh := by
      rintro rfl
      exact hfresh ha
    rw [Function.update_of_ne hne]
    exact h.live a ha
  obtain ⟨next', prev', happend, hring, hself⟩ := lruAppend_spec (c := { c with
      fresh := c.fresh + 1, live := update c.live c.fresh true, entry := update c.entry c.fresh x,
      refs := update c.refs c.fresh 2 }) h.ring h.nodup hlive hfresh (Function.update_self ..)
  refine ⟨next', prev', happend, hring, h.counts.alloc_fresh hx husage fun a ha heq => ?_⟩
  rcases List.mem_cons.mp ha with rfl | ha
  · exact (hself _ h.counts.fresh heq).1 rfl
  · exact h.counts.noSelf a ha (hself a (h.counts.alloc a ha).1 heq).2

/-- The middle of `Insert`: the new handle goes into the table, and the entry it replaces goes. -/
theorem link_fresh (hcounts : Counts c (e :: e :: (pins ++ order)))
    (hring : Ring c.next c.prev 0 (order ++ [e])) (htable : Table hash c order) (he : e ∉ order)
    (hhash : (c.entry e).hash = hash (c.entry e).key) (hfuel : order.length < c.fresh)
    (hfew : order.length < 2 ^ 31) :
    ∃ old c₁ c' order', c.tableInsert e = some (old, c₁) ∧
      (match old with
        | none => some c₁
        | some old => do (← c₁.lruRemove old).unref old) = some c' ∧
      Inv hash c' order' (e :: pins) ∧ Keeps c c' ∧
      order'.map c.item
        = Lru.State.others (c.entry e).key (order.map c.item) ++ [c.item e] := by
  have hmem : ∀ a ∈ e :: order, a ∈ e :: e :: (pins ++ order) := by
    intro a ha
    rcases List.mem_cons.mp ha with rfl | ha
    · exact List.mem_cons_self
    · exact List.mem_cons_of_mem e (List.mem_cons_of_mem e (List.mem_append_right pins ha))
  have hzero : 0 ∉ e :: order := fun h0 => Nat.lt_irrefl 0 (hcounts.alloc 0 (hmem 0 h0)).1
  have hswap : (e :: order).Perm (order ++ [e]) := (List.perm_append_singleton e order).symm
  have hperm : (e :: e :: (pins ++ order)).Perm (e :: pins ++ (order ++ [e])) :=
    (List.perm_middle.symm.trans (hswap.append_left pins)).cons e
  rcases htable.insert (hcounts.accessible hmem) hfuel he hhash hfew with
    ⟨old, rest, list', nextHash', hold, hkey, hinsert, htable'⟩ |
      ⟨list', nextHash', hnone, hinsert, htable'⟩
  · have holdmem : old ∈ order ++ [e] :=
      List.mem_append_left [e] (hold.symm.subset List.mem_cons_self)
    have hlive : ∀ a ∈ 0 :: (order ++ [e]), c.live a = true := by
      intro a ha
      rcases List.mem_cons.mp ha with rfl | ha
      · exact hcounts.head
      · exact hcounts.live_of_mem (hmem a (hswap.symm.subset ha))
    have hnodup : (0 :: (order ++ [e])).Nodup := by
      refine List.nodup_cons.mpr ⟨fun h0 => hzero (hswap.symm.subset h0), ?_⟩
      exact hswap.nodup_iff.mp (List.nodup_cons.mpr ⟨he, htable.nodup⟩)
    obtain ⟨next', prev', hlru, hring', hself⟩ := lruRemove_spec
      (c := { c with list := list', nextHash := nextHash' }) hring hnodup hlive holdmem
    have hrest : (e :: rest).Perm ((order ++ [e]).erase old) := by
      have h1 : (old :: e :: rest).Perm (old :: (order ++ [e]).erase old) :=
        ((List.Perm.swap e old rest).trans (hold.symm.cons e)).trans
          (hswap.trans (List.perm_cons_erase holdmem))
      exact h1.cons_inv
    have hcounts' := hcounts.perm (hperm.trans
      (((List.perm_cons_erase holdmem).append_left (e :: pins)).trans List.perm_middle))
    have hinv : Inv hash { c with
        list := list', nextHash := nextHash', next := next', prev := prev' }
        ((order ++ [e]).erase old) (old :: e :: pins) := by
      refine ⟨⟨hcounts'.fresh, hcounts'.head, hcounts'.live, hcounts'.alloc, hcounts'.refs,
        fun a ha heq => ?_, hcounts'.usage, hcounts'.charges, hcounts'.once, hcounts'.calls⟩,
        hring', (htable'.perm hrest).congr rfl rfl rfl rfl⟩
      exact hcounts'.noSelf a ha (hself a (hcounts'.alloc a ha).1 heq)
    obtain ⟨c', hunref, hinv', hkeeps⟩ := hinv.unref
    have holdorder : old ∈ order := hold.symm.subset List.mem_cons_self
    refine ⟨some old, _, c', _, hinsert, ?_, hinv',
      ⟨hkeeps.capacity_eq, hkeeps.entry_eq, hkeeps.fresh_eq⟩, ?_⟩
    · simp only [hlru, Option.bind_eq_bind, Option.bind_some, hunref]
    · rw [others_eq_erase htable holdorder hkey, List.erase_append_left _ holdorder,
        List.map_append]
      rfl
  · refine ⟨none, _, _, order ++ [e], hinsert, rfl, ⟨?_, hring, htable'.perm hswap⟩,
      ⟨rfl, rfl, rfl⟩, by rw [others_eq_self hnone, List.map_append]; rfl⟩
    have hcounts' := hcounts.perm hperm
    exact ⟨hcounts'.fresh, hcounts'.head, hcounts'.live, hcounts'.alloc, hcounts'.refs,
      hcounts'.noSelf, hcounts'.usage, hcounts'.charges, hcounts'.once, hcounts'.calls⟩

/-- **`Insert`.** Too much is in use afterwards only if nothing is left to evict. -/
theorem insert (h : Inv hash c order pins) (k : Bytes) (value charge deleter : ℕ)
    (hcharge : charge < 2 ^ 64) (hfew : order.length < 2 ^ 31) :
    ∃ c' order', c.insert k (hash k) value charge deleter = some (c.fresh, c') ∧
      Inv hash c' order' (c.fresh :: pins) ∧ (c'.usage ≤ c'.capacity ∨ order' = []) ∧
      c'.capacity = c.capacity ∧ c'.fresh = c.fresh + 1 ∧
      c'.entry = update c.entry c.fresh ⟨value, deleter, charge, k, hash k⟩ ∧
      (c.fresh :: pins).map c'.item = ⟨c.fresh, k, value, charge⟩ :: pins.map c.item ∧
      (∀ e ∈ order', e = c.fresh ∨ e ∈ order) ∧
      (c'.Bounded →
        order'.map c'.item = Lru.evict c.capacity (⟨c.fresh, k, value, charge⟩ :: pins.map c.item)
          (Lru.State.others k (order.map c.item) ++ [⟨c.fresh, k, value, charge⟩])) := by
  obtain ⟨usage', husage'⟩ : ∃ usage', (c.usage + charge) % 2 ^ 64 = usage' := ⟨_, rfl⟩
  obtain ⟨next', prev', happend, hring, hcounts⟩ :=
    h.append_fresh (x := ⟨value, deleter, charge, k, hash k⟩) hcharge husage'
  have hnot : c.fresh ∉ order := fun hmem =>
    Nat.lt_irrefl _ (h.counts.alloc _ (List.mem_append_right pins hmem)).2
  have htable : Table hash { c with
      fresh := c.fresh + 1, live := update c.live c.fresh true,
      entry := update c.entry c.fresh ⟨value, deleter, charge, k, hash k⟩,
      refs := update c.refs c.fresh 2, next := next', prev := prev',
      usage := usage' } order := h.table.write_entry hnot _ rfl rfl rfl rfl
  obtain ⟨old, c₁, c₂, order₂, hinsert, hold, hinv, hkeeps, hitems⟩ :=
    link_fresh hcounts hring htable hnot (by simp) (Nat.lt_succ_of_lt h.length_lt) hfew
  obtain ⟨c', order', hevict, hinv', husage, hkeeps', hsuffix, hitems'⟩ :=
    hinv.evictLoop hinv.length_lt
  have hentry : c₂.entry = update c.entry c.fresh ⟨value, deleter, charge, k, hash k⟩ :=
    hkeeps.entry_eq
  have hsame : ∀ a, a ∈ pins ++ order → c₂.item a = c.item a := by
    intro a ha
    rw [item, item, LRUCache.charge, LRUCache.charge, hentry,
      Function.update_of_ne (Nat.ne_of_lt (h.counts.alloc a ha).2)]
  have hnew : c₂.item c.fresh = ⟨c.fresh, k, value, charge⟩ := by
    rw [item, LRUCache.charge, hentry, Function.update_self]
  have horder : order.map c₂.item = order.map c.item :=
    List.map_congr_left fun a ha => hsame a (List.mem_append_right pins ha)
  have hpins : pins.map c₂.item = pins.map c.item :=
    List.map_congr_left fun a ha => hsame a (List.mem_append_left order ha)
  rw [← hkeeps.item_eq, horder, hnew] at hitems
  dsimp only at hitems
  rw [Function.update_self] at hitems
  rw [hitems, List.map_cons, hnew, hpins, hkeeps.capacity_eq] at hitems'
  refine ⟨c', order', ?_, hinv', husage, hkeeps'.capacity_eq.trans hkeeps.capacity_eq,
    hkeeps'.fresh_eq.trans hkeeps.fresh_eq, hkeeps'.entry_eq.trans hentry,
    by rw [hkeeps'.item_eq, List.map_cons, hnew, hpins], fun e he => ?_, fun hb => ?_⟩
  rotate_left
  · -- an entry that is left is one of those there were, or the new one
    have hitem : c₂.item e ∈ order₂.map c₂.item := List.mem_map_of_mem (hsuffix.subset he)
    rw [hitems] at hitem
    rcases List.mem_append.mp hitem with hitem | hitem
    · obtain ⟨a, ha, heq⟩ := List.mem_map.mp (List.mem_of_mem_filter hitem)
      have hid : a = e := congrArg Lru.Item.id heq
      exact Or.inr (hid ▸ ha)
    · exact .inl (congrArg Lru.Item.id (List.mem_singleton.mp hitem))
  · rw [hkeeps'.item_eq]
    exact hitems' (by rwa [Bounded, ← hkeeps'.sum_charge])
  rw [LRUCache.insert]
  simp only [happend, husage', Option.bind_eq_bind, Option.bind_some, hinsert]
  cases old with
  | none =>
    obtain rfl : c₁ = c₂ := Option.some.inj hold
    simp only [hevict, Option.bind_some]
  | some old =>
    simp only [Option.bind_eq_bind] at hold
    simp only
    rw [← Option.bind_assoc, hold, Option.bind_some, hevict, Option.bind_some]

end Inv

/-! ### Destruction -/

/-- The destructor's loop, over what is left of the list. -/
theorem Counts.destroyLoop {l : List ℕ} (h : Counts c l) (hl : l.Nodup)
    (hchain : (l ++ [0]).IsChain (Joined c.next c.prev)) {fuel : ℕ} (hfuel : l.length < fuel) :
    ∃ c', destroyLoop fuel c ((l ++ [0]).head (by simp)) = some c' ∧ Counts c' [] ∧
      Keeps c c' ∧ c'.deleted = c.deleted ++ l.map c.deletion := by
  induction l generalizing c fuel with
  | nil =>
    obtain ⟨fuel, rfl⟩ := Nat.exists_eq_add_of_lt hfuel
    exact ⟨c, rfl, h, ⟨rfl, rfl, rfl⟩, (List.append_nil _).symm⟩
  | cons e l ih =>
    obtain ⟨fuel, rfl⟩ : ∃ n, fuel = n + 1 := ⟨fuel - 1, by omega⟩
    obtain ⟨hel, hl'⟩ := List.nodup_cons.mp hl
    have hne : e ≠ 0 := Nat.ne_of_gt (h.alloc e List.mem_cons_self).1
    have hrefs : c.refs e = 1 := by rw [h.refs_cons, List.count_eq_zero_of_not_mem hel]
    have hnext : c.next e = (l ++ [0]).head (by simp) := by
      cases l with
      | nil => exact (List.isChain_cons_cons.mp hchain).1.1
      | cons a l => exact (List.isChain_cons_cons.mp hchain).1.1
    obtain ⟨usage', hunref, hcounts⟩ := h.unref_of_notMem hel
    obtain ⟨c', hloop, hcounts', hkeeps, hdeleted⟩ :=
      ih hcounts hl' hchain.tail (Nat.lt_of_succ_lt_succ hfuel)
    refine ⟨c', ?_, hcounts', ⟨hkeeps.capacity_eq, hkeeps.entry_eq, hkeeps.fresh_eq⟩, ?_⟩
    · simp only [List.cons_append, List.head_cons]
      rw [LRUCache.destroyLoop, if_neg hne, if_pos hrefs, hunref, hnext]
      exact hloop
    · rw [hdeleted, List.append_assoc, List.map_cons]
      rfl

/-- **The destructor**, when no handle is left. -/
theorem Inv.destroy (h : Inv hash c order []) :
    ∃ c', c.destroy = some c' ∧ Counts c' [] ∧ Keeps c c' ∧
      c'.deleted = c.deleted ++ order.map c.deletion := by
  obtain ⟨c', hloop, hrest⟩ :=
    h.counts.destroyLoop h.table.nodup (List.IsChain.tail h.ring) h.length_lt
  refine ⟨c', ?_, hrest⟩
  rw [LRUCache.destroy, h.ring.head_links.1]
  exact hloop

theorem bounded_new (capacity : ℕ) : (new capacity).Bounded := by
  rw [Bounded, show (new capacity).fresh = 1 from rfl, Finset.Ico_self, Finset.sum_empty]
  exact Nat.two_pow_pos 64

theorem inv_new (hash : Bytes → ℕ) (capacity : ℕ) : Inv hash (new capacity) [] [] where
  counts := by
    refine ⟨Nat.one_pos, rfl, fun e he => ?_, by simp, fun e he hlt => ?_, by simp, rfl, ?_,
      fun e => ?_, by simp [new]⟩
    · simp [new, Nat.ne_of_gt he]
    · exact absurd hlt (Nat.not_lt.mpr he)
    · simp [new]
    · rw [if_neg (by simp only [new]; omega)]
      rfl
  ring := Ring.nil_iff.mpr ⟨rfl, rfl⟩
  table := by
    refine ⟨fun i hi => ⟨[], ?_, List.Perm.refl _⟩, ⟨2, le_rfl, by decide, rfl⟩, rfl,
      List.nodup_nil, by simp, Nat.zero_le _⟩
    exact List.getD_replicate none hi

end LRUCache

end Squirrel
