import Squirrel.Table.BlockCursor

/-!
# From block builders to block iterators

What a builder holds (`Holds`) is all that matters to those who read its block. With one restart
interval for all entries, it is also known where the restart points are: `Regular` says that there
is one at each multiple of the interval, and how many entries have come since the last.

## Main results

* `BlockBuilder.Holds.behaves` — the iterator of a block is a cursor on what the builder held
* `BlockBuilder.addAll_finish` — the round trip of a block
-/

namespace Squirrel

open Coding

namespace BlockBuilder

/-! ### Blocks and what they hold -/

/-- The builder holds these entries. -/
def Holds (b : BlockBuilder) (entries : List (Bytes × Bytes)) : Prop :=
  ∃ items points, Encodes b items points ∧ entries = items.map Item.pair

variable {b : BlockBuilder} {entries : List (Bytes × Bytes)} {items : List Item} {points : List ℕ}

theorem holds_reset : reset.Holds [] := ⟨[], [0], encodes_reset, rfl⟩

theorem Holds.empty_iff (h : b.Holds entries) : b.empty = true ↔ entries = [] := by
  obtain ⟨items, points, henc, rfl⟩ := h
  rw [henc.empty_iff, List.map_eq_nil_iff]

theorem Holds.lastKey_eq (h : b.Holds entries) {a : Bytes × Bytes}
    (ha : entries.getLast? = some a) :
    b.lastKey = a.1 := by
  obtain ⟨items, points, henc, rfl⟩ := h
  rw [List.getLast?_map] at ha
  obtain ⟨x, hx, rfl⟩ := Option.map_eq_some_iff.mp ha
  rw [henc.lastKey_eq, prevKey, List.take_length, hx]
  rfl

theorem Holds.add (h : b.Holds entries) (cmp : Bytes → Bytes → Ordering) {interval : ℕ}
    (key value : Bytes) (hinterval : 1 ≤ interval) (hcounter : b.counter ≤ interval)
    (hkey : ∀ a, entries.getLast? = some a → cmp key a.1 = .gt) :
    ∃ b', b.add cmp interval key value = some b' ∧ b'.Holds (entries ++ [(key, value)]) ∧
      b'.counter ≤ interval := by
  have hlast : ∀ a, entries.getLast? = some a → b.lastKey = a.1 := fun a ha => h.lastKey_eq ha
  obtain ⟨items, points, henc, rfl⟩ := h
  have hkey' : items = [] ∨ cmp key b.lastKey = .gt := by
    cases hl : (items.map Item.pair).getLast? with
    | none => exact .inl (List.map_eq_nil_iff.mp (List.getLast?_eq_none_iff.mp hl))
    | some a => exact .inr (hlast a hl ▸ hkey a hl)
  obtain ⟨b', shared, hadd, henc', hcount⟩ := henc.add value hinterval hcounter hkey'
  refine ⟨b', hadd, ⟨_, _, henc', by rw [List.map_append]; rfl⟩, ?_⟩
  rw [hcount]
  split <;> omega

/-- A key is not longer than what has been written up to it: what it shares with the key before has
been written there. -/
theorem Encodes.length_key_le (h : Encodes b items points) {i : ℕ} {x : Item}
    (hx : items[i]? = some x) : x.key.length ≤ itemOffset items (i + 1) := by
  induction i generalizing x with
  | zero =>
    obtain ⟨hle, -⟩ := h.shared_eq 0 x hx
    rw [prevKey, List.take_zero] at hle
    have hzero : x.shared = 0 := Nat.le_zero.mp hle
    rw [itemOffset, List.take_add_one, hx]
    simp [encodeItems, Item.encode, hzero]
    omega
  | succ i ih =>
    have hi : i < items.length := Nat.lt_of_succ_lt (List.getElem?_eq_some_iff.mp hx).1
    have hprev := ih (List.getElem?_eq_getElem hi)
    obtain ⟨hle, -⟩ := h.shared_eq (i + 1) x hx
    rw [prevKey_succ (List.getElem?_eq_getElem hi)] at hle
    have hoff : itemOffset items (i + 1 + 1)
        = itemOffset items (i + 1)
          + (x.header.length + ((x.key.length - x.shared) + x.value.length))
        := by
      rw [itemOffset, List.take_add_one, hx, encodeItems_append, List.length_append, ← itemOffset]
      simp [encodeItems, Item.encode]
    omega

/-- Each entry has its three lengths. -/
theorem length_le_encodeItems (items : List Item) :
    3 * items.length ≤ (encodeItems items).length := by
  induction items with
  | nil => exact Nat.zero_le _
  | cons x items ih =>
    have hx := x.length_header
    rw [encodeItems, List.map_cons, List.flatten_cons, List.length_append, List.length_cons,
      Item.encode, List.length_append]
    change 3 * (items.length + 1) ≤ _ + (encodeItems items).length
    omega

theorem Holds.length_le (h : b.Holds entries) : 3 * entries.length ≤ b.finish.1.length := by
  obtain ⟨items, points, henc, rfl⟩ := h
  have hle := length_le_encodeItems items
  rw [finish, henc.buffer_eq, List.length_append, List.length_map]
  exact Nat.le_trans hle (Nat.le_add_right _ _)

/-- The iterator of a finished block is a cursor on what the builder held. -/
theorem Holds.behaves {cmp : Bytes → Bytes → Ordering} [Std.TransCmp cmp] (h : b.Holds entries)
    (hlen : b.finish.1.length < 2 ^ 32)
    (hsorted : entries.Pairwise fun x y => cmp x.1 y.1 = .lt) :
    (Block.AnyIter.iterator cmp).BehavesWith (fun it => it.status = .success)
      (fun a k => cmp a.1 k = .lt) entries (Block.newIterator (.new b.finish.1)) none := by
  obtain ⟨items, points, henc, rfl⟩ := h
  refine henc.behaves hlen (fun x hx => ?_) (List.pairwise_map.mp hsorted)
  obtain ⟨i, hi⟩ := List.getElem?_of_mem hx
  have hkey := henc.length_key_le hi
  have hoff : itemOffset items (i + 1) ≤ (encodeItems items).length := by
    conv_rhs => rw [← List.take_append_drop (i + 1) items, encodeItems_append, List.length_append]
    exact Nat.le_add_right _ _
  rw [finish, henc.buffer_eq, List.length_append] at hlen
  omega

/-! ### Restart points -/

/-- The number of restart points that a block with `n` entries has. -/
def restartCount (interval n : ℕ) : ℕ := (n - 1) / interval + 1

/-- With the same interval for all entries, the restart points are its multiples. -/
structure Regular (interval : ℕ) (b : BlockBuilder) (items : List Item) (points : List ℕ) :
    Prop where
  points_eq : ∃ k, points = (List.range (k + 1)).map (· * interval) ∧
    items.length = k * interval + b.counter
  counter_le : b.counter ≤ interval
  counter_pos : items ≠ [] → 0 < b.counter

theorem regular_reset (interval : ℕ) : Regular interval reset [] [0] :=
  ⟨⟨0, by simp, by simp [reset]⟩, Nat.zero_le _, fun h => absurd rfl h⟩

theorem Regular.add {interval : ℕ} (h : Regular interval b items points) {b' : BlockBuilder}
    {x : Item} (hinterval : 1 ≤ interval)
    (hcounter : b'.counter = (if b.counter < interval then b.counter else 0) + 1) :
    Regular interval b' (items ++ [x])
      (points ++ if b.counter < interval then [] else [items.length]) := by
  obtain ⟨⟨k, hpoints, hlength⟩, hle, -⟩ := h
  by_cases hlt : b.counter < interval
  · refine ⟨⟨k, ?_, ?_⟩, ?_, fun _ => ?_⟩
    · rw [if_pos hlt, List.append_nil, hpoints]
    · rw [List.length_append, List.length_singleton, hcounter, if_pos hlt, hlength, Nat.add_assoc]
    · rw [if_pos hlt] at hcounter
      omega
    · omega
  · have heq : b.counter = interval := Nat.le_antisymm hle (Nat.le_of_not_lt hlt)
    have hnext : items.length = (k + 1) * interval := by rw [hlength, heq, Nat.succ_mul]
    refine ⟨⟨k + 1, ?_, ?_⟩, ?_, fun _ => ?_⟩
    · rw [if_neg hlt, List.range_succ, List.map_append, hpoints, hnext]
      rfl
    · rw [List.length_append, List.length_singleton, hcounter, if_neg hlt, hnext]
    · rw [if_neg hlt] at hcounter
      omega
    · omega

theorem Regular.points_eq_range {interval : ℕ} (h : Regular interval b items points)
    (hinterval : 1 ≤ interval) :
    points = (List.range (restartCount interval items.length)).map (· * interval) := by
  obtain ⟨⟨k, hpoints, hlength⟩, hle, hpos⟩ := h
  suffices hcount : (items.length - 1) / interval = k by rw [restartCount, hcount, hpoints]
  cases items with
  | nil =>
    rw [List.length_nil] at hlength ⊢
    have hzero : k * interval = 0 := by omega
    rcases Nat.mul_eq_zero.mp hzero with rfl | hz
    · exact Nat.zero_div _
    · omega
  | cons x items =>
    have hpos' := hpos (List.cons_ne_nil _ _)
    rw [hlength]
    have hsplit : k * interval + b.counter - 1 = (b.counter - 1) + interval * k := by
      rw [Nat.mul_comm]
      omega
    rw [hsplit, Nat.add_mul_div_left _ _ hinterval, Nat.div_eq_of_lt (by omega), Nat.zero_add]

/-- Some calls of `Add`. -/
def addAll (cmp : Bytes → Bytes → Ordering) (interval : ℕ) (b : BlockBuilder)
    (entries : List (Bytes × Bytes)) : Option BlockBuilder :=
  entries.foldlM (fun b a => b.add cmp interval a.1 a.2) b

/-- Calls of `Add` with one interval. -/
theorem Encodes.addAll {cmp : Bytes → Bytes → Ordering} [Std.TransCmp cmp] {interval : ℕ}
    (hinterval : 1 ≤ interval) {entries : List (Bytes × Bytes)} (h : Encodes b items points)
    (hregular : Regular interval b items points)
    (hsorted : (items.map Item.pair ++ entries).Pairwise fun x y => cmp x.1 y.1 = .lt) :
    ∃ b' items' points', b.addAll cmp interval entries = some b' ∧ Encodes b' items' points' ∧
      Regular interval b' items' points' ∧ items'.map Item.pair = items.map Item.pair
        ++ entries := by
  induction entries generalizing b items points with
  | nil => exact ⟨b, items, points, rfl, h, hregular, (List.append_nil _).symm⟩
  | cons a entries ih =>
    have hkey : items = [] ∨ cmp a.1 b.lastKey = .gt := by
      rcases List.eq_nil_or_concat items with rfl | ⟨front, x, rfl⟩
      · exact .inl rfl
      · right
        have hlast : b.lastKey = x.key := by
          rw [h.lastKey_eq, List.length_concat, prevKey_succ]
          rw [List.concat_eq_append, List.getElem?_concat_length]
        have hlt : cmp x.key a.1 = .lt := (List.pairwise_append.mp hsorted).2.2 x.pair
          (List.mem_map_of_mem (by simp)) a List.mem_cons_self
        rw [hlast]
        exact Std.OrientedCmp.gt_iff_lt.mpr hlt
    obtain ⟨b₁, shared, hadd, henc, hcounter⟩ := h.add a.2 hinterval hregular.counter_le hkey
    have hpairs : (items ++ [(⟨shared, a.1, a.2⟩ : Item)]).map Item.pair ++ entries
        = items.map Item.pair ++ (a :: entries) := by simp [Item.pair]
    obtain ⟨b', items', points', hall, henc', hregular', hentries⟩ :=
      ih henc (hregular.add hinterval hcounter) (hpairs ▸ hsorted)
    refine ⟨b', items', points', ?_, henc', hregular', hentries.trans hpairs⟩
    rw [BlockBuilder.addAll, List.foldlM_cons, hadd]
    exact hall

theorem length_trailer (restarts : List ℕ) :
    (trailer restarts).length = restarts.length * 4 + 4 := by
  rw [trailer, List.length_append, length_flatten_encodeFixed32, length_encodeFixed32]

/-- **The round trip of a block.** -/
theorem addAll_finish {cmp : Bytes → Bytes → Ordering} [Std.TransCmp cmp] {interval : ℕ}
    (hinterval : 1 ≤ interval) {b : BlockBuilder}
    (hb : BlockBuilder.new interval = some b ∨ ∃ used : BlockBuilder, b = used.resetUsed)
    {entries : List (Bytes × Bytes)} (hsorted : entries.Pairwise fun x y => cmp x.1 y.1 = .lt) :
    ∃ b' items, b.addAll cmp interval entries = some b' ∧
      b'.currentSizeEstimate = b'.finish.1.length ∧
      items.map Item.pair = entries ∧
      (b'.finish.1.length < 2 ^ 32 →
        b'.finish.1 = encodeItems items ++ trailer
          ((List.range (restartCount interval entries.length)).map
            fun j => itemOffset items (j * interval)) ∧
        (∀ j x, items[j * interval]? = some x → x.shared = 0) ∧
        (Block.AnyIter.iterator cmp).BehavesWith (fun it => it.status = .success)
          (fun a k => cmp a.1 k = .lt) entries (Block.newIterator (.new b'.finish.1)) none) := by
  obtain rfl : b = reset := by
    rcases hb with hnew | ⟨used, rfl⟩
    · rw [BlockBuilder.new, if_pos hinterval] at hnew
      exact (Option.some.inj hnew).symm
    · rfl
  obtain ⟨b', items, points, hall, henc, hregular, hitems⟩ :=
    encodes_reset.addAll hinterval (regular_reset interval) hsorted
  rw [List.map_nil, List.nil_append] at hitems
  have hlength : items.length = entries.length := by rw [← hitems, List.length_map]
  have hpoints := hregular.points_eq_range hinterval
  have hfinish : b'.finish.1.length = b'.buffer.length + (b'.restarts.length * 4 + 4) := by
    rw [finish, List.length_append, length_trailer]
  refine ⟨b', items, hall, ?_, hitems, fun hsmall => ⟨?_, ?_, ?_⟩⟩
  · rw [hfinish, currentSizeEstimate, Nat.add_assoc]
  · have hrestarts : b'.restarts = (List.range (restartCount interval entries.length)).map
        fun j => itemOffset items (j * interval) := by
      rw [henc.restarts_eq, hpoints, hlength, List.map_map]
      refine List.map_congr_left fun j _ => Nat.mod_eq_of_lt ?_
      have hle : itemOffset items (j * interval) ≤ (encodeItems items).length := by
        conv_rhs => rw [← List.take_append_drop (j * interval) items, encodeItems_append,
          List.length_append]
        exact Nat.le_add_right _ _
      rw [← henc.buffer_eq] at hle
      change itemOffset items (j * interval) < 2 ^ 32
      omega
    rw [finish, henc.buffer_eq, hrestarts]
  · intro j x hx
    refine henc.points_shared (j * interval) ?_ x hx
    obtain ⟨hlt, -⟩ := List.getElem?_eq_some_iff.mp hx
    rw [hpoints, List.mem_map]
    refine ⟨j, List.mem_range.mpr ?_, rfl⟩
    rw [restartCount, Nat.lt_succ_iff, Nat.le_div_iff_mul_le hinterval]
    omega
  · rw [← hitems] at hsorted ⊢
    exact Holds.behaves ⟨items, points, henc, rfl⟩ hsmall hsorted

/-- Three entries with a restart point at every second. -/
theorem addAll_finish_three :
    let entries : List (Bytes × Bytes) := [([1], [10]), ([1, 2], [20]), ([2], [])]
    ∃ b', reset.resetUsed.addAll bytewiseComparator.compare 2 entries = some b' ∧
      b'.currentSizeEstimate = b'.finish.1.length ∧
      (Block.AnyIter.iterator bytewiseComparator.compare).BehavesWith
        (fun it => it.status = .success) (fun a k => bytewiseComparator.compare a.1 k = .lt) entries
        (Block.newIterator (.new b'.finish.1)) none := by
  intro entries
  have htrans := bytewiseComparator_lawful.trans
  obtain ⟨b', items, hall, hsize, -, hblock⟩ := addAll_finish (show 1 ≤ 2 by decide)
    (.inr ⟨reset, rfl⟩)
      (show entries.Pairwise fun x y => bytewiseComparator.compare x.1 y.1 = .lt by
      decide +kernel)
  have hsmall : (reset.resetUsed.addAll bytewiseComparator.compare 2 entries).map
      (fun b => decide (b.finish.1.length < 2 ^ 32)) = some true := by decide +kernel
  rw [hall] at hsmall
  exact ⟨b', hall, hsize, (hblock (of_decide_eq_true (Option.some.inj hsmall))).2.2⟩

end BlockBuilder

end Squirrel
