import Squirrel.Table.BlockBuilder
import Squirrel.Table.BlockSafety

/-!
# Iterating over built blocks

The iterator of a block that a `BlockBuilder` has finished is a cursor on the entries that were
added.

`Laid` says of a region what `Encodes` says of the builder: where the entries are, and which of them
are restart points. Everything else follows from that. `ReadyAt i` is a state from which the next
entry to be parsed is number `i`, `StandsAt i` one in which it has been parsed; the restart index of
the latter is the last restart point at or before entry `i`, which is what `Prev` relies on.

## Main results

* `Laid.step_at` — one operation moves the iterator as it moves a cursor
* `BlockBuilder.Encodes.behaves` — the iterator of a finished block is a cursor on its entries
-/

namespace Squirrel

open Coding BlockBuilder

namespace Block

/-! ### Reading one entry -/

theorem encodeVarint32_cases {v : ℕ} (h : v < 2 ^ 32) :
    v < 128 ∧ encodeVarint32 v = [UInt8.ofNat v] ∨
      ∃ b rest, encodeVarint32 v = b :: rest ∧ 128 ≤ b.toNat := by
  rw [encodeVarint32_eq h]
  rcases Nat.lt_or_ge v 128 with hv | hv
  · exact .inl ⟨hv, LittleEndian.base128_of_lt hv⟩
  · refine .inr ⟨_, _, LittleEndian.base128_of_ge hv, ?_⟩
    rw [UInt8.toNat_ofNat']
    omega

theorem decodeLengths_encode {s n v : ℕ} (hs : s < 2 ^ 32) (hn : n < 2 ^ 32) (hv : v < 2 ^ 32)
    (rest : Bytes) :
    decodeLengths (encodeVarint32 s ++ (encodeVarint32 n ++ (encodeVarint32 v ++ rest)))
      = some ((s, n, v), rest) := by
  have hlen : ¬ (encodeVarint32 s ++ (encodeVarint32 n ++ (encodeVarint32 v ++ rest))).length
      < 3 := by
    have := length_encodeVarint32_pos hs
    have := length_encodeVarint32_pos hn
    have := length_encodeVarint32_pos hv
    simp only [List.length_append]
    omega
  have hslow : ((getVarint32Ptr
      (encodeVarint32 s ++ (encodeVarint32 n ++ (encodeVarint32 v ++ rest)))).bind fun x =>
        (getVarint32Ptr x.2).bind fun y => (getVarint32Ptr y.2).bind fun z =>
          some ((x.1, y.1, z.1), z.2)) = some ((s, n, v), rest) := by
    simp only [getVarint32Ptr_encodeVarint32 hs, getVarint32Ptr_encodeVarint32 hn,
      getVarint32Ptr_encodeVarint32 hv, Option.bind_some]
  rw [decodeLengths, if_neg hlen]
  split
  · next hfast =>
    -- all three are below 128, so each of them is one byte
    have hor₂ := lt_of_le_of_lt Nat.left_le_or hfast
    have hbyte₀ := lt_of_le_of_lt Nat.left_le_or hor₂
    have hbyte₁ := lt_of_le_of_lt Nat.right_le_or hor₂
    have hbyte₂ := lt_of_le_of_lt Nat.right_le_or hfast
    rcases encodeVarint32_cases hs with ⟨hs', hes⟩ | ⟨b, r, hes, hb⟩
    · rcases encodeVarint32_cases hn with ⟨hn', hen⟩ | ⟨b, r, hen, hb⟩
      · rcases encodeVarint32_cases hv with ⟨hv', hev⟩ | ⟨b, r, hev, hb⟩
        · have hnat : ∀ x : ℕ, x < 128 → x % 256 = x := fun x hx => Nat.mod_eq_of_lt (by omega)
          simp [hes, hen, hev, byteAt, hnat s hs', hnat n hn', hnat v hv']
        · rw [hes, hen, hev] at hbyte₂
          exact absurd hbyte₂ (Nat.not_lt.mpr hb)
      · rw [hes, hen] at hbyte₁
        exact absurd hbyte₁ (Nat.not_lt.mpr hb)
    · rw [hes] at hbyte₀
      exact absurd hbyte₀ (Nat.not_lt.mpr hb)
  · exact hslow

/-! ### Where the entries are -/

/-- The region holds the entries `items`, of which those in `points` are restart points. -/
structure Laid (r : Region) (items : List Item) (points : List ℕ) : Prop where
  placed : r.WellPlaced
  data_eq : r.data.take r.restarts = encodeItems items
  numRestarts_eq : r.numRestarts = points.length
  restart_eq : ∀ j i : ℕ, points[j]? = some i → r.getRestartPoint j = some (itemOffset items i)
  key_lt : ∀ x ∈ items, x.key.length < 2 ^ 32
  shared_le : ∀ (i : ℕ) (x : Item), items[i]? = some x → x.shared ≤ x.key.length
  shared_eq : ∀ (i : ℕ) (x : Item), items[i]? = some x →
    x.shared ≤ (prevKey items i).length ∧ (prevKey items i).take x.shared = x.key.take x.shared
  points_head : points.head? = some 0
  points_lt : points.Pairwise (· < ·)
  points_le : ∀ i ∈ points, i = 0 ∨ i < items.length
  points_shared : ∀ i ∈ points, ∀ x : Item, items[i]? = some x → x.shared = 0

theorem length_encode (x : Item) : x.encode.length
    = x.header.length + (x.key.length - x.shared) + x.value.length := by
  rw [Item.encode, List.length_append, List.length_append, List.length_drop]
  omega

/-- Where the value of an entry starts, if the entry starts at `p`. -/
def valueOffset (x : Item) (p : ℕ) : ℕ := p + x.header.length + (x.key.length - x.shared)

theorem itemOffset_succ {items : List Item} {i : ℕ} {x : Item} (h : items[i]? = some x) :
    itemOffset items (i + 1) = itemOffset items i + x.encode.length := by
  rw [itemOffset, List.take_add_one, h, encodeItems_append, List.length_append, itemOffset]
  simp [encodeItems]

theorem itemOffset_length (items : List Item) :
    itemOffset items items.length = (encodeItems items).length := by
  rw [itemOffset, List.take_length]

theorem itemOffset_lt {items : List Item} {i j : ℕ} (hij : i < j) (hj : j ≤ items.length) :
    itemOffset items i < itemOffset items j := by
  induction j with
  | zero => exact absurd hij (Nat.not_lt_zero i)
  | succ j ih =>
    have hget := List.getElem?_eq_getElem (l := items) (i := j) (by omega)
    have hlen := (items[j]).length_header
    rw [itemOffset_succ hget, Item.encode, List.length_append]
    rcases Nat.lt_or_eq_of_le (Nat.le_of_lt_succ hij) with hlt | rfl
    · have := ih hlt (by omega)
      omega
    · omega

theorem itemOffset_lt_iff {items : List Item} {i j : ℕ} (hi : i ≤ items.length)
    (hj : j ≤ items.length) : itemOffset items i < itemOffset items j ↔ i < j := by
  refine ⟨fun h => ?_, fun h => itemOffset_lt h hj⟩
  by_contra hle
  rcases Nat.lt_or_eq_of_le (Nat.le_of_not_lt hle) with hlt | rfl
  · exact absurd (itemOffset_lt hlt hi) (Nat.lt_asymm h)
  · exact Nat.lt_irrefl _ h

/-- The bytes from an entry on. -/
theorem drop_encodeItems {items : List Item} {i : ℕ} {x : Item} (h : items[i]? = some x) :
    (encodeItems items).drop (itemOffset items i)
      = x.encode ++ encodeItems (items.drop (i + 1)) := by
  obtain ⟨hlt, rfl⟩ := List.getElem?_eq_some_iff.mp h
  conv_lhs => rw [← List.take_append_drop i items, encodeItems_append]
  rw [List.take_append_drop, itemOffset, List.drop_left, List.drop_eq_getElem_cons hlt]
  rfl

section

variable {r : Region} {items : List Item} {points : List ℕ} (hl : Laid r items points)

include hl

theorem Laid.restarts_eq : r.restarts = (encodeItems items).length := by
  rw [← hl.data_eq, List.length_take, Nat.min_eq_left hl.placed.le_length]

theorem Laid.itemOffset_le {i : ℕ} (h : i ≤ items.length) : itemOffset items i ≤ r.restarts := by
  rw [hl.restarts_eq, ← itemOffset_length]
  rcases Nat.lt_or_eq_of_le h with hlt | rfl
  · exact Nat.le_of_lt (itemOffset_lt hlt (Nat.le_refl _))
  · exact Nat.le_refl _

theorem Laid.itemOffset_lt_restarts {i : ℕ} (h : i < items.length) :
    itemOffset items i < r.restarts := by
  rw [hl.restarts_eq, ← itemOffset_length]
  exact itemOffset_lt h (Nat.le_refl _)

theorem Laid.restarts_lt : r.restarts < 2 ^ 32 :=
  lt_of_le_of_lt hl.placed.le_length hl.placed.length_lt

/-- Bytes of an entry, read from the block. -/
theorem Laid.drop_take {i : ℕ} {x : Item} (h : items[i]? = some x) {k n : ℕ}
    (hk : k + n ≤ x.encode.length) :
    (r.data.drop (itemOffset items i + k)).take n = (x.encode.drop k).take n := by
  have hend : itemOffset items (i + 1) ≤ r.restarts :=
    hl.itemOffset_le (List.getElem?_eq_some_iff.mp h).1
  rw [itemOffset_succ h] at hend
  have hdata : (r.data.take r.restarts).drop (itemOffset items i + k)
      = x.encode.drop k ++ encodeItems (items.drop (i + 1)) := by
    rw [hl.data_eq, ← List.drop_drop, drop_encodeItems h, List.drop_append_of_le_length (by omega)]
  calc (r.data.drop (itemOffset items i + k)).take n
      = ((r.data.take r.restarts).drop (itemOffset items i + k)).take n := by
        rw [List.drop_take, List.take_take, Nat.min_eq_left (by omega)]
    _ = (x.encode.drop k).take n := by
        rw [hdata, List.take_append_of_le_length (by rw [List.length_drop]; omega)]

theorem Laid.read_key {i : ℕ} {x : Item} (h : items[i]? = some x) :
    r.read (itemOffset items i + x.header.length) (x.key.length - x.shared)
      = some (x.key.drop x.shared) := by
  have hlen := length_encode x
  have hend : itemOffset items (i + 1) ≤ r.restarts :=
    hl.itemOffset_le (List.getElem?_eq_some_iff.mp h).1
  have hle := hl.placed.le_length
  rw [itemOffset_succ h] at hend
  rw [Region.read, if_pos (by omega), hl.drop_take h (by omega), Item.encode, List.drop_left,
    List.take_append_of_le_length (by rw [List.length_drop]),
    List.take_of_length_le (by rw [List.length_drop])]

theorem Laid.value_eq {i : ℕ} {x : Item} (h : items[i]? = some x) :
    (r.data.drop (valueOffset x (itemOffset items i))).take x.value.length = x.value := by
  have hlen := length_encode x
  rw [valueOffset, Nat.add_assoc, hl.drop_take h (by omega), Item.encode, ← List.drop_drop,
    List.drop_left, ← List.length_drop, List.drop_left, List.take_length]

/-- The iterator finds each entry. -/
theorem Laid.decodeEntry_eq {i : ℕ} {x : Item} (h : items[i]? = some x) :
    decodeEntry r.data r.restarts (itemOffset items i)
      = some ⟨x.shared, x.key.length - x.shared, x.value.length,
          itemOffset items i + x.header.length⟩ := by
  have hend : itemOffset items (i + 1) ≤ r.restarts :=
    hl.itemOffset_le (List.getElem?_eq_some_iff.mp h).1
  have hlen := length_encode x
  have hlt := hl.restarts_lt
  rw [itemOffset_succ h] at hend
  have hkey := hl.key_lt x (List.mem_of_getElem? h)
  have hshared := hl.shared_le i x h
  -- the rest of the block from the key's own bytes on
  have hrest := congrArg List.length (drop_encodeItems h)
  rw [List.length_drop, List.length_append, ← hl.restarts_eq] at hrest
  have hlengths : decodeLengths ((r.data.take r.restarts).drop (itemOffset items i))
      = some ((x.shared, x.key.length - x.shared, x.value.length),
          x.key.drop x.shared ++ (x.value ++ encodeItems (items.drop (i + 1)))) := by
    rw [hl.data_eq, drop_encodeItems h, Item.encode, Item.header]
    have h₁ : x.shared % 2 ^ 32 = x.shared := Nat.mod_eq_of_lt (by omega)
    have h₂ : (x.key.length - x.shared) % 2 ^ 32 = x.key.length - x.shared :=
      Nat.mod_eq_of_lt (by omega)
    have h₃ : x.value.length % 2 ^ 32 = x.value.length := Nat.mod_eq_of_lt (by omega)
    rw [h₁, h₂, h₃]
    simp only [List.append_assoc]
    exact decodeLengths_encode (by omega) (by omega) (by omega) _
  rw [decodeEntry, hlengths]
  simp only [List.length_append, List.length_drop]
  rw [Nat.mod_eq_of_lt (by omega), Nat.mod_eq_of_lt (by omega), if_neg (by omega)]
  congr 2
  omega

theorem Laid.point_lt {j i : ℕ} (h : points[j]? = some i) : i ≤ items.length := by
  rcases hl.points_le i (List.mem_of_getElem? h) with rfl | hlt
  · exact Nat.zero_le _
  · exact Nat.le_of_lt hlt

theorem Laid.points_mono {j j' i i' : ℕ} (h : points[j]? = some i) (h' : points[j']? = some i')
    (hlt : j < j') : i < i' := by
  obtain ⟨hj, rfl⟩ := List.getElem?_eq_some_iff.mp h
  obtain ⟨hj', rfl⟩ := List.getElem?_eq_some_iff.mp h'
  exact List.pairwise_iff_getElem.mp hl.points_lt j j' hj hj' hlt

theorem Laid.exists_point {j : ℕ} (h : j < r.numRestarts) : ∃ i, points[j]? = some i :=
  ⟨_, List.getElem?_eq_getElem (hl.numRestarts_eq ▸ h)⟩

end

/-! ### Where the iterator is -/

/-- Entry `i` is the next to be parsed. -/
structure ReadyAt (items : List Item) (points : List ℕ) (it : Iter) (i : ℕ) : Prop where
  nextEntryOffset_eq : it.nextEntryOffset = some (itemOffset items i)
  key_eq : ∀ x : Item, items[i]? = some x →
    x.shared ≤ it.key.length ∧ it.key.take x.shared = x.key.take x.shared
  restart_le : ∃ q, points[it.restartIndex]? = some q ∧ q ≤ i
  status_eq : it.status = .success

/-- Entry `i` has been parsed. No restart point behind the current one comes before it. -/
structure StandsAt (items : List Item) (points : List ℕ) (it : Iter) (i : ℕ) : Prop where
  current_eq : it.current = itemOffset items i
  entry_eq : ∃ x : Item, items[i]? = some x ∧ it.key = x.key ∧
    it.value = some ⟨valueOffset x (itemOffset items i), x.value.length⟩
  restart_le : ∃ q, points[it.restartIndex]? = some q ∧ q ≤ i
  le_restart : ∀ j q, it.restartIndex < j → points[j]? = some q → i ≤ q
  ready : ReadyAt items points it (i + 1)

/-- The iterator is at `pos`. -/
def PosAt (r : Region) (items : List Item) (points : List ℕ) (it : Iter) : Option ℕ → Prop
  | none => ¬ it.Valid r ∧ it.status = .success
  | some i => StandsAt items points it i

section

variable {r : Region} {items : List Item} {points : List ℕ} (hl : Laid r items points)

include hl

theorem Laid.seekToRestartPoint {j i : ℕ} (h : points[j]? = some i) {it : Iter}
    (hs : it.status = .success) :
    ∃ it', it.seekToRestartPoint r j = some it' ∧ ReadyAt items points it' i := by
  have hle := hl.itemOffset_le (hl.point_lt h)
  have hlt := hl.restarts_lt
  refine ⟨{ it with key := [], restartIndex := j, value := some ⟨itemOffset items i, 0⟩ },
    by rw [Iter.seekToRestartPoint, hl.restart_eq j i h]; rfl, ?_, ?_, ⟨i, h, Nat.le_refl i⟩, hs⟩
  · have hoff : itemOffset items i % 2 ^ 32 = itemOffset items i := Nat.mod_eq_of_lt (by omega)
    exact congrArg some hoff
  · intro x hx
    rw [hl.points_shared i (List.mem_of_getElem? h) x hx]
    exact ⟨Nat.zero_le _, rfl⟩

/-- The restart index follows the entries. -/
theorem Laid.skipRestarts {i : ℕ} (hi : i ≤ items.length) (fuel : ℕ) {j q : ℕ}
    (hq : points[j]? = some q) (hqi : q ≤ i) (hfuel : r.numRestarts ≤ j + fuel) :
    ∃ j' q', r.skipRestarts (itemOffset items i) fuel j = some j' ∧ points[j']? = some q' ∧
      q' ≤ i ∧ ∀ k p, j' < k → points[k]? = some p → i ≤ p := by
  induction fuel generalizing j q with
  | zero =>
    have hj := (List.getElem?_eq_some_iff.mp hq).1
    have hnum := hl.numRestarts_eq
    omega
  | succ fuel ih =>
    rw [Region.skipRestarts]
    by_cases hlast : j + 1 < r.numRestarts
    · obtain ⟨p, hp⟩ := hl.exists_point hlast
      rw [if_pos hlast, hl.restart_eq _ _ hp]
      by_cases hlt : p < i
      · have hoff := itemOffset_lt hlt hi
        simp only [Option.bind_eq_bind, Option.bind_some, if_pos hoff]
        exact ih hp (Nat.le_of_lt hlt) (by omega)
      · have hoff : ¬ itemOffset items p < itemOffset items i := by
          rwa [itemOffset_lt_iff (hl.point_lt hp) hi]
        simp only [Option.bind_eq_bind, Option.bind_some, if_neg hoff]
        refine ⟨j, q, rfl, hq, hqi, fun k p' hk hp' => ?_⟩
        rcases Nat.lt_or_eq_of_le hk with hk | rfl
        · exact Nat.le_of_lt (lt_of_le_of_lt (Nat.le_of_not_lt hlt) (hl.points_mono hp hp' hk))
        · cases hp.symm.trans hp'
          exact Nat.le_of_not_lt hlt
    · rw [if_neg hlast]
      refine ⟨j, q, rfl, hq, hqi, fun k p' hk hp' => ?_⟩
      have hk' := (List.getElem?_eq_some_iff.mp hp').1
      have hnum := hl.numRestarts_eq
      omega

/-- `ParseNextKey` at an entry. -/
theorem Laid.parse_of_lt {it : Iter} {i : ℕ} (h : ReadyAt items points it i)
    (hi : i < items.length) :
    ∃ it', it.parseNextKey decodeEntry r = some (true, it') ∧ StandsAt items points it' i := by
  have hget := List.getElem?_eq_getElem hi
  obtain ⟨hle, htake⟩ := h.key_eq _ hget
  obtain ⟨q, hq, hqi⟩ := h.restart_le
  obtain ⟨j', q', hskip, hq', hqi', hle'⟩ := hl.skipRestarts (Nat.le_of_lt hi)
    (r.numRestarts - it.restartIndex) hq hqi (by omega)
  have hend := hl.itemOffset_le (i := i + 1) hi
  have hlt := hl.restarts_lt
  have hkey : it.key.take items[i].shared ++ items[i].key.drop items[i].shared = items[i].key := by
    rw [htake, List.take_append_drop]
  refine ⟨{ it with
      current := itemOffset items i
      restartIndex := j'
      key := items[i].key
      value := some ⟨valueOffset items[i] (itemOffset items i), items[i].value.length⟩ }, ?_,
    rfl, ⟨_, hget, rfl, rfl⟩, ⟨q', hq', hqi'⟩, hle', ?_, ?_, ⟨q', hq', by omega⟩, h.status_eq⟩
  · simp only [Iter.parseNextKey, h.nextEntryOffset_eq, Option.bind_eq_bind, Option.bind_some,
      if_neg (Nat.not_le.mpr (hl.itemOffset_lt_restarts hi)), hl.decodeEntry_eq hget,
      if_neg (Nat.not_lt.mpr hle), hl.read_key hget, hskip, hkey]
    rfl
  · have hoff : (valueOffset items[i] (itemOffset items i) + items[i].value.length) % 2 ^ 32
        = itemOffset items (i + 1) := by
      have hlen := length_encode items[i]
      rw [itemOffset_succ hget] at hend ⊢
      rw [valueOffset, Nat.mod_eq_of_lt (by omega)]
      omega
    exact congrArg some hoff
  · intro x hx
    have hprev := hl.shared_eq (i + 1) x hx
    rwa [prevKey_succ hget] at hprev

/-- `ParseNextKey` behind the last entry. -/
theorem Laid.parse_of_ge {it : Iter} (h : ReadyAt items points it items.length) :
    it.parseNextKey decodeEntry r = some (false, it.invalidate r) := by
  have hend : r.restarts ≤ itemOffset items items.length := by
    rw [hl.restarts_eq, itemOffset_length]
  simp only [Iter.parseNextKey, h.nextEntryOffset_eq, Option.bind_eq_bind, Option.bind_some,
    if_pos hend]

omit hl in
theorem posAt_invalidate {it : Iter} (hs : it.status = .success) :
    PosAt r items points (it.invalidate r) none :=
  ⟨Iter.not_valid_invalidate r it, hs⟩

/-- `ParseNextKey`, at an entry or behind the last. -/
theorem Laid.parse_place {it : Iter} {i : ℕ} (h : ReadyAt items points it i)
    (hi : i ≤ items.length) :
    ∃ more it', it.parseNextKey decodeEntry r = some (more, it') ∧
      PosAt r items points it' (Cursor.place items i) := by
  rcases Nat.lt_or_eq_of_le hi with hlt | rfl
  · obtain ⟨it', hparse, hat⟩ := hl.parse_of_lt h hlt
    exact ⟨true, it', hparse, by rw [Cursor.place_of_lt hlt]; exact hat⟩
  · refine ⟨false, _, hl.parse_of_ge h, ?_⟩
    rw [Cursor.place_of_ge (Nat.le_refl _)]
    exact posAt_invalidate h.status_eq

/-- The loops of `Prev` and `SeekToLast` stop at the entry before `e`. -/
theorem Laid.parseUntil {e : ℕ} (he : e ≤ items.length) (fuel : ℕ) {it : Iter} {i : ℕ}
    (h : ReadyAt items points it i) (hi : i < e) (hfuel : e ≤ i + fuel) :
    ∃ it', it.parseUntil decodeEntry r (itemOffset items e) fuel = some it' ∧
      StandsAt items points it' (e - 1) := by
  induction fuel generalizing it i with
  | zero => omega
  | succ fuel ih =>
    obtain ⟨it', hparse, hat⟩ := hl.parse_of_lt h (by omega)
    rw [Iter.parseUntil, hparse]
    simp only [Option.bind_eq_bind, Option.bind_some, hat.ready.nextEntryOffset_eq]
    by_cases hlt : i + 1 < e
    · rw [if_pos (itemOffset_lt hlt he)]
      exact ih hat.ready hlt (by omega)
    · have hoff : ¬ itemOffset items (i + 1) < itemOffset items e := by
        rwa [itemOffset_lt_iff (by omega) he]
      rw [if_neg hoff]
      obtain rfl : e - 1 = i := by omega
      exact ⟨it', rfl, hat⟩

/-- The linear search of `Seek` stops at the first entry that is not before the target. -/
theorem Laid.parseUpTo (cmp : Bytes → Bytes → Ordering) (target : Bytes) (fuel : ℕ) {it : Iter}
    {i : ℕ} (h : ReadyAt items points it i) (hi : i ≤ items.length)
    (hbefore : ∀ (j : ℕ) (x : Item), j < i → items[j]? = some x → cmp x.key target = .lt)
    (hfuel : items.length < i + fuel) :
    ∃ it', it.parseUpTo cmp decodeEntry r target fuel = some it' ∧
      PosAt r items points it'
        (Cursor.place items (items.findIdx fun x => !decide (cmp x.key target = .lt))) := by
  induction fuel generalizing it i with
  | zero => omega
  | succ fuel ih =>
    rcases Nat.lt_or_eq_of_le hi with hlt | rfl
    · obtain ⟨it', hparse, hat⟩ := hl.parse_of_lt h hlt
      obtain ⟨x, hx, hkey, -⟩ := hat.entry_eq
      rw [Iter.parseUpTo, hparse]
      simp only [Option.bind_eq_bind, Option.bind_some, hkey]
      by_cases hcmp : cmp x.key target = .lt
      · rw [if_neg (not_not.mpr hcmp)]
        refine ih hat.ready hlt (fun j y hj hy => ?_) (by omega)
        rcases Nat.lt_or_eq_of_le (Nat.le_of_lt_succ hj) with hj | rfl
        · exact hbefore j y hj hy
        · cases hx.symm.trans hy
          exact hcmp
      · rw [if_pos hcmp]
        have hfind : (items.findIdx fun x => !decide (cmp x.key target = .lt)) = i := by
          obtain ⟨hlt, rfl⟩ := List.getElem?_eq_some_iff.mp hx
          refine (List.findIdx_eq hlt).mpr ⟨by simp [hcmp], fun j hj => ?_⟩
          simp [hbefore j _ hj (List.getElem?_eq_getElem _)]
        refine ⟨it', rfl, ?_⟩
        rw [hfind, Cursor.place_of_lt hlt]
        exact hat
    · rw [Iter.parseUpTo, hl.parse_of_ge h]
      have hfind : (items.findIdx fun x => !decide (cmp x.key target = .lt)) = items.length := by
        refine List.findIdx_eq_length_of_false fun x hx => ?_
        obtain ⟨j, hj, rfl⟩ := List.getElem_of_mem hx
        simp [hbefore j _ hj (List.getElem?_eq_getElem hj)]
      refine ⟨_, rfl, ?_⟩
      rw [hfind, Cursor.place_of_ge (Nat.le_refl _)]
      exact posAt_invalidate h.status_eq

/-- The binary search of `Seek` finds a restart point before which everything is before the target:
the first one, or one whose own key is. -/
theorem Laid.bisect (cmp : Bytes → Bytes → Ordering) (target : Bytes) (fuel left right : ℕ)
    (hle : left ≤ right) (hright : right < r.numRestarts) (hfuel : right < left + fuel)
    (hleft : left = 0 ∨ ∃ (q : ℕ) (x : Item), points[left]? = some q ∧ items[q]? = some x ∧
      cmp x.key target = .lt) :
    ∃ j, Iter.bisect cmp decodeEntry r target fuel left right = some (some j) ∧
      j < r.numRestarts ∧ (j = 0 ∨ ∃ (q : ℕ) (x : Item), points[j]? = some q ∧ items[q]? = some x ∧
        cmp x.key target = .lt) := by
  induction fuel generalizing left right with
  | zero => omega
  | succ fuel ih =>
    rw [Iter.bisect]
    by_cases hlt : left < right
    · obtain ⟨q, hq⟩ := hl.exists_point (j := (left + right + 1) / 2) (by omega)
      -- it is not the first restart point, so there is an entry at it
      have hq0 : q < items.length := by
        have hzero : points[0]? = some 0 := List.head?_eq_getElem?.symm.trans hl.points_head
        have := hl.points_mono hzero hq (by omega)
        exact (hl.points_le q (List.mem_of_getElem? hq)).resolve_left (by omega)
      have hx := List.getElem?_eq_getElem hq0
      have hshared := hl.points_shared q (List.mem_of_getElem? hq) _ hx
      have hread := hl.read_key hx
      rw [hshared, List.drop_zero] at hread
      simp only [if_pos hlt, hl.restart_eq _ _ hq, Option.bind_eq_bind, Option.bind_some,
        hl.decodeEntry_eq hx, hshared, ne_eq, not_true_eq_false, if_false, hread]
      by_cases hcmp : cmp items[q].key target = .lt
      · rw [if_pos hcmp]
        exact ih _ _ (by omega) hright (by omega) (.inr ⟨q, _, hq, hx, hcmp⟩)
      · rw [if_neg hcmp]
        exact ih _ _ (by omega) (by omega) (by omega) hleft
    · rw [if_neg hlt]
      exact ⟨left, rfl, by omega, hleft⟩

omit hl in
theorem PosAt.status_eq {it : Iter} {pos : Option ℕ} (h : PosAt r items points it pos) :
    it.status = .success := by
  cases pos with
  | none => exact h.2
  | some i => exact h.ready.status_eq

theorem Laid.standsAt_valid {it : Iter} {i : ℕ} (h : StandsAt items points it i) : it.Valid r := by
  obtain ⟨x, hx, -⟩ := h.entry_eq
  rw [Iter.Valid, h.current_eq]
  exact hl.itemOffset_lt_restarts (List.getElem?_eq_some_iff.mp hx).1

/-- The first loop of `Prev` finds the last restart point before entry `i`. -/
theorem Laid.scanBack {i : ℕ} (hi : i < items.length) {j : ℕ} (hj : j < r.numRestarts)
    (hlast : ∀ k q, j < k → points[k]? = some q → i ≤ q) :
    i = 0 ∧ r.scanBack (itemOffset items i) j = some none ∨
      ∃ j' q, r.scanBack (itemOffset items i) j = some (some j') ∧ points[j']? = some q ∧
        q < i := by
  induction j with
  | zero =>
    have hzero : points[0]? = some 0 := List.head?_eq_getElem?.symm.trans hl.points_head
    rw [Region.scanBack, hl.restart_eq _ _ hzero]
    by_cases hi0 : i = 0
    · refine .inl ⟨hi0, ?_⟩
      simp [hi0]
    · have hlt : itemOffset items 0 < itemOffset items i :=
        itemOffset_lt (Nat.pos_of_ne_zero hi0) (Nat.le_of_lt hi)
      refine .inr ⟨0, 0, ?_, hzero, Nat.pos_of_ne_zero hi0⟩
      simp [Nat.not_le.mpr hlt]
  | succ j ih =>
    obtain ⟨q, hq⟩ := hl.exists_point hj
    rw [Region.scanBack, hl.restart_eq _ _ hq]
    by_cases hle : itemOffset items i ≤ itemOffset items q
    · simp only [Option.bind_eq_bind, Option.bind_some, if_pos hle]
      have hiq : i ≤ q := by
        rw [← Nat.not_lt, ← itemOffset_lt_iff (hl.point_lt hq) (Nat.le_of_lt hi)]
        exact Nat.not_lt.mpr hle
      refine ih (by omega) fun k p hk hp => ?_
      rcases Nat.lt_or_eq_of_le hk with hk | rfl
      · exact hlast k p hk hp
      · cases hq.symm.trans hp
        exact hiq
    · simp only [Option.bind_eq_bind, Option.bind_some, if_neg hle]
      refine .inr ⟨j + 1, q, rfl, hq, ?_⟩
      rw [← itemOffset_lt_iff (hl.point_lt hq) (Nat.le_of_lt hi)]
      exact Nat.lt_of_not_le hle

/-- There is room for at least one byte per entry. -/
theorem Laid.length_le : items.length ≤ r.restarts := by
  have h : ∀ i, i ≤ items.length → i ≤ itemOffset items i := by
    intro i
    induction i with
    | zero => exact fun _ => Nat.zero_le _
    | succ i ih =>
      intro hi
      have := ih (by omega)
      have := itemOffset_lt (i := i) (j := i + 1) (by omega) hi
      omega
  exact (h _ (Nat.le_refl _)).trans (hl.itemOffset_le (Nat.le_refl _))

variable {cmp : Bytes → Bytes → Ordering} [Std.TransCmp cmp]
  (hsorted : items.Pairwise fun x y => cmp x.key y.key = .lt)

include hsorted

/-- **One operation** moves the iterator as it moves a cursor on the entries. -/
theorem Laid.step_at {it : Iter} {pos pos' : Option ℕ} {op : Cursor.Op Bytes}
    (h : PosAt r items points it pos)
    (hop : Cursor.step (fun x k => cmp x.key k = .lt) items pos op = some pos') :
    ∃ it', it.step cmp decodeEntry r op = some it' ∧ PosAt r items points it' pos' := by
  have hzero : points[0]? = some 0 := List.head?_eq_getElem?.symm.trans hl.points_head
  have hnum := hl.placed.numRestarts_pos
  have hlength := hl.length_le
  cases op with
  | seek target =>
    cases hop
    obtain ⟨j, hbisect, hj, hbefore⟩ := hl.bisect cmp target r.numRestarts 0
      (r.numRestarts - 1) (by omega) (by omega) (by omega) (.inl rfl)
    obtain ⟨q, hq⟩ := hl.exists_point hj
    obtain ⟨it₁, hseek, hready⟩ := hl.seekToRestartPoint hq h.status_eq
    have hbefore' : ∀ (k : ℕ) (y : Item), k < q → items[k]? = some y → cmp y.key target = .lt := by
      intro k y hk hy
      rcases hbefore with rfl | ⟨q', x, hq', hx, hcmp⟩
      · cases hzero.symm.trans hq
        exact absurd hk (Nat.not_lt_zero k)
      · cases hq.symm.trans hq'
        obtain ⟨hkl, rfl⟩ := List.getElem?_eq_some_iff.mp hy
        obtain ⟨hql, rfl⟩ := List.getElem?_eq_some_iff.mp hx
        exact Std.TransCmp.lt_trans (List.pairwise_iff_getElem.mp hsorted k q hkl hql hk) hcmp
    obtain ⟨it', hparse, hat⟩ := hl.parseUpTo cmp target (r.restarts + 1) hready
      (hl.point_lt hq) hbefore' (by omega)
    refine ⟨it', ?_, hat⟩
    simp [Iter.step, Iter.seek, hbisect, hseek, hparse]
  | seekToFirst =>
    cases hop
    obtain ⟨it₁, hseek, hready⟩ := hl.seekToRestartPoint hzero h.status_eq
    obtain ⟨more, it', hparse, hat⟩ := hl.parse_place hready (Nat.zero_le _)
    refine ⟨it', ?_, hat⟩
    simp [Iter.step, Iter.seekToFirst, hseek, hparse]
  | seekToLast =>
    cases hop
    obtain ⟨q, hq⟩ := hl.exists_point (j := r.numRestarts - 1) (by omega)
    obtain ⟨it₁, hseek, hready⟩ := hl.seekToRestartPoint hq h.status_eq
    have hend : itemOffset items items.length = r.restarts := by
      rw [itemOffset_length, hl.restarts_eq]
    simp only [Iter.step, Iter.seekToLast, hseek, Option.bind_eq_bind, Option.bind_some]
    by_cases hempty : items.length = 0
    · -- the only restart point is behind the last entry
      obtain rfl : q = items.length := by
        have := hl.point_lt hq
        omega
      refine ⟨it₁.invalidate r, ?_, ?_⟩
      · rw [Iter.parseUntil, hl.parse_of_ge hready]
        rfl
      · rw [Cursor.place_of_ge (by omega)]
        exact posAt_invalidate hready.status_eq
    · have hlt : q < items.length := by
        rcases hl.points_le q (List.mem_of_getElem? hq) with rfl | hlt
        · exact Nat.pos_of_ne_zero hempty
        · exact hlt
      obtain ⟨it', hparse, hat⟩ := hl.parseUntil (Nat.le_refl _) (r.restarts + 1) hready hlt
        (by omega)
      rw [hend] at hparse
      refine ⟨it', hparse, ?_⟩
      rw [Cursor.place_of_lt (Nat.sub_one_lt hempty)]
      exact hat
  | next =>
    obtain ⟨i, rfl, rfl⟩ := Option.map_eq_some_iff.mp hop
    have hvalid := hl.standsAt_valid h
    obtain ⟨x, hx, -⟩ := h.entry_eq
    obtain ⟨more, it', hparse, hat⟩ := hl.parse_place h.ready (List.getElem?_eq_some_iff.mp hx).1
    refine ⟨it', ?_, hat⟩
    simp [Iter.step, Iter.next, hvalid, hparse]
  | prev =>
    obtain ⟨i, rfl, rfl⟩ := Option.map_eq_some_iff.mp hop
    have hvalid := hl.standsAt_valid h
    obtain ⟨x, hx, -⟩ := h.entry_eq
    have hi := (List.getElem?_eq_some_iff.mp hx).1
    obtain ⟨p, hp, -⟩ := h.restart_le
    have hindex : it.restartIndex < r.numRestarts :=
      hl.numRestarts_eq ▸ (List.getElem?_eq_some_iff.mp hp).1
    simp only [Iter.step, Iter.prev, if_pos hvalid, h.current_eq, Option.bind_eq_bind]
    rcases hl.scanBack hi hindex h.le_restart with ⟨rfl, hscan⟩ | ⟨j, q, hscan, hq, hlt⟩
    · rw [hscan]
      exact ⟨_, rfl, posAt_invalidate h.ready.status_eq⟩
    · obtain ⟨it₁, hseek, hready⟩ := hl.seekToRestartPoint hq h.ready.status_eq
      obtain ⟨it', hparse, hat⟩ := hl.parseUntil (Nat.le_of_lt hi) (r.restarts + 1) hready hlt
        (by omega)
      refine ⟨it', ?_, ?_⟩
      · simp only [hscan, Option.bind_some, hseek, hparse]
      · rw [if_neg (by omega)]
        exact hat

end

/-! ### Finished blocks -/

/-- The iterators of blocks, as their users see them. -/
def AnyIter.iterator (cmp : Bytes → Bytes → Ordering) : Iterator AnyIter Bytes Bytes where
  step it op := it.step cmp decodeEntry op
  entry := AnyIter.entry

end Block

namespace BlockBuilder

open Block

variable {b : BlockBuilder} {items : List Item} {points : List ℕ}

/-- A finished block is what its iterator expects. -/
theorem Encodes.laid (h : Encodes b items points) (hlen : b.finish.1.length < 2 ^ 32)
    (hkeys : ∀ x ∈ items, x.key.length < 2 ^ 32) :
    ∃ r, Block.newIterator (.new b.finish.1) = .entries r (.new r) ∧ Laid r items points := by
  have hcontents : b.finish.1 = encodeItems items ++ ((b.restarts.map encodeFixed32).flatten
      ++ encodeFixed32 b.restarts.length) := by
    rw [finish, h.buffer_eq]
    rfl
  rw [hcontents] at hlen ⊢
  generalize hdata : encodeItems items ++ ((b.restarts.map encodeFixed32).flatten
      ++ encodeFixed32 b.restarts.length) = data at hlen ⊢
  have hrestarts : b.restarts.length = points.length := by rw [h.restarts_eq, List.length_map]
  have hpoints : 0 < points.length := by
    cases points with
    | nil => exact absurd h.points_head (by simp)
    | cons p points => exact Nat.succ_pos _
  have hlength : data.length = (encodeItems items).length + points.length * 4 + 4 := by
    rw [← hdata, List.length_append, List.length_append, length_flatten_encodeFixed32,
      length_encodeFixed32, hrestarts]
    omega
  have hnum : Block.numRestarts data = points.length := by
    have hdrop : data.drop (data.length - 4) = encodeFixed32 b.restarts.length ++ [] := by
      rw [hlength, Nat.add_sub_cancel, ← hdata, ← List.append_assoc, List.append_nil,
        ← hrestarts, ← length_flatten_encodeFixed32, ← List.length_append, List.drop_left]
    rw [Block.numRestarts, hdrop, decodeFixed32_encodeFixed32, hrestarts,
      Nat.mod_eq_of_lt (by omega)]
  have hnew : Block.new data = ⟨data, data.length, (encodeItems items).length⟩ := by
    rw [Block.new, if_neg (by omega), hnum]
    dsimp only
    rw [if_neg (by omega), Nat.mod_eq_of_lt (by omega), Nat.mod_eq_of_lt (by omega)]
    congr 1
    omega
  refine ⟨⟨data, (encodeItems items).length, points.length⟩, ?_, ?_⟩
  · rw [hnew, newIterator, if_neg (by dsimp only; omega), hnum, if_neg (by omega)]
  · have hplaced : Region.WellPlaced ⟨data, (encodeItems items).length, points.length⟩ :=
      ⟨hpoints, by dsimp only; omega, hlen⟩
    refine ⟨hplaced, ?_, rfl, ?_, hkeys, h.shared_le, h.shared_eq, h.points_head, h.points_lt,
      h.points_le, h.points_shared⟩
    · dsimp only
      rw [← hdata, List.take_left]
    · intro j i hj
      have hj' := (List.getElem?_eq_some_iff.mp hj).1
      have hi : i ≤ items.length := by
        rcases h.points_le i (List.mem_of_getElem? hj) with rfl | hlt
        · exact Nat.zero_le _
        · exact Nat.le_of_lt hlt
      have hoff : itemOffset items i < 2 ^ 32 := by
        have hle : itemOffset items i ≤ (encodeItems items).length := by
          rw [itemOffset]
          conv_rhs => rw [← List.take_append_drop i items, encodeItems_append, List.length_append]
          exact Nat.le_add_right _ _
        omega
      have hget : b.restarts[j]? = some (itemOffset items i) := by
        rw [h.restarts_eq, List.getElem?_map, hj]
        exact congrArg some (Nat.mod_eq_of_lt hoff)
      have hdrop : data.drop ((encodeItems items).length + j * 4)
          = encodeFixed32 (itemOffset items i) ++ (((b.restarts.drop (j + 1)).map
            encodeFixed32).flatten ++ encodeFixed32 b.restarts.length) := by
        rw [← hdata, ← List.drop_drop, List.drop_left,
          List.drop_append_of_le_length (by rw [length_flatten_encodeFixed32]; omega),
          drop_flatten_encodeFixed32 hget, List.append_assoc]
      rw [Region.getRestartPoint, if_pos hj', Region.read, if_pos (by dsimp only; omega)]
      dsimp only [Option.map_some]
      rw [hdrop, List.take_append_of_le_length (by rw [length_encodeFixed32]),
        List.take_of_length_le (by rw [length_encodeFixed32]), ← List.append_nil (encodeFixed32 _),
        decodeFixed32_encodeFixed32, Nat.mod_eq_of_lt hoff]

/-- **The iterator of a finished block is a cursor on its entries**, and its status is always OK. -/
theorem Encodes.behaves {cmp : Bytes → Bytes → Ordering} [Std.TransCmp cmp]
    (h : Encodes b items points) (hlen : b.finish.1.length < 2 ^ 32)
    (hkeys : ∀ x ∈ items, x.key.length < 2 ^ 32)
    (hsorted : items.Pairwise fun x y => cmp x.key y.key = .lt) :
    (AnyIter.iterator cmp).BehavesWith (fun it => it.status = .success)
      (fun a k => cmp a.1 k = .lt) (items.map Item.pair)
      (Block.newIterator (.new b.finish.1)) none := by
  obtain ⟨r, hnew, hl⟩ := h.laid hlen hkeys
  rw [hnew]
  refine Iterator.behavesWith_of_refines
    (R := fun s pos => ∃ it, s = .entries r it ∧ PosAt r items points it pos) ?_ ?_ ?_
    ⟨_, rfl, Nat.lt_irrefl _, rfl⟩
  · rintro _ pos op pos' ⟨it, rfl, hat⟩ hop
    rw [Cursor.step_map] at hop
    obtain ⟨it', hit, hat'⟩ := hl.step_at hsorted hat hop
    refine ⟨.entries r it', ?_, it', rfl, hat'⟩
    rw [AnyIter.iterator]
    dsimp only
    rw [AnyIter.step, hit]
    rfl
  · rintro _ pos ⟨it, rfl, hat⟩
    rw [AnyIter.iterator]
    dsimp only
    cases pos with
    | none => exact if_neg hat.1
    | some i =>
      obtain ⟨x, hx, hkey, hvalue⟩ := hat.entry_eq
      rw [AnyIter.entry, if_pos (hl.standsAt_valid hat), hvalue]
      simp [hx, hkey, hl.value_eq hx, Item.pair]
  · rintro _ pos ⟨it, rfl, hat⟩
    exact hat.status_eq

end BlockBuilder

end Squirrel
