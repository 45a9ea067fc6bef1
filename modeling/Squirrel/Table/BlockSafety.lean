import Squirrel.Table.BlockWalk
import Squirrel.Util.Comparator

/-!
# Iterating over arbitrary bytes

What an iterator does on a block that may have any contents. `Reached` are the places where the
iterator can come to look for an entry: the restart points, and behind each well-formed entry found
at such a place. The key length matters, since an entry that shares more than there is ends the
walk.

As long as no two lengths found at such a place add up to `2 ^ 32`, `DecodeEntry` recognizes exactly
the well-formed entries, every access stays in the block, and all loops end. The sum is made in 32
bits, and a block of 15 bytes is enough to make it zero.

## Main results

* `Iter.step_safe` — one operation
* `Iter.does_of_step` — what it does with the entries it finds, malformed ones included
* `safe_of_lengthsFit` — every run, from the iterator of any block
* `not_safe_wrapping` — the block whose first entry is believed to have 4294967295 bytes
-/

namespace Squirrel

open Coding

namespace Block

/-! ### Entries -/

theorem decodeLengths_suffix {p rest : Bytes} {lengths : ℕ × ℕ × ℕ}
    (h : decodeLengths p = some (lengths, rest)) :
    ∃ front, 3 ≤ front.length ∧ p = front ++ rest := by
  rw [decodeLengths] at h
  split at h
  · cases h
  · next hlen =>
    split at h
    · cases h
      refine ⟨p.take 3, ?_, (List.take_append_drop 3 p).symm⟩
      rw [List.length_take]
      omega
    · simp only [Option.bind_eq_bind, Option.bind_eq_some_iff, Option.some.injEq] at h
      obtain ⟨⟨s, p₁⟩, h₁, ⟨n, p₂⟩, h₂, ⟨v, p₃⟩, h₃, heq⟩ := h
      obtain ⟨f₁, hf₁, -, rfl⟩ := getVarint32Ptr_suffix h₁
      obtain ⟨f₂, hf₂, -, rfl⟩ := getVarint32Ptr_suffix h₂
      obtain ⟨f₃, hf₃, -, rfl⟩ := getVarint32Ptr_suffix h₃
      cases heq
      refine ⟨f₁ ++ f₂ ++ f₃, ?_, by simp⟩
      have h₁ := List.length_pos_iff.mpr hf₁
      have h₂ := List.length_pos_iff.mpr hf₂
      have h₃ := List.length_pos_iff.mpr hf₃
      simp only [List.length_append]
      omega

/-- A well-formed entry lies between its offset and the limit. -/
theorem wellFormedEntry_bounds {data : Bytes} {limit p : ℕ} {e : Entry}
    (h : wellFormedEntry data limit p = some e) (hlimit : limit ≤ data.length) :
    p + 3 ≤ e.keyPtr ∧ e.limit ≤ limit := by
  rw [wellFormedEntry] at h
  split at h
  · cases h
  · next s n v rest hlengths =>
    obtain ⟨front, hfront, heq⟩ := decodeLengths_suffix hlengths
    have hlen := congrArg List.length heq
    rw [List.length_drop, List.length_take, Nat.min_eq_left hlimit, List.length_append] at hlen
    split at h
    · cases h
    · cases h
      simp only [Entry.limit, Entry.valuePtr]
      omega

/-! ### Where the iterator looks for entries -/

/-- The iterator can look for an entry at offset `p`, with `k` bytes of key to share. -/
inductive Reached (r : Region) : ℕ → ℕ → Prop
  | restart {index p : ℕ} (h : r.getRestartPoint index = some p) : Reached r p 0
  | next {p k : ℕ} {e : Entry} (hp : Reached r p k)
      (he : wellFormedEntry r.data r.restarts p = some e) (hshared : e.shared ≤ k) :
      Reached r e.limit (e.shared + e.nonShared)

/-- The lengths at these places can be added in 32 bits. -/
def Region.LengthsFit (r : Region) : Prop :=
  ∀ p k shared nonShared valueLength rest, Reached r p k →
    decodeLengths ((r.data.take r.restarts).drop p)
      = some ((shared, nonShared, valueLength), rest) → nonShared + valueLength < 2 ^ 32

/-- The restart points lie between the entries and the end of the block. -/
structure Region.WellPlaced (r : Region) : Prop where
  numRestarts_pos : 0 < r.numRestarts
  restarts_le : r.restarts + r.numRestarts * 4 ≤ r.data.length
  length_lt : r.data.length < 2 ^ 32

section

variable {r : Region} (hr : r.WellPlaced)

include hr

theorem Region.WellPlaced.le_length : r.restarts ≤ r.data.length :=
  le_trans (Nat.le_add_right _ _) hr.restarts_le

/-- The key's own bytes are in the block. -/
theorem Region.WellPlaced.read_key {p : ℕ} {e : Entry}
    (he : wellFormedEntry r.data r.restarts p = some e) :
    r.read e.keyPtr e.nonShared = some ((r.data.drop e.keyPtr).take e.nonShared) := by
  have hlimit := (wellFormedEntry_bounds he hr.le_length).2
  have hle := hr.le_length
  simp only [Entry.limit, Entry.valuePtr] at hlimit
  rw [Region.read, if_pos (by omega)]

/-- Where the lengths fit, `DecodeEntry` accepts the well-formed entries and no others. -/
theorem decodeEntry_eq (hfit : r.LengthsFit) {p k : ℕ} (hp : Reached r p k) :
    decodeEntry r.data r.restarts p = wellFormedEntry r.data r.restarts p := by
  rw [decodeEntry, wellFormedEntry]
  split
  · rfl
  · next s n v rest hlengths =>
    have hsum := hfit p k s n v rest hp hlengths
    obtain ⟨front, -, heq⟩ := decodeLengths_suffix hlengths
    have hlen := congrArg List.length heq
    rw [List.length_drop, List.length_take, List.length_append] at hlen
    have hrest : rest.length < 2 ^ 32 := by
      have := hr.length_lt
      omega
    rw [Nat.mod_eq_of_lt hsum, Nat.mod_eq_of_lt hrest]

end

/-! ### One operation -/

namespace Iter

/-- The iterator will look for an entry at `p` next. -/
structure Ready (r : Region) (it : Iter) (p : ℕ) : Prop where
  restartIndex_lt : it.restartIndex < r.numRestarts
  nextEntryOffset_eq : it.nextEntryOffset = some p
  reached : Reached r p it.key.length

/-- An iterator that is valid is at a well-formed entry. -/
def Sound (r : Region) (it : Iter) : Prop :=
  it.Valid r → ∃ e, wellFormedEntry r.data r.restarts it.current = some e ∧
    it.value = some ⟨e.valuePtr, e.valueLength⟩ ∧ it.Ready r e.limit

theorem not_valid_invalidate (r : Region) (it : Iter) : ¬ (it.invalidate r).Valid r :=
  Nat.lt_irrefl _

theorem not_valid_corruptionError (r : Region) : ¬ (corruptionError r).Valid r := Nat.lt_irrefl _

variable {r : Region} (hr : r.WellPlaced) (hfit : r.LengthsFit)

include hr

theorem seekToRestartPoint_ready {i : ℕ} (h : i < r.numRestarts) (it : Iter) :
    ∃ it' p, it.seekToRestartPoint r i = some it' ∧ it'.Ready r p := by
  obtain ⟨p, hp, hlt⟩ := Region.exists_restart hr.restarts_le h
  refine ⟨{ it with key := [], restartIndex := i, value := some ⟨p, 0⟩ }, p,
    by rw [seekToRestartPoint, hp]; rfl, h, ?_, .restart hp⟩
  exact congrArg some (Nat.mod_eq_of_lt hlt)

include hfit

/-- `ParseNextKey` finds a well-formed entry, or no entry, or reports corruption. -/
theorem parseNextKey_safe {it : Iter} {p : ℕ} (h : it.Ready r p) :
    ∃ more it', it.parseNextKey decodeEntry r = some (more, it') ∧
      it.parseNextKey wellFormedEntry r = some (more, it') ∧ it'.Sound r ∧
      (more = true → ∃ p', it'.Ready r p' ∧ p < p' ∧ p' ≤ r.restarts) := by
  simp only [parseNextKey, h.nextEntryOffset_eq, Option.bind_eq_bind, Option.bind_some,
    decodeEntry_eq hr hfit h.reached]
  by_cases hend : r.restarts ≤ p
  · simp only [if_pos hend]
    exact ⟨_, _, rfl, rfl, fun hv => absurd hv (not_valid_invalidate r it), by simp⟩
  simp only [if_neg hend]
  cases he : wellFormedEntry r.data r.restarts p with
  | none => exact ⟨_, _, rfl, rfl, fun hv => absurd hv (not_valid_corruptionError r), by simp⟩
  | some e =>
    by_cases hshared : it.key.length < e.shared
    · simp only [if_pos hshared]
      exact ⟨_, _, rfl, rfl, fun hv => absurd hv (not_valid_corruptionError r), by simp⟩
    simp only [if_neg hshared]
    obtain ⟨hptr, hlimit⟩ := wellFormedEntry_bounds he hr.le_length
    obtain ⟨index, hindex, hlt⟩ := Region.exists_skipRestarts hr.restarts_le p
      (r.numRestarts - it.restartIndex) h.restartIndex_lt
    have hlength := hr.length_lt
    have hle := hr.le_length
    have hkey : (it.key.take e.shared ++ (r.data.drop e.keyPtr).take e.nonShared).length
        = e.shared + e.nonShared := by
      rw [List.length_append, List.length_take, List.length_take, List.length_drop]
      simp only [Entry.limit, Entry.valuePtr] at hlimit
      omega
    rw [hr.read_key he, hindex]
    have hready : Ready r
        { it with
          current := p
          restartIndex := index
          key := it.key.take e.shared ++ (r.data.drop e.keyPtr).take e.nonShared
          value := some ⟨e.valuePtr, e.valueLength⟩ } e.limit := by
      refine ⟨hlt, ?_, ?_⟩
      · have hlt : e.limit < 2 ^ 32 := by omega
        exact congrArg some (Nat.mod_eq_of_lt hlt)
      · rw [hkey]
        exact .next h.reached he (Nat.le_of_not_lt hshared)
    refine ⟨true, _, rfl, rfl, fun _ => ⟨e, he, rfl, hready⟩, fun _ =>
      ⟨e.limit, hready, ?_, hlimit⟩⟩
    simp only [Entry.limit, Entry.valuePtr]
    omega

/-- Where the lengths fit, the two decoders agree wherever the iterator looks. -/
theorem walk_safe :
    Walk decodeEntry wellFormedEntry r (fun p it => it.Ready r p) (Sound r) where
  numRestarts_pos := hr.numRestarts_pos
  restarts_le := hr.restarts_le
  nextEntryOffset_eq := fun h => h.nextEntryOffset_eq
  restartIndex_lt := fun h => h.restartIndex_lt
  ready_of_valid := by
    intro it hsound hvalid
    obtain ⟨e, -, -, hready⟩ := hsound hvalid
    exact ⟨e.limit, hready⟩
  done_of_not_valid := fun h hvalid => absurd hvalid h
  seekToRestartPoint := fun it _ h => seekToRestartPoint_ready hr h it
  probe := by
    intro i p hp
    refine ⟨decodeEntry_eq hr hfit (.restart hp), fun e he => ?_⟩
    exact ⟨_, hr.read_key he⟩
  parseNextKey := fun h => parseNextKey_safe hr hfit h

/-- **One operation.** It stays in the block, it does what it would do if it looked for well-formed
entries, and it leaves the iterator at such an entry if it leaves it valid. -/
theorem step_safe (cmp : Bytes → Bytes → Ordering) {it : Iter} (hit : it.Sound r)
    (op : Cursor.Op Bytes) (hop : op = .next ∨ op = .prev → it.Valid r) :
    ∃ it', it.step cmp decodeEntry r op = some it' ∧ it.step cmp wellFormedEntry r op = some it' ∧
      it'.Sound r :=
  (walk_safe hr hfit).step cmp hit op hop

end Iter

/-! ### What an operation finds -/

/-- An iterator that has gathered `key` and looks for an entry at `p` finds a malformed one: no
well-formed entry is there, or it shares more than there is. -/
def Region.Malformed (r : Region) (p : ℕ) (key : Bytes) : Prop :=
  ∀ e, wellFormedEntry r.data r.restarts p = some e → key.length < e.shared

/-- The key that the entry `e` makes of `key`. -/
def Region.keyOf (r : Region) (e : Entry) (key : Bytes) : Bytes :=
  key.take e.shared ++ (r.data.drop e.keyPtr).take e.nonShared

/-- What a malformed entry does: the iterator is not valid, and its status is a corruption. -/
structure Iter.Corrupt (r : Region) (it : Iter) : Prop where
  not_valid : ¬ it.Valid r
  status_eq : it.status = .corruption "bad entry in block"

/-- The iterator is at the entry `e` with this key, at `p`. -/
structure Iter.At (r : Region) (p : ℕ) (e : Entry) (key : Bytes) (it : Iter) : Prop where
  valid : it.Valid r
  current_eq : it.current = p
  key_eq : it.key = key
  value_eq : it.value = some ⟨e.valuePtr, e.valueLength⟩

/-- Reading entry after entry from `p` on, with `key` to share, up to the first one for which `Stop`
holds, ends in `it`. -/
inductive Walked (r : Region) (status : Status) (Stop : Entry → Bytes → Prop) :
    ℕ → Bytes → Iter → Prop
  /-- There is no further entry. -/
  | exhausted {p : ℕ} {key : Bytes} {it : Iter} (hp : r.restarts ≤ p) (hvalid : ¬ it.Valid r)
      (hstatus : it.status = status) : Walked r status Stop p key it
  /-- A malformed entry ends the walk. -/
  | malformed {p : ℕ} {key : Bytes} {it : Iter} (hp : p < r.restarts) (hbad : r.Malformed p key)
      (hit : it.Corrupt r) : Walked r status Stop p key it
  /-- The walk has come to its entry. -/
  | stopped {p : ℕ} {key : Bytes} {e : Entry} {it : Iter}
      (he : wellFormedEntry r.data r.restarts p = some e) (hshared : e.shared ≤ key.length)
      (hstop : Stop e (r.keyOf e key)) (hit : it.At r p e (r.keyOf e key))
      (hstatus : it.status = status) : Walked r status Stop p key it
  /-- The walk goes on behind an entry that is not its own. -/
  | next {p : ℕ} {key : Bytes} {e : Entry} {it : Iter}
      (he : wellFormedEntry r.data r.restarts p = some e) (hshared : e.shared ≤ key.length)
      (hstop : ¬ Stop e (r.keyOf e key))
      (hrest : Walked r status Stop e.limit (r.keyOf e key) it) : Walked r status Stop p key it

/-- The binary search of `Seek` between two restart points: it ends at one, or (`none`) at the first
that it looks at and that has no well-formed entry which shares nothing. -/
inductive Searched (cmp : Bytes → Bytes → Ordering) (r : Region) (target : Bytes) :
    ℕ → ℕ → Option ℕ → Prop
  | found {left right : ℕ} (h : right ≤ left) : Searched cmp r target left right (some left)
  | malformed {left right p : ℕ} (hlt : left < right)
      (hp : r.getRestartPoint ((left + right + 1) / 2) = some p) (hbad : r.Malformed p []) :
      Searched cmp r target left right none
  | after {left right p : ℕ} {e : Entry} {found : Option ℕ} (hlt : left < right)
      (hp : r.getRestartPoint ((left + right + 1) / 2) = some p)
      (he : wellFormedEntry r.data r.restarts p = some e) (hshared : e.shared = 0)
      (hcmp : cmp (r.keyOf e []) target = .lt)
      (hrest : Searched cmp r target ((left + right + 1) / 2) right found) :
      Searched cmp r target left right found
  | before {left right p : ℕ} {e : Entry} {found : Option ℕ} (hlt : left < right)
      (hp : r.getRestartPoint ((left + right + 1) / 2) = some p)
      (he : wellFormedEntry r.data r.restarts p = some e) (hshared : e.shared = 0)
      (hcmp : cmp (r.keyOf e []) target ≠ .lt)
      (hrest : Searched cmp r target left ((left + right + 1) / 2 - 1) found) :
      Searched cmp r target left right found

/-- A walk from a restart point on. -/
def WalkedFrom (r : Region) (status : Status) (Stop : Entry → Bytes → Prop) (index : ℕ)
    (it : Iter) : Prop :=
  ∃ p, r.getRestartPoint index = some p ∧ Walked r status Stop p [] it

/-- What an operation makes of the iterator `it`. -/
def Does (cmp : Bytes → Bytes → Ordering) (r : Region) (it : Iter) : Cursor.Op Bytes → Iter → Prop
  | .seek target, it' => ∃ found, Searched cmp r target 0 (r.numRestarts - 1) found ∧
      match found with
      | none => it'.Corrupt r
      | some index => WalkedFrom r it.status (fun _ key => cmp key target ≠ .lt) index it'
  | .seekToFirst, it' => WalkedFrom r it.status (fun _ _ => True) 0 it'
  | .seekToLast, it' =>
      WalkedFrom r it.status (fun e _ => r.restarts ≤ e.limit) (r.numRestarts - 1) it'
  | .next, it' => ∃ p, it.nextEntryOffset = some p ∧
      Walked r it.status (fun _ _ => True) p it.key it'
  | .prev, it' => ∃ found, r.scanBack it.current it.restartIndex = some found ∧
      match found with
      | none => ¬ it'.Valid r ∧ it'.status = it.status
      | some index => WalkedFrom r it.status (fun e _ => it.current ≤ e.limit) index it'

namespace Iter

variable {r : Region} (hr : r.WellPlaced)

theorem corrupt_corruptionError (r : Region) : (corruptionError r).Corrupt r :=
  ⟨not_valid_corruptionError r, rfl⟩

/-- A walk from a restart point on starts with an empty key. -/
theorem walkedFrom_of_seek {it it' it'' : Iter} {i : ℕ} {Stop : Entry → Bytes → Prop}
    (h : it.seekToRestartPoint r i = some it')
    (hwalk : ∀ p, it'.nextEntryOffset = some p → Walked r it'.status Stop p it'.key it'') :
    WalkedFrom r it.status Stop i it'' := by
  rw [seekToRestartPoint, Option.bind_eq_bind, Option.bind_eq_some_iff] at h
  obtain ⟨p, hp, heq⟩ := h
  cases heq
  have hlt : p < 2 ^ 32 := by
    rw [Region.getRestartPoint] at hp
    split at hp
    · obtain ⟨bytes, -, rfl⟩ := Option.map_eq_some_iff.mp hp
      exact decodeFixed32_lt _
    · cases hp
  exact ⟨p, hp, hwalk p (congrArg some (Nat.mod_eq_of_lt hlt))⟩

include hr

/-- What `ParseNextKey` can do, given the offset it looks at. -/
theorem parseNextKey_cases {it it' : Iter} {p : ℕ} {more : Bool} (h : it.nextEntryOffset = some p)
    (hparse : it.parseNextKey wellFormedEntry r = some (more, it')) :
    (more = false ∧ ∀ Stop, Walked r it.status Stop p it.key it') ∨
      (more = true ∧ ∃ e, wellFormedEntry r.data r.restarts p = some e ∧
        e.shared ≤ it.key.length ∧ it'.At r p e (r.keyOf e it.key) ∧ it'.status = it.status ∧
        it'.nextEntryOffset = some e.limit) := by
  simp only [parseNextKey, h, Option.bind_eq_bind, Option.bind_some] at hparse
  by_cases hend : r.restarts ≤ p
  · simp only [if_pos hend, Option.some.injEq, Prod.mk.injEq] at hparse
    obtain ⟨rfl, rfl⟩ := hparse
    exact .inl ⟨rfl, fun _ => .exhausted hend (not_valid_invalidate r it) rfl⟩
  simp only [if_neg hend] at hparse
  have hp := Nat.lt_of_not_le hend
  cases he : wellFormedEntry r.data r.restarts p with
  | none =>
    simp only [he, Option.some.injEq, Prod.mk.injEq] at hparse
    obtain ⟨rfl, rfl⟩ := hparse
    have hbad : r.Malformed p it.key := fun e he' => by simp [he] at he'
    exact .inl ⟨rfl, fun _ => .malformed hp hbad (corrupt_corruptionError r)⟩
  | some e =>
    simp only [he] at hparse
    by_cases hshared : it.key.length < e.shared
    · simp only [if_pos hshared, Option.some.injEq, Prod.mk.injEq] at hparse
      obtain ⟨rfl, rfl⟩ := hparse
      have hbad : r.Malformed p it.key := fun e' he' => by
        cases he.symm.trans he'
        exact hshared
      exact .inl ⟨rfl, fun _ => .malformed hp hbad (corrupt_corruptionError r)⟩
    · simp only [if_neg hshared, hr.read_key he, Option.bind_some, Option.bind_eq_some_iff]
        at hparse
      obtain ⟨index, -, hparse⟩ := hparse
      cases hparse
      have hlimit : e.limit < 2 ^ 32 := by
        have := (wellFormedEntry_bounds he hr.le_length).2
        have := hr.length_lt
        have := hr.le_length
        omega
      exact .inr ⟨rfl, e, rfl, Nat.le_of_not_lt hshared, ⟨hp, rfl, rfl, rfl⟩, rfl,
        congrArg some (Nat.mod_eq_of_lt hlimit)⟩

/-- One entry. -/
theorem parseNextKey_walked {it it' : Iter} {p : ℕ} {more : Bool} (h : it.nextEntryOffset = some p)
    (hparse : it.parseNextKey wellFormedEntry r = some (more, it')) :
    Walked r it.status (fun _ _ => True) p it.key it' := by
  obtain ⟨-, hend⟩ | ⟨-, e, he, hshared, hat, hstatus, -⟩ := parseNextKey_cases hr h hparse
  · exact hend _
  · exact .stopped he hshared trivial hat hstatus

/-- The loops of `Prev` and `SeekToLast` walk to the entry that ends at the bound or behind it. -/
theorem parseUntil_walked {bound fuel : ℕ} {it it' : Iter} {p : ℕ}
    (h : it.nextEntryOffset = some p)
    (hparse : it.parseUntil wellFormedEntry r bound fuel = some it') :
    Walked r it.status (fun e _ => bound ≤ e.limit) p it.key it' := by
  induction fuel generalizing it p with
  | zero => cases hparse
  | succ fuel ih =>
    rw [parseUntil, Option.bind_eq_bind, Option.bind_eq_some_iff] at hparse
    obtain ⟨⟨more, it₁⟩, hone, hparse⟩ := hparse
    obtain ⟨rfl, hend⟩ | ⟨rfl, e, he, hshared, hat, hstatus, hnext⟩ := parseNextKey_cases hr h hone
    · cases hparse
      exact hend _
    · simp only [hnext, Option.bind_eq_bind, Option.bind_some] at hparse
      by_cases hbound : e.limit < bound
      · simp only [if_pos hbound] at hparse
        have hrest := ih hnext hparse
        rw [hstatus, hat.key_eq] at hrest
        exact .next he hshared (Nat.not_le_of_lt hbound) hrest
      · simp only [if_neg hbound] at hparse
        cases hparse
        exact .stopped he hshared (Nat.le_of_not_lt hbound) hat hstatus

/-- The linear search of `Seek` walks to the first key that is not before the target. -/
theorem parseUpTo_walked {cmp : Bytes → Bytes → Ordering} {target : Bytes} {fuel : ℕ}
    {it it' : Iter} {p : ℕ} (h : it.nextEntryOffset = some p)
    (hparse : it.parseUpTo cmp wellFormedEntry r target fuel = some it') :
    Walked r it.status (fun _ key => cmp key target ≠ .lt) p it.key it' := by
  induction fuel generalizing it p with
  | zero => cases hparse
  | succ fuel ih =>
    rw [parseUpTo, Option.bind_eq_bind, Option.bind_eq_some_iff] at hparse
    obtain ⟨⟨more, it₁⟩, hone, hparse⟩ := hparse
    obtain ⟨rfl, hend⟩ | ⟨rfl, e, he, hshared, hat, hstatus, hnext⟩ := parseNextKey_cases hr h hone
    · cases hparse
      exact hend _
    · dsimp only at hparse
      by_cases hcmp : cmp it₁.key target ≠ .lt
      · rw [if_pos hcmp] at hparse
        cases hparse
        rw [hat.key_eq] at hcmp
        exact .stopped he hshared hcmp hat hstatus
      · rw [if_neg hcmp] at hparse
        have hrest := ih hnext hparse
        rw [hstatus, hat.key_eq] at hrest
        rw [hat.key_eq] at hcmp
        exact .next he hshared hcmp hrest

/-- The binary search of `Seek`. -/
theorem bisect_searched {cmp : Bytes → Bytes → Ordering} {target : Bytes} {fuel left right : ℕ}
    {found : Option ℕ} (h : bisect cmp wellFormedEntry r target fuel left right = some found) :
    Searched cmp r target left right found := by
  induction fuel generalizing left right with
  | zero => cases h
  | succ fuel ih =>
    rw [bisect] at h
    by_cases hlt : left < right
    · rw [if_pos hlt, Option.bind_eq_bind, Option.bind_eq_some_iff] at h
      obtain ⟨p, hp, h⟩ := h
      cases he : wellFormedEntry r.data r.restarts p with
      | none =>
        simp only [he, Option.some.injEq] at h
        rw [← h]
        exact .malformed hlt hp fun e he' => by simp [he] at he'
      | some e =>
        simp only [he] at h
        by_cases hshared : e.shared = 0
        · have hkey : r.keyOf e [] = (r.data.drop e.keyPtr).take e.nonShared := by
            rw [Region.keyOf, List.take_nil, List.nil_append]
          simp only [hshared, ne_eq, not_true_eq_false, if_false, hr.read_key he,
            Option.bind_eq_bind, Option.bind_some, ← hkey] at h
          by_cases hcmp : cmp (r.keyOf e []) target = .lt
          · rw [if_pos hcmp] at h
            exact .after hlt hp he hshared hcmp (ih h)
          · rw [if_neg hcmp] at h
            exact .before hlt hp he hshared hcmp (ih h)
        · simp only [ne_eq, hshared, not_false_eq_true, if_true, Option.some.injEq] at h
          rw [← h]
          refine .malformed hlt hp fun e' he' => ?_
          cases he.symm.trans he'
          exact Nat.pos_of_ne_zero hshared
    · rw [if_neg hlt, Option.some.injEq] at h
      rw [← h]
      exact .found (Nat.le_of_not_lt hlt)

/-- **What each operation does**, if it looks for well-formed entries. -/
theorem does_of_step {cmp : Bytes → Bytes → Ordering} {it it' : Iter} {op : Cursor.Op Bytes}
    (h : it.step cmp wellFormedEntry r op = some it') : Does cmp r it op it' := by
  cases op with
  | seek target =>
    simp only [step, seek, Option.bind_eq_bind, Option.bind_eq_some_iff] at h
    obtain ⟨found, hbisect, h⟩ := h
    refine ⟨found, bisect_searched hr hbisect, ?_⟩
    cases found with
    | none =>
      cases h
      exact corrupt_corruptionError r
    | some left =>
      simp only [Option.bind_eq_some_iff] at h
      obtain ⟨it₁, hseek, hparse⟩ := h
      exact walkedFrom_of_seek hseek fun p hp => parseUpTo_walked hr hp hparse
  | seekToFirst =>
    simp only [step, seekToFirst, Option.bind_eq_bind, Option.bind_eq_some_iff] at h
    obtain ⟨it₁, hseek, ⟨more, it₂⟩, hparse, heq⟩ := h
    cases heq
    exact walkedFrom_of_seek hseek fun p hp => parseNextKey_walked hr hp hparse
  | seekToLast =>
    simp only [step, seekToLast, Option.bind_eq_bind, Option.bind_eq_some_iff] at h
    obtain ⟨it₁, hseek, hparse⟩ := h
    exact walkedFrom_of_seek hseek fun p hp => parseUntil_walked hr hp hparse
  | next =>
    rw [step, next] at h
    split at h
    · simp only [Option.bind_eq_bind, Option.bind_eq_some_iff] at h
      obtain ⟨⟨more, it₁⟩, hparse, heq⟩ := h
      cases heq
      have hnext := hparse
      rw [parseNextKey, Option.bind_eq_bind, Option.bind_eq_some_iff] at hnext
      obtain ⟨p, hp, -⟩ := hnext
      exact ⟨p, hp, parseNextKey_walked hr hp hparse⟩
    · cases h
  | prev =>
    rw [step, prev] at h
    split at h
    · simp only [Option.bind_eq_bind, Option.bind_eq_some_iff] at h
      obtain ⟨found, hscan, h⟩ := h
      refine ⟨found, hscan, ?_⟩
      cases found with
      | none =>
        cases h
        exact ⟨not_valid_invalidate r it, rfl⟩
      | some index =>
        simp only [Option.bind_eq_some_iff] at h
        obtain ⟨it₁, hseek, hparse⟩ := h
        exact walkedFrom_of_seek hseek fun p hp => parseUntil_walked hr hp hparse
    · cases h

end Iter

/-! ### Every run -/

/-- The states of the iterator that `NewIterator` gives out for a block with these contents. -/
inductive Reachable (cmp : Bytes → Bytes → Ordering) (contents : Bytes) : AnyIter → Prop
  | start : Reachable cmp contents (newIterator (new contents))
  | step {it it' : AnyIter} {op : Cursor.Op Bytes} (h : Reachable cmp contents it)
      (hstep : it.step cmp decodeEntry op = some it') : Reachable cmp contents it'

/-- The value that a valid iterator exposes lies in its block. -/
def AnyIter.ValueInBlock (contents : Bytes) : AnyIter → Prop
  | .empty _ => True
  | .entries r it => r.data = contents ∧
    (it.Valid r → ∃ v, it.value = some v ∧ v.offset + v.size ≤ contents.length)

/-- What an operation makes of any iterator. An empty one stays as it is. -/
def AnyIter.Does (cmp : Bytes → Bytes → Ordering) : AnyIter → Cursor.Op Bytes → AnyIter → Prop
  | .empty s, _, it' => it' = .empty s
  | .entries r it, op, it' => ∃ it₁, it' = .entries r it₁ ∧ Block.Does cmp r it op it₁

/-- Iterating over these contents is safe: from every state that is reached, every operation returns
(no access leaves the block, no restart index is out of range, no loop runs on). It does what it
would do if the well-formed entries were recognized and no others: it walks over them, and at a
malformed one it leaves the iterator invalid, with the status of a corruption. -/
def Safe (cmp : Bytes → Bytes → Ordering) (contents : Bytes) : Prop :=
  ∀ it, Reachable cmp contents it → it.ValueInBlock contents ∧
    ∀ op : Cursor.Op Bytes, (op = .next ∨ op = .prev → it.Valid) →
      ∃ it', it.step cmp decodeEntry op = some it' ∧ it.step cmp wellFormedEntry op = some it' ∧
        it.Does cmp op it'

/-- Wherever the iterator can come to look for an entry, the lengths of the key and of the value can
be added in 32 bits. -/
def LengthsFit (contents : Bytes) : Prop :=
  ∀ r it, newIterator (new contents) = .entries r it → r.LengthsFit

/-- What `NewIterator` makes of any contents. -/
theorem newIterator_entries {contents : Bytes} (hsize : contents.length < 2 ^ 32) {r : Region}
    {it : Iter} (h : newIterator (new contents) = .entries r it) :
    r.WellPlaced ∧ r.data = contents ∧ it = .new r := by
  rw [newIterator] at h
  split at h
  · cases h
  split at h
  · cases h
  next hsize' hnum =>
  cases h
  have hdata : (new contents).data = contents := by
    rw [new]
    split
    · rfl
    · dsimp only
      split <;> rfl
  rw [hdata] at hnum ⊢
  refine ⟨⟨Nat.pos_of_ne_zero hnum, ?_, hsize⟩, rfl, rfl⟩
  rw [new] at hsize' ⊢
  split at hsize'
  · exact absurd (Nat.zero_lt_succ 3) hsize'
  next hlen =>
  rw [if_neg hlen]
  dsimp only at hsize' ⊢
  split at hsize'
  · exact absurd (Nat.zero_lt_succ 3) hsize'
  next hmax =>
  rw [if_neg hmax]
  dsimp only
  have hn : (1 + numRestarts contents) % 2 ^ 32 = 1 + numRestarts contents :=
    Nat.mod_eq_of_lt (by omega)
  rw [hn, Nat.mod_eq_of_lt (by omega)]
  omega

/-- What holds in every state that is reached. -/
def AnyIter.Sound (contents : Bytes) : AnyIter → Prop
  | .empty _ => True
  | .entries r it => r.WellPlaced ∧ r.LengthsFit ∧ r.data = contents ∧ it.Sound r

theorem Reachable.sound {cmp : Bytes → Bytes → Ordering} {contents : Bytes}
    (hsize : contents.length < 2 ^ 32) (hfit : LengthsFit contents) {it : AnyIter}
    (h : Reachable cmp contents it) : it.Sound contents := by
  induction h with
  | start =>
    cases hnew : newIterator (new contents) with
    | empty s => trivial
    | entries r it =>
      obtain ⟨hr, hdata, rfl⟩ := newIterator_entries hsize hnew
      exact ⟨hr, hfit r _ hnew, hdata, fun hv => absurd hv (Nat.lt_irrefl _)⟩
  | @step it it' op h hstep ih =>
    cases it with
    | empty s =>
      have hempty : it' = .empty s := by
        cases op <;> simp [AnyIter.step] at hstep <;> exact hstep.symm
      rw [hempty]
      trivial
    | entries r it =>
      obtain ⟨hr, hfit, hdata, hsound⟩ := ih
      obtain ⟨it₁, hit₁, rfl⟩ := Option.map_eq_some_iff.mp hstep
      obtain ⟨it₂, hcode, -, hsound'⟩ := Iter.step_safe hr hfit cmp hsound op
        (AnyIter.valid_of_step hstep)
      cases hit₁.symm.trans hcode
      exact ⟨hr, hfit, hdata, hsound'⟩

/-- **Iterating over any contents below `2 ^ 32` bytes is safe where the lengths fit.** -/
theorem safe_of_lengthsFit (cmp : Bytes → Bytes → Ordering) {contents : Bytes}
    (hsize : contents.length < 2 ^ 32) (hfit : LengthsFit contents) : Safe cmp contents := by
  intro it hit
  have hsound := hit.sound hsize hfit
  cases it with
  | empty s =>
    refine ⟨trivial, ?_⟩
    rintro (target | _ | _ | _ | _) hop
    · exact ⟨_, rfl, rfl, rfl⟩
    · exact ⟨_, rfl, rfl, rfl⟩
    · exact ⟨_, rfl, rfl, rfl⟩
    · exact absurd (hop (.inl rfl)) id
    · exact absurd (hop (.inr rfl)) id
  | entries r it =>
    obtain ⟨hr, hfits, rfl, hsound⟩ := hsound
    refine ⟨⟨rfl, fun hv => ?_⟩, fun op hop => ?_⟩
    · obtain ⟨e, he, hvalue, -⟩ := hsound hv
      exact ⟨_, hvalue, (wellFormedEntry_bounds he hr.le_length).2.trans hr.le_length⟩
    · obtain ⟨it', hcode, hspec, -⟩ := Iter.step_safe hr hfits cmp hsound op hop
      refine ⟨.entries r it', ?_, ?_, it', rfl, Iter.does_of_step hr hspec⟩
      · rw [AnyIter.step, hcode]
        rfl
      · rw [AnyIter.step, hspec]
        rfl

/-- A block with one entry, from `k` to `v`. -/
def oneEntry : Bytes := [0, 1, 1, 107, 118, 0, 0, 0, 0, 1, 0, 0, 0]

theorem safe_oneEntry : oneEntry.length < 2 ^ 32 ∧ LengthsFit oneEntry ∧
    Safe Slice.compare oneEntry := by
  have hfit : LengthsFit oneEntry := by
    rintro r it h
    cases h
    -- there is nothing behind the entry
    have hall : ∀ p k, Reached ⟨oneEntry, 5, 1⟩ p k → p = 0 ∨ p = 5 := by
      intro p k hp
      induction hp with
      | @restart index p h =>
        rw [Region.getRestartPoint] at h
        split at h
        · next hindex =>
          obtain rfl : index = 0 := Nat.lt_one_iff.mp hindex
          cases h
          exact .inl rfl
        · cases h
      | @next p k e hp he hshared ih =>
        rcases ih with rfl | rfl
        · cases he
          exact .inr rfl
        · cases he
    intro p k shared nonShared valueLength rest hp hlengths
    rcases hall p k hp with rfl | rfl
    · cases hlengths
      decide
    · cases hlengths
  exact ⟨by decide, hfit, safe_of_lengthsFit _ (by decide) hfit⟩

/-- The key of its only entry claims to be `2 ^ 32 - 1` bytes long, and the value one. -/
def wrapping : Bytes := [0, 255, 255, 255, 255, 15, 1, 0, 0, 0, 0, 1, 0, 0, 0]

/-- **The lengths add up to zero**, and `SeekToFirst` goes on to copy the key. -/
theorem not_safe_wrapping : wrapping.length < 2 ^ 32 ∧ ¬ Safe Slice.compare wrapping := by
  refine ⟨by decide, fun h => ?_⟩
  obtain ⟨it', hstep, -⟩ := (h _ .start).2 .seekToFirst (by simp)
  have hnone : (newIterator (new wrapping)).step Slice.compare decodeEntry .seekToFirst = none := by
    decide
  rw [hnone] at hstep
  cases hstep

end Block

end Squirrel
