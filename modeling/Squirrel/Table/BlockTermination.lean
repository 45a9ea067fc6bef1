import Squirrel.Table.BlockSafety

/-!
# The loops end on any contents

`DecodeEntry` adds two lengths in 32 bits, so that an entry can claim more bytes than there are. The
offset behind it is made from the same lengths and in 32 bits as well: what wraps in the one wraps
in the other, and the offset is as far behind the current one as the check of `DecodeEntry` allows.
That is why the loops end even on contents for which they copy keys from outside of the block.

To see what the iterator does there, the block is put into a memory that goes on behind it. A key
has less than `2 ^ 32` bytes and starts in the block, so `2 ^ 32` bytes are enough, and they can be
any.

## Main results

* `Iter.parseNextKey_advances` — from any state: the offset of the next entry grows, and stays in
  front of the restart points
* `terminates` — every run, from the iterator of any block
-/

namespace Squirrel

open Coding

namespace Block

/-! ### Entries -/

/-- The lengths are 32-bit numbers. -/
theorem decodeLengths_lt {p rest : Bytes} {s n v : ℕ}
    (h : decodeLengths p = some ((s, n, v), rest)) : n < 2 ^ 32 := by
  rw [decodeLengths] at h
  split at h
  · cases h
  · split at h
    · cases h
      exact lt_trans (UInt8.toNat_lt _) (by norm_num)
    · simp only [Option.bind_eq_bind, Option.bind_eq_some_iff, Option.some.injEq] at h
      obtain ⟨⟨s, p₁⟩, -, ⟨n, p₂⟩, hn, ⟨v, p₃⟩, -, heq⟩ := h
      cases heq
      exact getVarint32Ptr_lt hn

/-- `DecodeEntry` counts the lengths in 32 bits, and in 32 bits they are in front of the limit. -/
theorem decodeEntry_bounds {data : Bytes} {limit p : ℕ} {e : Entry}
    (h : decodeEntry data limit p = some e) (hlimit : limit ≤ data.length)
    (hlt : limit < 2 ^ 32) :
    p + 3 ≤ e.keyPtr ∧ e.keyPtr + (e.nonShared + e.valueLength) % 2 ^ 32 ≤ limit ∧
      e.nonShared < 2 ^ 32 := by
  rw [decodeEntry] at h
  split at h
  · cases h
  · next s n v rest hlengths =>
    obtain ⟨front, hfront, heq⟩ := decodeLengths_suffix hlengths
    have hlen := congrArg List.length heq
    rw [List.length_drop, List.length_take, Nat.min_eq_left hlimit, List.length_append] at hlen
    have hn := decodeLengths_lt hlengths
    split at h
    · cases h
    · next hfits =>
      cases h
      rw [Nat.mod_eq_of_lt (by omega)] at hfits
      dsimp only
      omega

/-! ### One entry -/

namespace Iter

/-- **A successful `ParseNextKey` moves on, and not past the restart points.** The iterator can be
in any state. -/
theorem parseNextKey_advances {r : Region} (hle : r.restarts ≤ r.data.length)
    (hlt : r.restarts < 2 ^ 32) {it it' : Iter}
    (h : it.parseNextKey decodeEntry r = some (true, it')) :
    ∃ p p', it.nextEntryOffset = some p ∧ it'.nextEntryOffset = some p' ∧ p < p' ∧
      p' ≤ r.restarts := by
  simp only [parseNextKey, Option.bind_eq_bind, Option.bind_eq_some_iff] at h
  obtain ⟨p, hp, h⟩ := h
  split at h
  · cases h
  split at h
  · cases h
  next e he =>
  split at h
  · cases h
  simp only [Option.bind_eq_some_iff, Option.some.injEq, Prod.mk.injEq, true_and] at h
  obtain ⟨delta, -, index, -, rfl⟩ := h
  obtain ⟨hptr, hlimit, -⟩ := decodeEntry_bounds he hle hlt
  refine ⟨p, _, hp, rfl, ?_, ?_⟩
  · simp only [Entry.valuePtr]
    omega
  · simp only [Entry.valuePtr]
    omega

end Iter

/-- The restart points are behind the entries, and the memory goes on for `2 ^ 32` bytes. -/
structure Region.InMemory (r : Region) : Prop where
  numRestarts_pos : 0 < r.numRestarts
  restarts_le : r.restarts + r.numRestarts * 4 ≤ r.data.length
  restarts_lt : r.restarts < 2 ^ 32
  room : r.restarts + 2 ^ 32 ≤ r.data.length

namespace Iter

/-- The iterator will look for an entry at `p` next, wherever that is. -/
structure Placed (r : Region) (it : Iter) (p : ℕ) : Prop where
  restartIndex_lt : it.restartIndex < r.numRestarts
  nextEntryOffset_eq : it.nextEntryOffset = some p

/-- What holds between two operations. -/
def Kept (r : Region) (it : Iter) : Prop := it.Valid r → ∃ p, it.Placed r p

variable {r : Region} (hr : r.InMemory)

include hr

/-- A key can be copied, from wherever it is. -/
theorem exists_read_key {p : ℕ} {e : Entry} (he : decodeEntry r.data r.restarts p = some e) :
    ∃ key, r.read e.keyPtr e.nonShared = some key := by
  have hroom := hr.room
  obtain ⟨-, hlimit, hlt⟩ := decodeEntry_bounds he (by omega) hr.restarts_lt
  exact ⟨_, by rw [Region.read, if_pos (by omega)]⟩

theorem parseNextKey_returns {it : Iter} {p : ℕ} (h : it.Placed r p) :
    ∃ more it', it.parseNextKey decodeEntry r = some (more, it') ∧ it'.Kept r ∧
      (more = true → ∃ p', it'.Placed r p' ∧ p < p' ∧ p' ≤ r.restarts) := by
  by_cases hend : r.restarts ≤ p
  · refine ⟨false, it.invalidate r, ?_, fun hv => absurd hv (not_valid_invalidate r it), by simp⟩
    simp [parseNextKey, h.nextEntryOffset_eq, hend]
  cases he : decodeEntry r.data r.restarts p with
  | none =>
    refine ⟨false, corruptionError r, ?_, fun hv => absurd hv (not_valid_corruptionError r),
      by simp⟩
    simp [parseNextKey, h.nextEntryOffset_eq, hend, he]
  | some e =>
    by_cases hshared : it.key.length < e.shared
    · refine ⟨false, corruptionError r, ?_, fun hv => absurd hv (not_valid_corruptionError r),
        by simp⟩
      simp [parseNextKey, h.nextEntryOffset_eq, hend, he, hshared]
    obtain ⟨key, hkey⟩ := exists_read_key hr he
    obtain ⟨index, hindex, hlt⟩ := Region.exists_skipRestarts hr.restarts_le p
      (r.numRestarts - it.restartIndex) h.restartIndex_lt
    have hparse : it.parseNextKey decodeEntry r = some (true, { it with
        current := p
        restartIndex := index
        key := it.key.take e.shared ++ key
        value := some ⟨e.valuePtr, e.valueLength⟩ }) := by
      simp [parseNextKey, h.nextEntryOffset_eq, hend, he, hshared, hkey, hindex]
    obtain ⟨p₀, p', hp₀, hp', hgrows, hle⟩ := parseNextKey_advances
      (le_trans (Nat.le_add_right _ _) hr.restarts_le) hr.restarts_lt hparse
    cases hp₀.symm.trans h.nextEntryOffset_eq
    exact ⟨true, _, hparse, fun _ => ⟨p', hlt, hp'⟩, fun _ => ⟨p', ⟨hlt, hp'⟩, hgrows, hle⟩⟩

/-- The decoder of the source, with nothing to compare it with. -/
theorem walk_returns : Walk decodeEntry decodeEntry r (fun p it => it.Placed r p) (Kept r) where
  numRestarts_pos := hr.numRestarts_pos
  restarts_le := hr.restarts_le
  nextEntryOffset_eq := fun h => h.nextEntryOffset_eq
  restartIndex_lt := fun h => h.restartIndex_lt
  ready_of_valid := fun hkept hvalid => hkept hvalid
  done_of_not_valid := fun h hvalid => absurd hvalid h
  seekToRestartPoint := by
    intro it i hi
    obtain ⟨p, hp, hlt⟩ := Region.exists_restart hr.restarts_le hi
    refine ⟨{ it with key := [], restartIndex := i, value := some ⟨p, 0⟩ }, p,
      by rw [seekToRestartPoint, hp]; rfl, hi, ?_⟩
    exact congrArg some (Nat.mod_eq_of_lt hlt)
  probe := by
    intro i p hp
    exact ⟨rfl, fun e he => exists_read_key hr he⟩
  parseNextKey := by
    intro p it h
    obtain ⟨more, it', hparse, hkept, hmore⟩ := parseNextKey_returns hr h
    exact ⟨more, it', hparse, hparse, hkept, hmore⟩

end Iter

/-! ### Every run -/

/-- The iterator of a block, in a memory that goes on behind the block. -/
def AnyIter.inMemory (behind : Bytes) : AnyIter → AnyIter
  | .empty s => .empty s
  | .entries r it => .entries { r with data := r.data ++ behind } it

/-- The states of the iterator that `NewIterator` gives out for a block with these contents, with
these bytes behind the block. -/
inductive ReachableInMemory (cmp : Bytes → Bytes → Ordering) (contents behind : Bytes) :
    AnyIter → Prop
  | start : ReachableInMemory cmp contents behind ((newIterator (new contents)).inMemory behind)
  | step {it it' : AnyIter} {op : Cursor.Op Bytes} (h : ReachableInMemory cmp contents behind it)
      (hstep : it.step cmp decodeEntry op = some it') : ReachableInMemory cmp contents behind it'

/-- What holds in every state that is reached. -/
def AnyIter.Kept : AnyIter → Prop
  | .empty _ => True
  | .entries r it => r.InMemory ∧ it.Kept r

theorem kept_start {contents behind : Bytes} (hsize : contents.length < 2 ^ 32)
    (hbehind : 2 ^ 32 ≤ behind.length) : ((newIterator (new contents)).inMemory behind).Kept := by
  cases hnew : newIterator (new contents) with
  | empty s => trivial
  | entries r it =>
    obtain ⟨hr, rfl, rfl⟩ := newIterator_entries hsize hnew
    have hle := hr.restarts_le
    refine ⟨⟨hr.numRestarts_pos, ?_, ?_, ?_⟩, fun hv => absurd hv (Nat.lt_irrefl _)⟩
    · rw [List.length_append]
      exact le_trans hle (Nat.le_add_right _ _)
    · dsimp only
      omega
    · rw [List.length_append]
      dsimp only
      omega

theorem AnyIter.Kept.step {cmp : Bytes → Bytes → Ordering} {it : AnyIter} (hit : it.Kept)
    (op : Cursor.Op Bytes) (hop : op = .next ∨ op = .prev → it.Valid) :
    ∃ it', it.step cmp decodeEntry op = some it' ∧ it'.Kept := by
  cases it with
  | empty s =>
    rcases op with target | _ | _ | _ | _
    · exact ⟨_, rfl, trivial⟩
    · exact ⟨_, rfl, trivial⟩
    · exact ⟨_, rfl, trivial⟩
    · exact absurd (hop (.inl rfl)) id
    · exact absurd (hop (.inr rfl)) id
  | entries r it =>
    obtain ⟨hr, hkept⟩ := hit
    obtain ⟨it', hstep, -, hkept'⟩ := (Iter.walk_returns hr).step cmp hkept op hop
    exact ⟨.entries r it', by rw [AnyIter.step, hstep]; rfl, hr, hkept'⟩

theorem ReachableInMemory.kept {cmp : Bytes → Bytes → Ordering} {contents behind : Bytes}
    (hsize : contents.length < 2 ^ 32) (hbehind : 2 ^ 32 ≤ behind.length) {it : AnyIter}
    (h : ReachableInMemory cmp contents behind it) : it.Kept := by
  induction h with
  | start => exact kept_start hsize hbehind
  | step h hstep ih =>
    obtain ⟨it₁, hit₁, hkept⟩ := ih.step _ (AnyIter.valid_of_step hstep)
    cases hit₁.symm.trans hstep
    exact hkept

/-- **Iterating over any contents below `2 ^ 32` bytes ends.** From every state that is reached,
every operation returns, and a valid iterator is in one of the restart blocks. The measure is the
offset of the next entry; the loop over the restart points ends by its own condition. -/
theorem terminates (cmp : Bytes → Bytes → Ordering) {contents behind : Bytes}
    (hsize : contents.length < 2 ^ 32) (hbehind : 2 ^ 32 ≤ behind.length) {it : AnyIter}
    (hit : ReachableInMemory cmp contents behind it) :
    (∀ op : Cursor.Op Bytes, (op = .next ∨ op = .prev → it.Valid) →
      ∃ it', it.step cmp decodeEntry op = some it') ∧
    ∀ r cur, it = .entries r cur →
      (cur.Valid r → cur.restartIndex < r.numRestarts) ∧
      (∀ a b : Iter, a.parseNextKey decodeEntry r = some (true, b) →
        ∃ p p', a.nextEntryOffset = some p ∧ b.nextEntryOffset = some p' ∧ p < p' ∧
          p' ≤ r.restarts) ∧
      ∀ current index fuel, r.numRestarts ≤ index + fuel → ∀ k,
        r.skipRestarts current (fuel + k) index = r.skipRestarts current fuel index := by
  have hkept := hit.kept hsize hbehind
  constructor
  · intro op hop
    obtain ⟨it', hstep, -⟩ := hkept.step op hop
    exact ⟨it', hstep⟩
  · rintro r cur rfl
    obtain ⟨hr, hcur⟩ := hkept
    refine ⟨fun hvalid => ?_, fun a b h => ?_, fun current index fuel h k => ?_⟩
    · obtain ⟨p, hplaced⟩ := hcur hvalid
      exact hplaced.restartIndex_lt
    · exact Iter.parseNextKey_advances (le_trans (Nat.le_add_right _ _) hr.restarts_le)
        hr.restarts_lt h
    · exact Region.skipRestarts_eq current h k

/-- The block whose only key claims `2 ^ 32 - 1` bytes: `SeekToFirst` returns. -/
theorem terminates_wrapping :
    ∃ it', ((newIterator (new wrapping)).inMemory (List.replicate (2 ^ 32) 0)).step Slice.compare
      decodeEntry .seekToFirst = some it' := by
  have hbehind : 2 ^ 32 ≤ (List.replicate (2 ^ 32) (0 : UInt8)).length :=
    Nat.le_of_eq List.length_replicate.symm
  generalize List.replicate (2 ^ 32) (0 : UInt8) = behind at hbehind ⊢
  refine (terminates Slice.compare (by decide) hbehind .start).1 .seekToFirst ?_
  rintro (h | h) <;> cases h

end Block

end Squirrel
