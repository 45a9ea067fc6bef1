import Squirrel.Table.FilterBlock
import Squirrel.Util.Bloom

/-!
# Reading a filter block of unknown origin

Everything a `FilterBlockReader` uses comes from the block: the shift that takes an offset to a
range, the place of the array of offsets, the filter's bounds, the number of probes. Here the reader
is run with each access checked. `Checked` computations have no result when a byte outside a slice
is read, a 64-bit number is shifted by 64 or more, or a remainder by zero is taken.

The comparisons in the reader are enough to keep all reads inside, and the Bloom policy is safe on
any filter. The shift is not checked: `base_lg_` is the last byte of the block, taken as a signed
number and widened, and `KeyMayMatch` shifts by it before it looks at anything else, even for a
block that the constructor has found to be malformed.

## Main results

* `BloomFilterPolicy.keyMayMatchChecked_eq` — the policy is safe on every filter
* `FilterBlockReader.keyMayMatchChecked_eq` — the reader is safe as far as its shift is
* `FilterBlockReader.answers_iff` — so a block is read safely exactly if its last byte is below 64
-/

namespace Squirrel

open Coding BitArray

/-! ### Checked accesses -/

/-- A byte inside a slice. -/
def readByte (slice : Bytes) (i : ℕ) : Option UInt8 := slice[i]?

/-- `DecodeFixed32` of four bytes inside a slice. -/
def readFixed32 (slice : Bytes) (i : ℕ) : Option ℕ :=
  if i + 4 ≤ slice.length then some (decodeFixed32 (slice.drop i)) else none

/-- A slice of a slice. -/
def readSlice (slice : Bytes) (i n : ℕ) : Option Bytes :=
  if i + n ≤ slice.length then some ((slice.drop i).take n) else none

/-- `x >> s` for a 64-bit `x`. -/
def shiftRight64 (x s : ℕ) : Option ℕ := if s < 64 then some (x >>> s) else none

/-- `x % m`. -/
def remainder (x m : ℕ) : Option ℕ := if m = 0 then none else some (x % m)

theorem readByte_eq {slice : Bytes} {i : ℕ} (h : i < slice.length) :
    readByte slice i = some (slice.getD i 0) := by
  rw [readByte, List.getElem?_eq_getElem h, List.getD_eq_getElem _ _ h]

/-! ### The Bloom policy -/

namespace BloomFilterPolicy

/-- `testProbes`, checked. -/
def testProbesChecked (array : Bytes) (bits : ℕ) (delta : BitVec 32) : ℕ → BitVec 32 → Option Bool
  | 0, _ => some true
  | j + 1, h => do
    let bitpos ← remainder h.toNat bits
    let byte ← readByte array (bitpos / 8)
    if byte &&& mask bitpos = 0 then return false
    testProbesChecked array bits delta j (h + delta)

/-- `KeyMayMatch`, checked. -/
def keyMayMatchChecked (key bloomFilter : Bytes) : Option Bool := do
  let len := bloomFilter.length
  if len < 2 then return false
  let bits := (len - 1) * 8
  let k := charToSizeT (← readByte bloomFilter (len - 1))
  if 30 < k then return true
  testProbesChecked bloomFilter bits (delta (bloomHash key)) k (bloomHash key)

theorem testProbesChecked_eq {array : Bytes} {bits j : ℕ} {delta h : BitVec 32} (hpos : 0 < bits)
    (hbits : bits ≤ array.length * 8) :
    testProbesChecked array bits delta j h = some (testProbes array bits delta j h) := by
  induction j generalizing h with
  | zero => rfl
  | succ j ih =>
    have hlt : h.toNat % bits < bits := Nat.mod_lt _ hpos
    rw [testProbesChecked, testProbes, remainder, if_neg (by omega), Option.bind_eq_bind,
      Option.bind_some, readByte_eq (by omega), Option.bind_eq_bind, Option.bind_some, ih, test]
    generalize array.getD (h.toNat % bits / 8) 0 &&& mask (h.toNat % bits) = bit
    by_cases hbit : bit = 0
    · simp [hbit]
    · simp [hbit]

/-- **The policy is safe on every filter.** -/
theorem keyMayMatchChecked_eq (p : BloomFilterPolicy) (key bloomFilter : Bytes) :
    keyMayMatchChecked key bloomFilter = some (p.keyMayMatch key bloomFilter) := by
  rw [keyMayMatchChecked, keyMayMatch]
  dsimp only
  split
  · rfl
  · next hlen =>
    rw [readByte_eq (by omega), Option.bind_eq_bind, Option.bind_some]
    split
    · rfl
    · exact testProbesChecked_eq (by omega) (by omega)

end BloomFilterPolicy

/-! ### The reader -/

namespace FilterBlockReader

/-- The constructor, checked. -/
def newChecked (policy : FilterPolicy) (contents : Bytes) : Option FilterBlockReader := do
  let n := contents.length
  if n < 5 then return ⟨policy, [], 0, 0, 0⟩
  let baseLg := charToSizeT (← readByte contents (n - 1))
  let lastWord ← readFixed32 contents (n - 5)
  if n - 5 < lastWord then return ⟨policy, [], 0, 0, baseLg⟩
  return ⟨policy, contents, lastWord, (n - 5 - lastWord) / 4, baseLg⟩

/-- `KeyMayMatch` with the Bloom policy, checked. -/
def keyMayMatchChecked (f : FilterBlockReader) (blockOffset : ℕ) (key : Bytes) : Option Bool := do
  let index ← shiftRight64 blockOffset f.baseLg
  if index < f.num then
    let start ← readFixed32 f.contents (f.offset + index * 4)
    let limit ← readFixed32 f.contents (f.offset + index * 4 + 4)
    if start ≤ limit ∧ limit ≤ f.offset then
      BloomFilterPolicy.keyMayMatchChecked key (← readSlice f.contents start (limit - start))
    else if start = limit then return false
    else return true
  else return true

/-! ### What is safe -/

/-- The constructor reads inside the block. -/
theorem newChecked_eq (policy : FilterPolicy) (contents : Bytes) :
    newChecked policy contents = some (new policy contents) := by
  rw [newChecked, new]
  dsimp only
  split
  · rfl
  · next hlen =>
    rw [readByte_eq (by omega), Option.bind_eq_bind, Option.bind_some, readFixed32,
      if_pos (by omega), Option.bind_eq_bind, Option.bind_some]
    split
    · rfl
    · rfl

/-- The array of offsets and the word behind it are inside the block. -/
theorem new_num_le (policy : FilterPolicy) (contents : Bytes) {i : ℕ}
    (hi : i < (new policy contents).num) :
    (new policy contents).offset + i * 4 + 8 ≤ (new policy contents).contents.length := by
  rw [new] at hi ⊢
  dsimp only at hi ⊢
  split at hi
  · exact absurd hi (Nat.not_lt_zero i)
  · next hlen =>
    rw [if_neg hlen]
    split at hi
    · exact absurd hi (Nat.not_lt_zero i)
    · next hword =>
      rw [if_neg hword]
      dsimp only at hi ⊢
      omega

/-- **The reader is safe as far as its shift is.** -/
theorem keyMayMatchChecked_eq (p : BloomFilterPolicy) (contents : Bytes) (blockOffset : ℕ)
    (key : Bytes) :
    (new p.toFilterPolicy contents).keyMayMatchChecked blockOffset key
      = if (new p.toFilterPolicy contents).baseLg < 64
        then some ((new p.toFilterPolicy contents).keyMayMatch blockOffset key) else none := by
  have hnum := fun i hi => new_num_le p.toFilterPolicy contents (i := i) hi
  have hpolicy : (new p.toFilterPolicy contents).policy = p.toFilterPolicy := by
    rw [new]
    dsimp only
    split
    · rfl
    · split
      · rfl
      · rfl
  generalize new p.toFilterPolicy contents = f at hnum hpolicy
  rw [keyMayMatchChecked, shiftRight64]
  split
  · rw [Option.bind_eq_bind, Option.bind_some, keyMayMatch]
    dsimp only
    generalize blockOffset >>> f.baseLg = index
    split
    · next hindex =>
      have hle := hnum index hindex
      rw [readFixed32, if_pos (by omega), Option.bind_eq_bind, Option.bind_some, readFixed32,
        if_pos (by omega), Option.bind_some]
      generalize decodeFixed32 (f.contents.drop (f.offset + index * 4)) = start
      generalize decodeFixed32 (f.contents.drop (f.offset + index * 4 + 4)) = limit
      split
      · next hbounds =>
        rw [readSlice, if_pos (by omega), Option.bind_some, hpolicy]
        exact p.keyMayMatchChecked_eq key _
      · split
        · rfl
        · rfl
    · rfl
  · rfl

theorem new_baseLg_lt_iff (policy : FilterPolicy) (contents : Bytes) :
    (new policy contents).baseLg < 64 ↔
      contents.length < 5 ∨ (contents.getD (contents.length - 1) 0).toNat < 64 := by
  have hchar : ∀ c : UInt8, charToSizeT c < 64 ↔ c.toNat < 64 := by
    intro c
    rw [charToSizeT]
    split <;> omega
  rw [new]
  dsimp only
  split
  · next hlen => simp [hlen]
  · next hlen =>
    rw [or_iff_right hlen, ← hchar]
    split
    · rfl
    · rfl

/-! ### When the answer must be true -/

/-- The block is too short: for its last five bytes, or for the array of offsets to start where they
say. -/
def TooShort (contents : Bytes) : Prop :=
  contents.length < 5 ∨
    contents.length - 5 < decodeFixed32 (contents.drop (contents.length - 5))

/-- The bounds of the filter for this offset are no bounds: the first is behind the second, or the
second is past the start of the array of offsets and not the first. -/
def Inconsistent (f : FilterBlockReader) (blockOffset : ℕ) : Prop :=
  let index := blockOffset >>> f.baseLg
  let start := decodeFixed32 (f.contents.drop (f.offset + index * 4))
  let limit := decodeFixed32 (f.contents.drop (f.offset + index * 4 + 4))
  index < f.num ∧ (limit < start ∨ f.offset < limit ∧ start ≠ limit)

theorem keyMayMatch_of_tooShort (policy : FilterPolicy) {contents : Bytes} (h : TooShort contents)
    (blockOffset : ℕ) (key : Bytes) :
    (new policy contents).keyMayMatch blockOffset key = true := by
  have hnum : (new policy contents).num = 0 := by
    rw [new]
    dsimp only
    split
    · rfl
    · next hlen =>
      rw [if_pos (h.resolve_left hlen)]
  rw [keyMayMatch, hnum]
  exact if_neg (Nat.not_lt_zero _)

theorem keyMayMatch_of_inconsistent {f : FilterBlockReader} {blockOffset : ℕ}
    (h : f.Inconsistent blockOffset) (key : Bytes) : f.keyMayMatch blockOffset key = true := by
  obtain ⟨hindex, hbounds⟩ := h
  rw [keyMayMatch]
  dsimp only
  rw [if_pos hindex, if_neg (by omega), if_neg (by omega)]

/-- A reader is made of the block and asked with nothing going wrong, and the answer is `true` if
the block is too short or its offsets are inconsistent. -/
def Answers (p : BloomFilterPolicy) (contents : Bytes) (blockOffset : ℕ) (key : Bytes) : Prop :=
  ∃ f answer, newChecked p.toFilterPolicy contents = some f ∧
    f.keyMayMatchChecked blockOffset key = some answer ∧
    (TooShort contents ∨ f.Inconsistent blockOffset → answer = true)

/-- **What a filter block may end with.** Reading goes well exactly if the block has no last byte to
shift by, or one below 64. -/
theorem answers_iff (p : BloomFilterPolicy) (contents : Bytes) (blockOffset : ℕ) (key : Bytes) :
    Answers p contents blockOffset key ↔
      contents.length < 5 ∨ (contents.getD (contents.length - 1) 0).toNat < 64 := by
  rw [← new_baseLg_lt_iff p.toFilterPolicy]
  constructor
  · rintro ⟨f, answer, hnew, hanswer, -⟩
    rw [newChecked_eq] at hnew
    obtain rfl := Option.some.inj hnew
    rw [keyMayMatchChecked_eq] at hanswer
    by_contra hge
    rw [if_neg hge] at hanswer
    cases hanswer
  · intro hlt
    refine ⟨_, _, newChecked_eq _ _, by rw [keyMayMatchChecked_eq, if_pos hlt], ?_⟩
    rintro (hshort | hinconsistent)
    · exact keyMayMatch_of_tooShort _ hshort _ _
    · exact keyMayMatch_of_inconsistent hinconsistent _

/-- Five bytes are enough to be shifted by 64. -/
theorem not_answers :
    ¬ Answers (BloomFilterPolicy.new 10) [0, 0, 0, 0, 64] 0 [1] := by
  rintro ⟨f, answer, hnew, hanswer, -⟩
  have hf : newChecked (BloomFilterPolicy.new 10).toFilterPolicy [0, 0, 0, 0, 64]
      = some ⟨(BloomFilterPolicy.new 10).toFilterPolicy, [0, 0, 0, 0, 64], 0, 0, 64⟩ := rfl
  rw [hf] at hnew
  obtain rfl := Option.some.inj hnew
  have hnone : keyMayMatchChecked
      ⟨(BloomFilterPolicy.new 10).toFilterPolicy, [0, 0, 0, 0, 64], 0, 0, 64⟩ 0 [1] = none := rfl
  rw [hnone] at hanswer
  cases hanswer

end FilterBlockReader

end Squirrel
