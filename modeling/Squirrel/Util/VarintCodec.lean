import Squirrel.Lib.Decoder
import Squirrel.Util.Coding

/-!
# Varints and length-prefixed slices, as a code

Numbers and slices put one after another into a buffer are read back by the matching `Get...` calls,
with anything behind them left alone. What makes this work for a whole sequence is that each routine
inverts its encoding with any bytes behind and does not look behind what it has consumed.

The routines of `util/coding` take pointers. In `Checked` they are written once more with a pointer
into the input, as an offset, and with every access failing that is not below the limit; they never
fail, and return what the routines on byte strings return.

## Main results

* `Coding.Checked.getVarint32_eq`, `Coding.Checked.getVarint64_eq` — no access is outside of the
  input
* `Codec.inverts_get`, `Codec.extends_get` — the two properties, for each kind of item
* `Codec.reads_back_and_rejects` — sequences, lengths, strict prefixes, and how much a varint can
  take
-/

namespace Squirrel

namespace Coding

open LittleEndian

/-! ### The routines on pointers -/

namespace Checked

/-- The loop of `GetVarint32PtrFallback` and `GetVarint64Ptr`, at `p`, where `limit` is the end of
the input. A result is a value and a pointer, or nothing for `NULL`. -/
def getVarintLoop (w lastShift : ℕ) (input : Bytes) (shift result p : ℕ) :
    Option (Option (ℕ × ℕ)) :=
  let limit := input.length
  if h : shift ≤ lastShift ∧ p < limit then do
    let byte ← input[p]?
    if byte.toNat &&& 128 ≠ 0 then
      getVarintLoop w lastShift input (shift + 7)
        (result ||| ((byte.toNat &&& 127) <<< shift) % 2 ^ w) (p + 1)
    else
      some (some (result ||| (byte.toNat <<< shift) % 2 ^ w, p + 1))
  else some none
termination_by input.length - p

def getVarint32PtrFallback (input : Bytes) (p : ℕ) : Option (Option (ℕ × ℕ)) :=
  getVarintLoop 32 28 input 0 0 p

def getVarint32Ptr (input : Bytes) (p : ℕ) : Option (Option (ℕ × ℕ)) :=
  let limit := input.length
  if p < limit then do
    let byte ← input[p]?
    if byte.toNat &&& 128 = 0 then some (some (byte.toNat, p + 1))
    else getVarint32PtrFallback input p
  else getVarint32PtrFallback input p

def getVarint64Ptr (input : Bytes) (p : ℕ) : Option (Option (ℕ × ℕ)) :=
  getVarintLoop 64 63 input 0 0 p

/-- `GetVarint32(&input, &value)`; the slice is moved to the pointer returned. -/
def getVarint32 (input : Bytes) : Option (Option (ℕ × Bytes)) := do
  let q ← getVarint32Ptr input 0
  some (q.map fun (value, q) => (value, input.drop q))

/-- `GetVarint64(&input, &value)`. -/
def getVarint64 (input : Bytes) : Option (Option (ℕ × Bytes)) := do
  let q ← getVarint64Ptr input 0
  some (q.map fun (value, q) => (value, input.drop q))

/-- What a routine on byte strings returns at `p`, with a pointer in place of the bytes left. -/
def atPtr (input : Bytes) (r : Option (ℕ × Bytes)) : Option (ℕ × ℕ) :=
  r.map fun (value, rest) => (value, input.length - rest.length)

@[simp] theorem atPtr_some (input : Bytes) (value : ℕ) (rest : Bytes) :
    atPtr input (some (value, rest)) = some (value, input.length - rest.length) := rfl

theorem getVarintLoop_eq (w lastShift : ℕ) (input : Bytes) (shift result p : ℕ) :
    getVarintLoop w lastShift input shift result p
      = some (atPtr input (Coding.getVarintLoop w lastShift shift result (input.drop p))) := by
  induction hn : input.length - p generalizing shift result p with
  | zero =>
    have hp : input.length ≤ p := by omega
    rw [getVarintLoop, dif_neg (by omega), List.drop_eq_nil_of_le hp]
    rfl
  | succ n ih =>
    have hp : p < input.length := by omega
    rw [getVarintLoop, List.drop_eq_getElem_cons hp, Coding.getVarintLoop]
    by_cases hshift : shift ≤ lastShift
    · rw [dif_pos ⟨hshift, hp⟩, if_pos hshift, List.getElem?_eq_getElem hp]
      simp only [Option.bind_eq_bind, Option.bind_some]
      by_cases hmore : input[p].toNat &&& 128 ≠ 0
      · rw [if_pos hmore, if_pos hmore, ih _ _ _ (by omega)]
      · rw [if_neg hmore, if_neg hmore, atPtr_some, List.length_drop]
        congr 3
        omega
    · rw [dif_neg (by omega), if_neg hshift]
      rfl

theorem getVarint32Ptr_eq (input : Bytes) (p : ℕ) :
    getVarint32Ptr input p = some (atPtr input (Coding.getVarint32Ptr (input.drop p))) := by
  have hfallback := getVarintLoop_eq 32 28 input 0 0 p
  by_cases hp : p < input.length
  · rw [List.drop_eq_getElem_cons hp] at hfallback ⊢
    rw [getVarint32Ptr, if_pos hp, Coding.getVarint32Ptr, List.getElem?_eq_getElem hp]
    simp only [Option.bind_eq_bind, Option.bind_some]
    by_cases hone : input[p].toNat &&& 128 = 0
    · rw [if_pos hone, if_pos hone, atPtr_some, List.length_drop]
      congr 3
      omega
    · rw [if_neg hone, if_neg hone]
      exact hfallback
  · rw [List.drop_eq_nil_of_le (by omega)] at hfallback ⊢
    rw [getVarint32Ptr, if_neg hp]
    exact hfallback

/-- The pointer behind the front of the input gives the rest of it. -/
theorem map_drop_atPtr {input : Bytes} {r : Option (ℕ × Bytes)}
    (h : ∀ value rest, r = some (value, rest) → ∃ front, input = front ++ rest) :
    (atPtr input r).map (fun (value, q) => (value, input.drop q)) = r := by
  cases r with
  | none => rfl
  | some r =>
    obtain ⟨value, rest⟩ := r
    obtain ⟨front, rfl⟩ := h value rest rfl
    simp [atPtr]

/-- **`GetVarint32` never looks outside of its input.** -/
theorem getVarint32_eq (input : Bytes) :
    getVarint32 input = some (Coding.getVarint32 input) := by
  have hread := getVarint32Ptr_eq input 0
  rw [List.drop_zero] at hread
  rw [getVarint32, hread, Option.bind_eq_bind, Option.bind_some]
  refine congrArg some (map_drop_atPtr fun value rest h => ?_)
  obtain ⟨front, -, -, rfl⟩ := getVarint32Ptr_suffix h
  exact ⟨front, rfl⟩

/-- **`GetVarint64` never looks outside of its input.** -/
theorem getVarint64_eq (input : Bytes) :
    getVarint64 input = some (Coding.getVarint64 input) := by
  have hread := getVarintLoop_eq 64 63 input 0 0 0
  rw [List.drop_zero] at hread
  rw [getVarint64, getVarint64Ptr, hread, Option.bind_eq_bind, Option.bind_some]
  refine congrArg some (map_drop_atPtr fun value rest h => ?_)
  obtain ⟨front, -, -, rfl⟩ := getVarintLoop_suffix h
  exact ⟨front, rfl⟩

end Checked

/-! ### What has been read does not depend on what is behind it -/

theorem getVarintLoop_append {w lastShift shift result v : ℕ} {p rest : Bytes}
    (h : getVarintLoop w lastShift shift result p = some (v, rest)) (t : Bytes) :
    getVarintLoop w lastShift shift result (p ++ t) = some (v, rest ++ t) := by
  induction p generalizing shift result with
  | nil => exact absurd h (by simp [getVarintLoop])
  | cons byte p ih =>
    rw [getVarintLoop] at h
    rw [List.cons_append, getVarintLoop]
    by_cases hshift : shift ≤ lastShift
    · rw [if_pos hshift] at h ⊢
      by_cases hmore : byte.toNat &&& 128 ≠ 0
      · rw [if_pos hmore] at h ⊢
        exact ih h
      · rw [if_neg hmore] at h ⊢
        cases h
        rfl
    · rw [if_neg hshift] at h
      cases h

theorem extends_getVarint32 : Decoder.Extends getVarint32 := by
  intro p v rest h t
  cases p with
  | nil =>
    exact absurd h (by simp [getVarint32, getVarint32Ptr, getVarint32PtrFallback, getVarintLoop])
  | cons byte p =>
    rw [getVarint32, getVarint32Ptr] at h
    rw [getVarint32, List.cons_append, getVarint32Ptr]
    by_cases hone : byte.toNat &&& 128 = 0
    · rw [if_pos hone] at h ⊢
      cases h
      rfl
    · rw [if_neg hone] at h ⊢
      exact getVarintLoop_append h t

theorem extends_getVarint64 : Decoder.Extends getVarint64 := by
  intro p v rest h t
  exact getVarintLoop_append h t

theorem extends_getLengthPrefixedSlice : Decoder.Extends getLengthPrefixedSlice := by
  intro p value rest h t
  rw [getLengthPrefixedSlice] at h
  split at h
  · next len input hlen =>
    split at h
    · next hle =>
      cases h
      have hle' : len ≤ (input ++ t).length := by
        rw [List.length_append]
        omega
      rw [getLengthPrefixedSlice, extends_getVarint32 _ _ _ hlen t]
      dsimp only
      rw [if_pos hle', List.take_append_of_le_length hle, List.drop_append_of_le_length hle]
    · cases h
  · cases h

end Coding

/-! ### Items of a buffer -/

namespace Codec

open Coding

/-- What can be put into a buffer. -/
inductive Item
  | varint32 (v : ℕ)
  | varint64 (v : ℕ)
  | slice (value : Bytes)

/-- Which call reads an item. -/
inductive Kind
  | varint32
  | varint64
  | slice

namespace Item

/-- A number is in the range of its type, and a slice is below `2 ^ 32` bytes. -/
def Fits : Item → Prop
  | varint32 v => v < 2 ^ 32
  | varint64 v => v < 2 ^ 64
  | slice value => value.length < 2 ^ 32

def kind : Item → Kind
  | varint32 _ => .varint32
  | varint64 _ => .varint64
  | slice _ => .slice

/-- The `Put...` call for an item. -/
def put (dst : Bytes) : Item → Bytes
  | varint32 v => putVarint32 dst v
  | varint64 v => putVarint64 dst v
  | slice value => putLengthPrefixedSlice dst value

end Item

/-- The `Get...` call for a kind of item. -/
def Kind.get : Kind → Decoder UInt8 Item
  | varint32 => Decoder.map .varint32 getVarint32
  | varint64 => Decoder.map .varint64 getVarint64
  | slice => Decoder.map .slice getLengthPrefixedSlice

/-- One call of `Put...` after another. -/
def putAll (dst : Bytes) (items : List Item) : Bytes := items.foldl Item.put dst

/-- One call of `Get...` after another. -/
def getAll (kinds : List Kind) : Decoder UInt8 (List Item) := Decoder.seq (kinds.map Kind.get)

/-- What a call puts behind what there is. -/
theorem Item.put_eq (dst : Bytes) (i : Item) : i.put dst = dst ++ i.put [] := by
  cases i with
  | varint32 v => rfl
  | varint64 v => rfl
  | slice value =>
    simp only [Item.put, putLengthPrefixedSlice, putVarint32, List.nil_append, List.append_assoc]

theorem putAll_eq (dst : Bytes) (items : List Item) :
    putAll dst items = dst ++ items.flatMap fun i => i.put [] := by
  induction items generalizing dst with
  | nil => simp [putAll]
  | cons i items ih =>
    have htail := ih (i.put dst)
    rw [putAll] at htail ⊢
    rw [List.foldl_cons, htail, Item.put_eq, List.flatMap_cons, List.append_assoc]

/-- **Each `Get...` inverts its `Put...`**, with any bytes behind. -/
theorem inverts_get {i : Item} (h : i.Fits) : Decoder.Inverts i.kind.get (i.put []) i := by
  cases i with
  | varint32 v =>
    refine Decoder.Inverts.map (d := getVarint32) (fun rest => ?_) Item.varint32
    have hv : v < 2 ^ 32 := h
    rw [Item.put, putVarint32, List.nil_append, Nat.mod_eq_of_lt hv]
    exact getVarint32Ptr_encodeVarint32 hv rest
  | varint64 v =>
    refine Decoder.Inverts.map (d := getVarint64) (fun rest => ?_) Item.varint64
    exact getVarint64_encodeVarint64 h rest
  | slice value =>
    refine Decoder.Inverts.map (d := getLengthPrefixedSlice) (fun rest => ?_) Item.slice
    exact getLengthPrefixedSlice_put h rest

theorem extends_get (k : Kind) : Decoder.Extends k.get := by
  cases k with
  | varint32 => exact extends_getVarint32.map _
  | varint64 => exact extends_getVarint64.map _
  | slice => exact extends_getLengthPrefixedSlice.map _

theorem length_putVarint32 {v : ℕ} (h : v < 2 ^ 32) (dst : Bytes) :
    (putVarint32 dst v).length = dst.length + varintLength v := by
  rw [putVarint32, List.length_append, Nat.mod_eq_of_lt h, encodeVarint32_eq h, varintLength_eq]

theorem length_putVarint64 (v : ℕ) (dst : Bytes) :
    (putVarint64 dst v).length = dst.length + varintLength v := by
  rw [putVarint64, List.length_append, encodeVarint64_eq, varintLength_eq]

/-- Items that have been put into a buffer are read back from where the first one starts. -/
theorem getAll_putAll {items : List Item} (h : ∀ i ∈ items, i.Fits) (dst rest : Bytes) :
    getAll (items.map Item.kind) ((putAll dst items ++ rest).drop dst.length)
      = some (items, rest) := by
  have hseq : Decoder.Inverts (Decoder.seq (items.map fun i => i.kind.get))
      (items.flatMap fun i => i.put []) (items.map id) :=
    Decoder.inverts_seq fun i hi => inverts_get (h i hi)
  rw [putAll_eq, List.append_assoc, List.drop_left, getAll, List.map_map]
  rw [List.map_id] at hseq
  exact hseq rest

/-- **The code.** A sequence of items is read back, and what is behind it is left. A number takes
`VarintLength` bytes. No strict prefix of an item is accepted. A varint that is accepted takes at
most five bytes, or ten, and no byte behind the input is looked at. -/
theorem reads_back_and_rejects :
    (∀ (items : List Item) (dst rest : Bytes), (∀ i ∈ items, i.Fits) →
      getAll (items.map Item.kind) ((putAll dst items ++ rest).drop dst.length)
        = some (items, rest)) ∧
    (∀ (v : ℕ) (dst : Bytes), v < 2 ^ 32 →
      (putVarint32 dst v).length = dst.length + varintLength v) ∧
    (∀ (v : ℕ) (dst : Bytes), v < 2 ^ 64 →
      (putVarint64 dst v).length = dst.length + varintLength v) ∧
    (∀ i : Item, i.Fits → ∀ n < (i.put []).length, i.kind.get ((i.put []).take n) = none) ∧
    (∀ (input : Bytes) (v : ℕ) (rest : Bytes), getVarint32 input = some (v, rest) →
      ∃ front, input = front ++ rest ∧ front.length ≤ 5) ∧
    (∀ (input : Bytes) (v : ℕ) (rest : Bytes), getVarint64 input = some (v, rest) →
      ∃ front, input = front ++ rest ∧ front.length ≤ 10) ∧
    ∀ input : Bytes, Checked.getVarint32 input = some (getVarint32 input) ∧
      Checked.getVarint64 input = some (getVarint64 input) := by
  refine ⟨fun items dst rest h => getAll_putAll h dst rest, fun v dst h => length_putVarint32 h dst,
    fun v dst _ => length_putVarint64 v dst, fun i h n hn => ?_, fun input v rest h => ?_,
    fun input v rest h => ?_, fun input => ?_⟩
  · exact (extends_get i.kind).take_eq_none (inverts_get h) hn
  · obtain ⟨front, -, hlen, heq⟩ := getVarint32Ptr_suffix h
    exact ⟨front, heq, hlen⟩
  · obtain ⟨front, -, hlen, heq⟩ := getVarintLoop_suffix h
    exact ⟨front, heq, by omega⟩
  · exact ⟨Checked.getVarint32_eq input, Checked.getVarint64_eq input⟩

/-- The largest numbers of both widths, with a slice between them and a byte behind. -/
theorem reads_back_and_rejects_extremes :
    getAll [.varint32, .slice, .varint64]
        ((putAll [7] [.varint32 4294967295, .slice [107], .varint64 18446744073709551615]
          ++ [255]).drop 1)
      = some ([.varint32 4294967295, .slice [107], .varint64 18446744073709551615], [255]) ∧
    (putVarint32 [7] 4294967295).length = 1 + varintLength 4294967295 ∧
    (putVarint64 [7] 18446744073709551615).length = 1 + varintLength 18446744073709551615 ∧
    Kind.slice.get (((Item.slice [107]).put []).take 1) = none ∧
    (∃ front, [255, 255, 255, 255, 15, 7] = front ++ [(7 : UInt8)] ∧ front.length ≤ 5) ∧
    ∃ front, [255, 255, 255, 255, 255, 255, 255, 255, 255, 1, 7] = front ++ [(7 : UInt8)] ∧
      front.length ≤ 10 := by
  obtain ⟨hseq, hlen₃₂, hlen₆₄, hprefix, hfront₃₂, hfront₆₄, -⟩ :=
    reads_back_and_rejects
  refine ⟨?_, hlen₃₂ _ [7] (by decide), hlen₆₄ _ [7] (by decide), ?_, ?_, ?_⟩
  · refine hseq [.varint32 4294967295, .slice [107], .varint64 18446744073709551615] [7] [255]
      fun i hi => ?_
    simp only [List.mem_cons, List.not_mem_nil, or_false] at hi
    rcases hi with rfl | rfl | rfl
    · exact (by decide : (4294967295 : ℕ) < 2 ^ 32)
    · exact (by decide : [(107 : UInt8)].length < 2 ^ 32)
    · exact (by decide : (18446744073709551615 : ℕ) < 2 ^ 64)
  · exact hprefix (.slice [107]) (by decide : [(107 : UInt8)].length < 2 ^ 32) 1 (by decide)
  · exact hfront₃₂ _ 4294967295 _ (by decide)
  · exact hfront₆₄ _ 18446744073709551615 _ (by decide)

end Codec

end Squirrel
