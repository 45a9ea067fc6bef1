import Squirrel.Lib.LittleEndian
import Mathlib.Tactic.NormNum

/-!
# Fixed-width and varint coding

The `Put...`, `Encode...`, `Get...` and `Decode...` routines of `util/coding`. A 32- or 64-bit value
is a natural number, and the places where the source truncates are written as a modulus. A pointer
range `[p, limit)` is the byte string it spans, so a `Get...` routine returns the value together
with the bytes from the advanced pointer on, or `none` for `NULL`.

## Main results

* `decodeFixed32_encodeFixed32`, `decodeFixed64_encodeFixed64` — fixed-width round trips, with any
  bytes behind
* `getVarint32Ptr_encodeVarint32`, `getVarint64_encodeVarint64` — varint round trips, with any bytes
  behind
* `getLengthPrefixedSlice_put` — the length-prefixed round trip
-/

namespace Squirrel

namespace Coding

open LittleEndian

/-! ### Fixed width -/

/-- A store of `x & 0xff` into a `char`. -/
def lowByte (x : ℕ) : UInt8 := UInt8.ofNat (x &&& 0xff)

/-- A `char` as a `size_t`: the bytes from 128 on are negative. -/
def charToSizeT (c : UInt8) : ℕ := if c.toNat < 128 then c.toNat else 2 ^ 64 - 256 + c.toNat

def encodeFixed32 (value : ℕ) : Bytes :=
  [lowByte value, lowByte (value >>> 8), lowByte (value >>> 16), lowByte (value >>> 24)]

def encodeFixed64 (value : ℕ) : Bytes :=
  [lowByte value, lowByte (value >>> 8), lowByte (value >>> 16), lowByte (value >>> 24),
    lowByte (value >>> 32), lowByte (value >>> 40), lowByte (value >>> 48), lowByte (value >>> 56)]

/-- The byte at `ptr[i]`, as an unsigned value. -/
def byteAt (ptr : Bytes) (i : ℕ) : ℕ := (ptr.getD i 0).toNat

def decodeFixed32 (ptr : Bytes) : ℕ :=
  byteAt ptr 0 ||| (byteAt ptr 1 <<< 8) ||| (byteAt ptr 2 <<< 16) ||| (byteAt ptr 3 <<< 24)

def decodeFixed64 (ptr : Bytes) : ℕ :=
  let lo := decodeFixed32 ptr
  let hi := decodeFixed32 (ptr.drop 4)
  (hi <<< 32) ||| lo

theorem lowByte_eq (x : ℕ) : lowByte x = UInt8.ofNat x := by
  apply UInt8.toNat_inj.mp
  rw [lowByte, UInt8.toNat_ofNat', UInt8.toNat_ofNat', show (0xff : ℕ) = 2 ^ 8 - 1 from rfl,
    Nat.and_two_pow_sub_one_eq_mod]
  omega

theorem encodeFixed32_eq (v : ℕ) : encodeFixed32 v = leBytes 4 v := by
  simp only [encodeFixed32, lowByte_eq, leBytes, Nat.shiftRight_eq_div_pow, Nat.div_div_eq_div_mul]

theorem encodeFixed64_eq (v : ℕ) : encodeFixed64 v = leBytes 8 v := by
  simp only [encodeFixed64, lowByte_eq, leBytes, Nat.shiftRight_eq_div_pow, Nat.div_div_eq_div_mul]

@[simp] theorem length_encodeFixed32 (v : ℕ) : (encodeFixed32 v).length = 4 := rfl

@[simp] theorem length_encodeFixed64 (v : ℕ) : (encodeFixed64 v).length = 8 := rfl

theorem decodeFixed32_cons (a b c d : UInt8) (rest : Bytes) :
    decodeFixed32 (a :: b :: c :: d :: rest) = leValue [a, b, c, d] := by
  have ha : a.toNat < 2 ^ 8 := a.toNat_lt
  have hb : b.toNat < 2 ^ 8 := b.toNat_lt
  have hc : c.toNat < 2 ^ 8 := c.toNat_lt
  have h₁ := add_mul_two_pow_lt ha hb
  have h₂ := add_mul_two_pow_lt h₁ hc
  simp only [decodeFixed32, byteAt, List.getD_cons_zero, List.getD_cons_succ, leValue]
  rw [or_shiftLeft _ ha, or_shiftLeft _ h₁, or_shiftLeft _ h₂]
  ring

theorem decodeFixed32_lt (ptr : Bytes) : decodeFixed32 ptr < 2 ^ 32 := by
  have hlt : ∀ i, byteAt ptr i < 2 ^ 8 := fun i => (ptr.getD i 0).toNat_lt
  have h₁ := add_mul_two_pow_lt (hlt 0) (hlt 1)
  have h₂ := add_mul_two_pow_lt h₁ (hlt 2)
  rw [decodeFixed32, or_shiftLeft _ (hlt 0), or_shiftLeft _ h₁, or_shiftLeft _ h₂]
  exact add_mul_two_pow_lt h₂ (hlt 3)

theorem decodeFixed32_encodeFixed32 (v : ℕ) (rest : Bytes) :
    decodeFixed32 (encodeFixed32 v ++ rest) = v % 2 ^ 32 := by
  have h := leValue_leBytes 4 v
  rw [← encodeFixed32_eq] at h
  rw [show (2 : ℕ) ^ 32 = 256 ^ 4 by norm_num, ← h]
  exact decodeFixed32_cons _ _ _ _ rest

/-- Eight bytes can be recovered from the number that they stand for. -/
theorem encodeFixed64_decodeFixed64 {ptr : Bytes} (h : ptr.length = 8) :
    encodeFixed64 (decodeFixed64 ptr) = ptr := by
  obtain ⟨a, b, c, d, e, f, g, i, rfl⟩ : ∃ a b c d e f g i, ptr = [a, b, c, d, e, f, g, i] := by
    match ptr, h with
    | [a, b, c, d, e, f, g, i], _ => exact ⟨a, b, c, d, e, f, g, i, rfl⟩
  have hlo := leValue_lt [a, b, c, d]
  have hvalue : decodeFixed64 [a, b, c, d, e, f, g, i] = leValue [a, b, c, d, e, f, g, i] := by
    have hsplit : leValue [a, b, c, d, e, f, g, i]
        = leValue [a, b, c, d] + 2 ^ 32 * leValue [e, f, g, i] := by
      simp only [leValue]
      ring
    rw [decodeFixed64, List.drop_succ_cons, List.drop_succ_cons, List.drop_succ_cons,
      List.drop_succ_cons, List.drop_zero, decodeFixed32_cons, decodeFixed32_cons, Nat.or_comm,
      or_shiftLeft _ (by simpa using hlo), hsplit]
    ring
  rw [hvalue, encodeFixed64_eq]
  exact leBytes_leValue [a, b, c, d, e, f, g, i]

/-- An array of fixed-width numbers. -/
theorem length_flatten_encodeFixed32 (l : List ℕ) :
    (l.map encodeFixed32).flatten.length = l.length * 4 := by
  induction l with
  | nil => rfl
  | cons v l ih =>
    rw [List.map_cons, List.flatten_cons, List.length_append, ih, length_encodeFixed32,
      List.length_cons]
    omega

theorem drop_flatten_encodeFixed32 {l : List ℕ} {j v : ℕ} (h : l[j]? = some v) :
    (l.map encodeFixed32).flatten.drop (j * 4)
      = encodeFixed32 v ++ ((l.drop (j + 1)).map encodeFixed32).flatten := by
  obtain ⟨hj, rfl⟩ := List.getElem?_eq_some_iff.mp h
  have hlen : j * 4 = ((l.take j).map encodeFixed32).flatten.length := by
    rw [length_flatten_encodeFixed32, List.length_take, Nat.min_eq_left (Nat.le_of_lt hj)]
  conv_lhs => rw [← List.take_append_drop j l, List.map_append, List.flatten_append]
  rw [hlen, List.drop_left, List.drop_eq_getElem_cons hj]
  rfl

theorem decodeFixed64_encodeFixed64 (v : ℕ) (rest : Bytes) :
    decodeFixed64 (encodeFixed64 v ++ rest) = v % 2 ^ 64 := by
  have hsplit : encodeFixed64 v = encodeFixed32 v ++ encodeFixed32 (v >>> 32) := by
    simp only [encodeFixed64, encodeFixed32, List.cons_append, List.nil_append,
      ← Nat.shiftRight_add]
  have hdrop : (encodeFixed64 v ++ rest).drop 4 = encodeFixed32 (v >>> 32) ++ rest := by
    rw [hsplit, List.append_assoc]
    exact List.drop_left' (length_encodeFixed32 v)
  have hlo : v % 2 ^ 32 < 2 ^ 32 := Nat.mod_lt _ (by norm_num)
  simp only [decodeFixed64]
  rw [hdrop, hsplit, List.append_assoc, decodeFixed32_encodeFixed32, decodeFixed32_encodeFixed32,
    Nat.or_comm, or_shiftLeft _ hlo, Nat.shiftRight_eq_div_pow]
  omega

/-! ### Varints: writing -/

def encodeVarint32 (v : ℕ) : Bytes :=
  let B := 128
  if v < 1 <<< 7 then
    [UInt8.ofNat v]
  else if v < 1 <<< 14 then
    [UInt8.ofNat (v ||| B), UInt8.ofNat (v >>> 7)]
  else if v < 1 <<< 21 then
    [UInt8.ofNat (v ||| B), UInt8.ofNat ((v >>> 7) ||| B), UInt8.ofNat (v >>> 14)]
  else if v < 1 <<< 28 then
    [UInt8.ofNat (v ||| B), UInt8.ofNat ((v >>> 7) ||| B), UInt8.ofNat ((v >>> 14) ||| B),
      UInt8.ofNat (v >>> 21)]
  else
    [UInt8.ofNat (v ||| B), UInt8.ofNat ((v >>> 7) ||| B), UInt8.ofNat ((v >>> 14) ||| B),
      UInt8.ofNat ((v >>> 21) ||| B), UInt8.ofNat (v >>> 28)]

/-- The loop of `EncodeVarint64`: one byte per seven bits while `v >= 128`. -/
def encodeVarint64 (v : ℕ) : Bytes :=
  if 128 ≤ v then
    UInt8.ofNat ((v &&& (128 - 1)) ||| 128) :: encodeVarint64 (v >>> 7)
  else
    [UInt8.ofNat v]
termination_by v
decreasing_by rw [Nat.shiftRight_eq_div_pow]; omega

/-- `PutVarint32(dst, value)`; the argument is converted to `uint32_t` at the call. -/
def putVarint32 (dst : Bytes) (value : ℕ) : Bytes := dst ++ encodeVarint32 (value % 2 ^ 32)

def putVarint64 (dst : Bytes) (value : ℕ) : Bytes := dst ++ encodeVarint64 value

def putFixed32 (dst : Bytes) (value : ℕ) : Bytes := dst ++ encodeFixed32 value

def putFixed64 (dst : Bytes) (value : ℕ) : Bytes := dst ++ encodeFixed64 value

def putLengthPrefixedSlice (dst value : Bytes) : Bytes := putVarint32 dst value.length ++ value

def varintLength (v : ℕ) : ℕ :=
  if 128 ≤ v then varintLength (v >>> 7) + 1 else 1
termination_by v
decreasing_by rw [Nat.shiftRight_eq_div_pow]; omega

/-- Storing `v | 128` in a byte keeps the low seven bits and sets the top one. -/
theorem ofNat_or_128 (v : ℕ) : UInt8.ofNat (v ||| 128) = UInt8.ofNat (v % 128 + 128) := by
  apply UInt8.toNat_inj.mp
  rw [UInt8.toNat_ofNat', UInt8.toNat_ofNat']
  have h : (v ||| 128) % 2 ^ 8 = v % 128 ||| 128 := by
    apply Nat.eq_of_testBit_eq
    intro i
    rw [show (128 : ℕ) = 2 ^ 7 from rfl]
    simp only [Nat.testBit_mod_two_pow, Nat.testBit_or, Nat.testBit_two_pow]
    by_cases h7 : i < 7
    · simp [h7, show i < 8 by omega]
    · by_cases h8 : i = 7
      · subst h8; simp
      · simp [h7, show ¬ i < 8 by omega, show ¬ 7 = i by omega]
  have hv : v % 128 < 2 ^ 7 := Nat.mod_lt _ (by norm_num)
  have h128 := or_shiftLeft 1 hv
  rw [show (1 <<< 7 : ℕ) = 128 from rfl] at h128
  rw [h, h128]
  omega

theorem encodeVarint32_eq {v : ℕ} (h : v < 2 ^ 32) : encodeVarint32 v = base128 v := by
  have hdiv : ∀ k, v >>> (k + 7) = (v >>> k) / 128 := by
    intro k
    rw [Nat.shiftRight_add, Nat.shiftRight_eq_div_pow _ 7]
  have h7 := hdiv 0
  have h14 := hdiv 7
  have h21 := hdiv 14
  have h28 := hdiv 21
  simp only [Nat.reduceAdd, Nat.shiftRight_zero] at h7 h14 h21 h28
  simp only [encodeVarint32, ofNat_or_128, h7, h14, h21, h28, Nat.reduceShiftLeft]
  split
  · rw [base128_of_lt (by omega)]
  · rw [base128_of_ge (by omega)]
    split
    · rw [base128_of_lt (by omega)]
    · rw [base128_of_ge (by omega)]
      split
      · rw [base128_of_lt (by omega)]
      · rw [base128_of_ge (by omega)]
        split
        · rw [base128_of_lt (by omega)]
        · rw [base128_of_ge (by omega), base128_of_lt (by omega)]

theorem encodeVarint64_eq (v : ℕ) : encodeVarint64 v = base128 v := by
  induction v using Nat.strongRecOn with
  | ind v ih =>
    rw [encodeVarint64]
    split
    · next h =>
      have hlow : v &&& (128 - 1) = v % 128 := by
        rw [show (128 - 1 : ℕ) = 2 ^ 7 - 1 from rfl, Nat.and_two_pow_sub_one_eq_mod]
      have hshift : v >>> 7 = v / 128 := by rw [Nat.shiftRight_eq_div_pow]
      rw [base128_of_ge h, hlow, hshift, ih _ (by omega), ofNat_or_128, Nat.mod_mod]
    · next h => rw [base128_of_lt (by omega)]

theorem varintLength_eq (v : ℕ) : varintLength v = (base128 v).length := by
  induction v using Nat.strongRecOn with
  | ind v ih =>
    rw [varintLength]
    split
    · next h =>
      have hshift : v >>> 7 = v / 128 := by rw [Nat.shiftRight_eq_div_pow]
      rw [base128_of_ge h, hshift, ih _ (by omega), List.length_cons]
    · next h => rw [base128_of_lt (by omega), List.length_singleton]

/-! ### Varints: reading -/

/-- The loop shared by `GetVarint32PtrFallback` (`w = 32`, last shift `28`) and `GetVarint64Ptr`
(`w = 64`, last shift `63`): bits shifted past the `w`-bit result are lost. -/
def getVarintLoop (w lastShift shift result : ℕ) : Bytes → Option (ℕ × Bytes)
  | [] => none
  | byte :: p =>
    if shift ≤ lastShift then
      if byte.toNat &&& 128 ≠ 0 then
        getVarintLoop w lastShift (shift + 7)
          (result ||| ((byte.toNat &&& 127) <<< shift) % 2 ^ w) p
      else
        some (result ||| (byte.toNat <<< shift) % 2 ^ w, p)
    else none

def getVarint32PtrFallback (p : Bytes) : Option (ℕ × Bytes) := getVarintLoop 32 28 0 0 p

def getVarint32Ptr : Bytes → Option (ℕ × Bytes)
  | byte :: p =>
    if byte.toNat &&& 128 = 0 then some (byte.toNat, p) else getVarint32PtrFallback (byte :: p)
  | [] => getVarint32PtrFallback []

def getVarint64Ptr (p : Bytes) : Option (ℕ × Bytes) := getVarintLoop 64 63 0 0 p

def getVarint32 (input : Bytes) : Option (ℕ × Bytes) := getVarint32Ptr input

def getVarint64 (input : Bytes) : Option (ℕ × Bytes) := getVarint64Ptr input

/-- `GetLengthPrefixedSlice`: the slice and the input behind it. -/
def getLengthPrefixedSlice (input : Bytes) : Option (Bytes × Bytes) :=
  match getVarint32 input with
  | some (len, input) => if len ≤ input.length then some (input.take len, input.drop len) else none
  | none => none

/-- Testing the top bit of a byte is comparing with `128`. -/
theorem and_128_eq_zero_iff {x : ℕ} (h : x < 256) : x &&& 128 = 0 ↔ x < 128 := by
  have hall : ∀ i : Fin 256, (i : ℕ) &&& 128 = 0 ↔ (i : ℕ) < 128 := by decide +kernel
  exact hall ⟨x, h⟩

theorem and_128_ofNat_of_lt {x : ℕ} (h : x < 128) : (UInt8.ofNat x).toNat &&& 128 = 0 := by
  have hx : (UInt8.ofNat x).toNat = x := by rw [UInt8.toNat_ofNat']; omega
  rw [and_128_eq_zero_iff (UInt8.toNat_lt _), hx]
  exact h

theorem and_128_ofNat_of_ge (x : ℕ) : (UInt8.ofNat (x % 128 + 128)).toNat &&& 128 ≠ 0 := by
  have hx : (UInt8.ofNat (x % 128 + 128)).toNat = x % 128 + 128 := by rw [UInt8.toNat_ofNat']; omega
  rw [ne_eq, and_128_eq_zero_iff (UInt8.toNat_lt _), hx]
  omega

theorem and_127_ofNat (x : ℕ) : (UInt8.ofNat (x % 128 + 128)).toNat &&& 127 = x % 128 := by
  rw [UInt8.toNat_ofNat', show (127 : ℕ) = 2 ^ 7 - 1 from rfl, Nat.and_two_pow_sub_one_eq_mod]
  omega

/-- **The loop reads a base-`128` numeral.** `result` holds the digits already read, all below the
current shift; the numeral's own value fits in what is left of the word. -/
theorem getVarintLoop_base128 {w lastShift : ℕ} (rest : Bytes) (v : ℕ) :
    ∀ {shift result : ℕ}, result < 2 ^ shift → result + v * 2 ^ shift < 2 ^ w →
      shift + 7 * ((base128 v).length - 1) ≤ lastShift →
      getVarintLoop w lastShift shift result (base128 v ++ rest)
        = some (result + v * 2 ^ shift, rest) := by
  induction v using Nat.strongRecOn with
  | ind v ih =>
    intro shift result hres hfit hlen
    rcases Nat.lt_or_ge v 128 with hv | hv
    · have hv' : (UInt8.ofNat v).toNat = v := by rw [UInt8.toNat_ofNat']; omega
      have hmod : v <<< shift % 2 ^ w = v <<< shift := by
        apply Nat.mod_eq_of_lt
        rw [Nat.shiftLeft_eq]
        omega
      rw [base128_of_lt hv, List.length_singleton] at *
      simp only [List.singleton_append, getVarintLoop]
      rw [if_pos (by omega), if_neg (not_not.mpr (and_128_ofNat_of_lt hv)), hv', hmod,
        or_shiftLeft _ hres]
    · have hsplit : v % 128 * 2 ^ shift + v / 128 * 2 ^ (shift + 7) = v * 2 ^ shift := by
        rw [pow_add, show (2 : ℕ) ^ 7 = 128 from rfl]
        calc v % 128 * 2 ^ shift + v / 128 * (2 ^ shift * 128)
            = (v % 128 + 128 * (v / 128)) * 2 ^ shift := by ring
          _ = v * 2 ^ shift := by rw [Nat.mod_add_div]
      have hlow : result + v % 128 * 2 ^ shift < 2 ^ (shift + 7) :=
        add_mul_two_pow_lt hres (Nat.mod_lt _ (by norm_num))
      have hmod : (v % 128) <<< shift % 2 ^ w = (v % 128) <<< shift := by
        apply Nat.mod_eq_of_lt
        rw [Nat.shiftLeft_eq]
        omega
      have hpos := length_base128_pos (v / 128)
      rw [base128_of_ge hv, List.length_cons] at hlen
      rw [base128_of_ge hv]
      simp only [List.cons_append, getVarintLoop]
      rw [if_pos (by omega), if_pos (and_128_ofNat_of_ge v), and_127_ofNat, hmod,
        or_shiftLeft _ hres, ih _ (by omega) hlow (by omega) (by omega)]
      congr 2
      omega

theorem getVarint32Ptr_base128 {v : ℕ} (h : v < 2 ^ 32) (rest : Bytes) :
    getVarint32Ptr (base128 v ++ rest) = some (v, rest) := by
  have hloop : getVarint32PtrFallback (base128 v ++ rest) = some (v, rest) := by
    have hlen : (base128 v).length ≤ 4 + 1 := length_base128_le (lt_trans h (by norm_num))
    have hget : getVarintLoop 32 28 0 0 (base128 v ++ rest) = some (0 + v * 2 ^ 0, rest) :=
      getVarintLoop_base128 rest v (by norm_num) (by omega) (by omega)
    simpa [getVarint32PtrFallback] using hget
  rcases Nat.lt_or_ge v 128 with hv | hv
  · have hv' : (UInt8.ofNat v).toNat = v := by rw [UInt8.toNat_ofNat']; omega
    rw [base128_of_lt hv, List.singleton_append, getVarint32Ptr, if_pos (and_128_ofNat_of_lt hv),
      hv']
  · rw [base128_of_ge hv, List.cons_append] at hloop ⊢
    rw [getVarint32Ptr, if_neg (and_128_ofNat_of_ge v), hloop]

theorem getVarint32Ptr_encodeVarint32 {v : ℕ} (h : v < 2 ^ 32) (rest : Bytes) :
    getVarint32Ptr (encodeVarint32 v ++ rest) = some (v, rest) := by
  rw [encodeVarint32_eq h, getVarint32Ptr_base128 h]

theorem getVarint64_encodeVarint64 {v : ℕ} (h : v < 2 ^ 64) (rest : Bytes) :
    getVarint64 (encodeVarint64 v ++ rest) = some (v, rest) := by
  have hlen : (base128 v).length ≤ 9 + 1 := length_base128_le (lt_trans h (by norm_num))
  have hget : getVarintLoop 64 63 0 0 (base128 v ++ rest) = some (0 + v * 2 ^ 0, rest) :=
    getVarintLoop_base128 rest v (by norm_num) (by omega) (by omega)
  rw [encodeVarint64_eq]
  simpa [getVarint64, getVarint64Ptr] using hget

theorem length_encodeVarint32_pos {v : ℕ} (h : v < 2 ^ 32) : 0 < (encodeVarint32 v).length := by
  rw [encodeVarint32_eq h]
  exact length_base128_pos v

theorem length_encodeVarint64_le {v : ℕ} (h : v < 2 ^ 64) : (encodeVarint64 v).length ≤ 10 := by
  rw [encodeVarint64_eq]
  exact length_base128_le (lt_trans h (by norm_num))

/-- A varint takes at least one byte and at most one for each shift, and what is left is the end of
what there was. -/
theorem getVarintLoop_suffix {w lastShift shift result v : ℕ} {p rest : Bytes}
    (h : getVarintLoop w lastShift shift result p = some (v, rest)) :
    ∃ front, front ≠ [] ∧ shift + 7 * front.length ≤ lastShift + 7 ∧ p = front ++ rest := by
  induction p generalizing shift result with
  | nil => exact absurd h (by simp [getVarintLoop])
  | cons byte p ih =>
    rw [getVarintLoop] at h
    split at h
    · next hshift =>
      split at h
      · obtain ⟨front, -, hlen, rfl⟩ := ih h
        refine ⟨byte :: front, List.cons_ne_nil _ _, ?_, rfl⟩
        rw [List.length_cons]
        omega
      · cases h
        refine ⟨[byte], List.cons_ne_nil _ _, ?_, rfl⟩
        rw [List.length_singleton]
        omega
    · cases h

theorem getVarint32Ptr_suffix {v : ℕ} {p rest : Bytes} (h : getVarint32Ptr p = some (v, rest)) :
    ∃ front, front ≠ [] ∧ front.length ≤ 5 ∧ p = front ++ rest := by
  cases p with
  | nil => exact absurd h (by simp [getVarint32Ptr, getVarint32PtrFallback, getVarintLoop])
  | cons byte p =>
    rw [getVarint32Ptr] at h
    split at h
    · cases h
      exact ⟨[byte], List.cons_ne_nil _ _, by simp, rfl⟩
    · rw [getVarint32PtrFallback] at h
      obtain ⟨front, hne, hlen, heq⟩ := getVarintLoop_suffix h
      exact ⟨front, hne, by omega, heq⟩

theorem getVarintLoop_lt {w lastShift shift result v : ℕ} {p rest : Bytes}
    (hres : result < 2 ^ w) (h : getVarintLoop w lastShift shift result p = some (v, rest)) :
    v < 2 ^ w := by
  induction p generalizing shift result with
  | nil => exact absurd h (by simp [getVarintLoop])
  | cons byte p ih =>
    rw [getVarintLoop] at h
    split at h
    · split at h
      · exact ih (Nat.or_lt_two_pow hres (Nat.mod_lt _ (Nat.two_pow_pos w))) h
      · cases h
        exact Nat.or_lt_two_pow hres (Nat.mod_lt _ (Nat.two_pow_pos w))
    · cases h

theorem getVarint32Ptr_lt {v : ℕ} {p rest : Bytes} (h : getVarint32Ptr p = some (v, rest)) :
    v < 2 ^ 32 := by
  cases p with
  | nil => exact absurd h (by simp [getVarint32Ptr, getVarint32PtrFallback, getVarintLoop])
  | cons byte p =>
    rw [getVarint32Ptr] at h
    split at h
    · cases h
      exact lt_trans byte.toNat_lt (by norm_num)
    · exact getVarintLoop_lt (by norm_num) h

theorem getLengthPrefixedSlice_put {value : Bytes} (h : value.length < 2 ^ 32) (rest : Bytes) :
    getLengthPrefixedSlice (putLengthPrefixedSlice [] value ++ rest) = some (value, rest) := by
  have hget := getVarint32Ptr_encodeVarint32 h (value ++ rest)
  simp only [putLengthPrefixedSlice, putVarint32, List.nil_append, List.append_assoc,
    Nat.mod_eq_of_lt h, getLengthPrefixedSlice, getVarint32, hget]
  simp

end Coding

end Squirrel
