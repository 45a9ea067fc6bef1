import Squirrel.Lib.BitArray
import Squirrel.Util.FilterPolicy
import Squirrel.Util.Hash

/-!
# Bloom filters

The built-in `FilterPolicy`. A filter is an array of bits followed by one byte, the number
of probes. A key is probed by double hashing: the positions are `h`, `h + delta`, `h + 2 * delta`
and so on, as 32-bit numbers, modulo the number of bits. Writer and reader each run that loop
themselves, and they take the number of bits from different places: the writer rounds up what the
parameters ask for, the reader counts the bytes.

`positions` is the list of the bits a key is probed at. Creating a filter sets the bits of all keys,
and matching a key tests the bits of one.

The parameters of the reader play no part, since the number of probes is read from the filter.

## Main results

* `BloomFilterPolicy.createFilter_eq` — the filter, as the bits of the keys set in turn
* `BloomFilterPolicy.keyMayMatch_createFilter` — no false negatives, whatever instance reads the
  filter
-/

namespace Squirrel

open Coding BitArray

/-! ### The policy -/

def bloomHash (key : Bytes) : BitVec 32 := hash key 0xbc9f1d34#32

/-- A `BloomFilterPolicy`: the constructor clamps the number of probes. -/
structure BloomFilterPolicy where
  bitsPerKey : ℕ
  k : ℕ
  one_le_k : 1 ≤ k
  k_le : k ≤ 30

namespace BloomFilterPolicy

/-- The constructor, for parameters that are not negative. Below a hundred the product with the
floating-point number 0.69 is an integer only at zero, and it rounds down to the same number as the
fraction; from there on `k_` is 30 either way. -/
def new (bitsPerKey : ℕ) : BloomFilterPolicy where
  bitsPerKey := bitsPerKey
  k := min (max (bitsPerKey * 69 / 100) 1) 30
  one_le_k := by omega
  k_le := by omega

/-- The step between the probes of a key. -/
def delta (h : BitVec 32) : BitVec 32 := (h >>> 17) ||| (h <<< 15)

/-- The inner loop of `CreateFilter`, `j` probes from the end; `array` is `dst` from `initSize`
on. -/
def setProbes (bits initSize : ℕ) (delta : BitVec 32) : ℕ → BitVec 32 → Bytes → Bytes
  | 0, _, dst => dst
  | j + 1, h, dst =>
    let bitpos := h.toNat % bits
    setProbes bits initSize delta j (h + delta)
      (dst.modify (initSize + bitpos / 8) (· ||| mask bitpos))

/-- `CreateFilter`: the new contents of `*dst`. The number of keys is converted to a `size_t`. -/
def createFilter (p : BloomFilterPolicy) (keys : List Bytes) (n : ℤ) (dst : Bytes) : Bytes :=
  let bits := (n % 2 ^ 64).toNat * p.bitsPerKey % 2 ^ 64
  let bits := if bits < 64 then 64 else bits
  let bytes := (bits + 7) % 2 ^ 64 / 8
  let bits := bytes * 8 % 2 ^ 64
  let initSize := dst.length
  let dst := dst ++ List.replicate bytes 0 ++ [UInt8.ofNat p.k]
  (keys.take n.toNat).foldl (fun dst key =>
    setProbes bits initSize (delta (bloomHash key)) p.k (bloomHash key) dst) dst

/-- The loop of `KeyMayMatch`, `j` probes from the end. -/
def testProbes (array : Bytes) (bits : ℕ) (delta : BitVec 32) : ℕ → BitVec 32 → Bool
  | 0, _ => true
  | j + 1, h =>
    if test array (h.toNat % bits) then testProbes array bits delta j (h + delta) else false

/-- `KeyMayMatch`. The policy is not used. -/
def keyMayMatch (_ : BloomFilterPolicy) (key bloomFilter : Bytes) : Bool :=
  let len := bloomFilter.length
  if len < 2 then false
  else
    let bits := (len - 1) * 8
    let k := charToSizeT (bloomFilter.getD (len - 1) 0)
    if 30 < k then true
    else testProbes bloomFilter bits (delta (bloomHash key)) k (bloomHash key)

/-- The policy as an instance of the interface. -/
def toFilterPolicy (p : BloomFilterPolicy) : FilterPolicy where
  name := "leveldb.BuiltinBloomFilter2".toList.map fun c => UInt8.ofNat c.toNat
  createFilter := p.createFilter
  keyMayMatch := p.keyMayMatch

/-! ### The bits of a key -/

/-- The positions of `j` probes. -/
def positions (bits : ℕ) (delta : BitVec 32) : ℕ → BitVec 32 → List ℕ
  | 0, _ => []
  | j + 1, h => h.toNat % bits :: positions bits delta j (h + delta)

theorem lt_of_mem_positions {bits j : ℕ} {delta h : BitVec 32} (hbits : 0 < bits) {i : ℕ}
    (hi : i ∈ positions bits delta j h) : i < bits := by
  induction j generalizing h with
  | zero => cases hi
  | succ j ih =>
    rcases List.mem_cons.mp hi with rfl | hi
    · exact Nat.mod_lt _ hbits
    · exact ih hi

theorem testProbes_iff {array : Bytes} {bits j : ℕ} {delta h : BitVec 32} :
    testProbes array bits delta j h = true ↔ ∀ i ∈ positions bits delta j h,
      test array i = true := by
  induction j generalizing h with
  | zero => simp [testProbes, positions]
  | succ j ih =>
    rw [testProbes, positions, List.forall_mem_cons, ← ih]
    split
    · next htest => simp [htest]
    · next htest => simp [htest]

/-- The probes write into the array only. -/
theorem setProbes_eq (init array rest : Bytes) {j : ℕ} {delta h : BitVec 32} (hne : array ≠ []) :
    setProbes (array.length * 8) init.length delta j h (init ++ (array ++ rest))
      = init ++ ((positions (array.length * 8) delta j h).foldl set array ++ rest) := by
  have hpos : 0 < array.length := List.length_pos_iff.mpr hne
  induction j generalizing array h with
  | zero => rfl
  | succ j ih =>
    have hlt : h.toNat % (array.length * 8) < array.length * 8 := Nat.mod_lt _ (by omega)
    have hih := ih (set array (h.toNat % (array.length * 8))) (h := h + delta)
      (List.ne_nil_of_length_pos (by rw [length_set]; exact hpos)) (by rw [length_set]; exact hpos)
    rw [length_set] at hih
    rw [setProbes, positions, List.foldl_cons, modify_append _ init array rest (by omega)]
    exact hih

/-- The bits of all the keys. -/
def allPositions (bits k : ℕ) (keys : List Bytes) : List ℕ :=
  keys.flatMap fun key => positions bits (delta (bloomHash key)) k (bloomHash key)

theorem foldl_setProbes (init rest : Bytes) (k : ℕ) (keys : List Bytes) {array : Bytes}
    (hne : array ≠ []) :
    keys.foldl (fun dst key => setProbes (array.length * 8) init.length (delta (bloomHash key)) k
        (bloomHash key) dst) (init ++ (array ++ rest))
      = init ++ ((allPositions (array.length * 8) k keys).foldl set array ++ rest) := by
  induction keys generalizing array with
  | nil => rfl
  | cons key keys ih =>
    rw [List.foldl_cons, setProbes_eq init array rest hne, allPositions, List.flatMap_cons,
      List.foldl_append, ← allPositions]
    have hne' : (positions (array.length * 8) (delta (bloomHash key)) k (bloomHash key)).foldl set
        array ≠ [] :=
      List.ne_nil_of_length_pos (by rw [length_foldl_set]; exact List.length_pos_iff.mpr hne)
    have hih := ih hne'
    rw [length_foldl_set] at hih
    exact hih

/-! ### No false negatives -/

/-- The number of bytes in the array of a filter for `n` keys. -/
def filterBytes (p : BloomFilterPolicy) (n : ℕ) : ℕ := (max (n * p.bitsPerKey) 64 + 7) / 8

/-- `CreateFilter` appends the array, with the bits of all keys set, and the number of probes. -/
theorem createFilter_eq (p : BloomFilterPolicy) {keys : List Bytes} (dst : Bytes)
    (hbits : keys.length * p.bitsPerKey < 2 ^ 32) :
    p.createFilter keys keys.length dst
      = dst ++ ((allPositions (p.filterBytes keys.length * 8) p.k keys).foldl set
          (List.replicate (p.filterBytes keys.length) 0) ++ [UInt8.ofNat p.k]) := by
  have hbytes : (max (keys.length * p.bitsPerKey) 64 + 7) / 8 = p.filterBytes keys.length := rfl
  have hne : List.replicate (p.filterBytes keys.length) (0 : UInt8) ≠ [] :=
    List.ne_nil_of_length_pos (by rw [List.length_replicate, filterBytes]; omega)
  have hbits' : (if keys.length * p.bitsPerKey < 64 then 64 else keys.length * p.bitsPerKey)
      = max (keys.length * p.bitsPerKey) 64 := by
    split <;> omega
  have hn : ((keys.length : ℤ) % 2 ^ 64).toNat * p.bitsPerKey % 2 ^ 64
      = keys.length * p.bitsPerKey % 2 ^ 64 := by
    have hmod : ((keys.length : ℤ) % 2 ^ 64).toNat = keys.length % 2 ^ 64 := by omega
    rw [hmod, Nat.mod_mul_mod]
  have h := foldl_setProbes dst [UInt8.ofNat p.k] p.k keys hne
  rw [List.length_replicate] at h
  rw [createFilter, hn, Int.toNat_natCast, List.take_length,
    Nat.mod_eq_of_lt (a := keys.length * p.bitsPerKey) (by omega), hbits',
    Nat.mod_eq_of_lt (a := max (keys.length * p.bitsPerKey) 64 + 7) (by omega), hbytes,
    Nat.mod_eq_of_lt (a := p.filterBytes keys.length * 8) (by rw [← hbytes]; omega),
    List.append_assoc]
  exact h

theorem charToSizeT_ofNat {k : ℕ} (h : k < 128) : charToSizeT (UInt8.ofNat k) = k := by
  have hk : (UInt8.ofNat k).toNat = k := by
    rw [UInt8.toNat_ofNat']
    omega
  rw [charToSizeT, hk, if_pos h]

/-- Matching against an array of bits with the number of probes behind. -/
theorem keyMayMatch_append (q : BloomFilterPolicy) (key : Bytes) {array : Bytes} {k : ℕ}
    (hne : array ≠ []) (hk : k ≤ 30) :
    q.keyMayMatch key (array ++ [UInt8.ofNat k]) = true ↔
      ∀ i ∈ positions (array.length * 8) (delta (bloomHash key)) k (bloomHash key),
        test array i = true := by
  have hpos : 0 < array.length := List.length_pos_iff.mpr hne
  have hlen : (array ++ [UInt8.ofNat k]).length = array.length + 1 := by
    rw [List.length_append, List.length_singleton]
  have hlast : (array ++ [UInt8.ofNat k]).getD array.length 0 = UInt8.ofNat k := by
    rw [List.getD_eq_getElem?_getD, List.getElem?_concat_length]
    rfl
  rw [keyMayMatch]
  dsimp only
  rw [hlen, if_neg (by omega), Nat.add_sub_cancel, hlast, charToSizeT_ofNat (by omega),
    if_neg (by omega), testProbes_iff]
  refine forall₂_congr fun i hi => ?_
  rw [test_append _ (lt_of_mem_positions (by omega) hi)]

/-- **A Bloom filter has no false negatives**, and may be read by an instance with other
parameters. What was in the string before stays. -/
theorem keyMayMatch_createFilter (p : BloomFilterPolicy) (keys : List Bytes) (dst : Bytes)
    (hbits : keys.length * p.bitsPerKey < 2 ^ 32) :
    ∃ filter, p.createFilter keys keys.length dst = dst ++ filter ∧
      ∀ (q : BloomFilterPolicy), ∀ key ∈ keys, q.keyMayMatch key filter = true := by
  refine ⟨_, p.createFilter_eq dst hbits, fun q key hkey => ?_⟩
  have hpos : 0 < p.filterBytes keys.length := by
    rw [filterBytes]
    omega
  have hne : (allPositions (p.filterBytes keys.length * 8) p.k keys).foldl set
      (List.replicate (p.filterBytes keys.length) 0) ≠ [] :=
    List.ne_nil_of_length_pos (by rw [length_foldl_set, List.length_replicate]; exact hpos)
  rw [q.keyMayMatch_append key hne p.k_le, length_foldl_set, List.length_replicate]
  intro i hi
  refine test_foldl_set (List.mem_flatMap.mpr ⟨key, hkey, hi⟩) ?_
  rw [List.length_replicate]
  exact lt_of_mem_positions (by omega) hi

theorem keyMayMatch_createFilter_two :
    ∃ filter, (new 10).createFilter [[1, 2], []] 2 [7] = [7] ++ filter ∧
      (new 3).keyMayMatch [1, 2] filter = true := by
  obtain ⟨filter, happend, hmatch⟩ :=
    keyMayMatch_createFilter (new 10) [[1, 2], []] [7] (by decide)
  exact ⟨filter, happend, hmatch (new 3) [1, 2] (by decide)⟩

end BloomFilterPolicy

end Squirrel
