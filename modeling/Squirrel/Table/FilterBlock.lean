import Squirrel.Util.Coding
import Squirrel.Util.FilterPolicy

/-!
# Filter blocks

A filter block holds one filter for each two kilobytes of the table file. The keys of a data block
go into the filter of the place where the block starts, so the builder has to be told where that is
(`StartBlock`) before the keys are added, and generates filters up to that place, empty ones if need
be.

`Built` lists the filters generated so far with the keys each was made from. The array of offsets
behind the filters ends with its own offset, which is also where the last filter ends; that is how
the reader gets away with reading one entry past the array.

The keys of a filter are counted in a `size_t`, and the policy is told the number as an `int`. A
filter is only worth something if that is the same number (`Few`).

## Main results

* `FilterBlockBuilder.Built.startBlock` — the filters stay in step with the file
* `FilterBlockBuilder.Built.keyMayMatch` — a key that was added is never missed
-/

namespace Squirrel

open Coding

/-- `kFilterBaseLg`: a new filter every 2KB. -/
def kFilterBaseLg : ℕ := 11

/-- `kFilterBase`. -/
def kFilterBase : ℕ := 2 ^ kFilterBaseLg

/-- The state of a `FilterBlockBuilder`. The source keeps the keys in one string with an array of
their starts. -/
structure FilterBlockBuilder where
  policy : FilterPolicy
  keys : List Bytes
  result : Bytes
  filterOffsets : List ℕ

namespace FilterBlockBuilder

/-- The constructor. -/
def new (policy : FilterPolicy) : FilterBlockBuilder := ⟨policy, [], [], []⟩

/-- `static_cast<int>` of a number of keys. -/
def toInt (numKeys : ℕ) : ℤ := Int.bmod numKeys (2 ^ 32)

/-- `GenerateFilter`. -/
def generateFilter (b : FilterBlockBuilder) : FilterBlockBuilder :=
  let filterOffsets := b.filterOffsets ++ [b.result.length % 2 ^ 32]
  if b.keys.isEmpty then { b with filterOffsets }
  else
    { b with
      filterOffsets
      result := b.policy.createFilter b.keys (toInt b.keys.length) b.result
      keys := [] }

/-- The loop of `StartBlock`. -/
def generateFilters : ℕ → FilterBlockBuilder → FilterBlockBuilder
  | 0, b => b
  | n + 1, b => generateFilters n b.generateFilter

/-- `StartBlock`; nothing if the filters are ahead of the block. -/
def startBlock (blockOffset : ℕ) (b : FilterBlockBuilder) : Option FilterBlockBuilder :=
  let filterIndex := blockOffset / kFilterBase
  if b.filterOffsets.length ≤ filterIndex then
    some (generateFilters (filterIndex - b.filterOffsets.length) b)
  else none

/-- `AddKey`. -/
def addKey (key : Bytes) (b : FilterBlockBuilder) : FilterBlockBuilder :=
  { b with keys := b.keys ++ [key] }

/-- `Finish`: the filter block. -/
def finish (b : FilterBlockBuilder) : Bytes :=
  let b := if b.keys.isEmpty then b else b.generateFilter
  b.result ++ (b.filterOffsets.map encodeFixed32).flatten ++ encodeFixed32 b.result.length
    ++ [UInt8.ofNat kFilterBaseLg]

end FilterBlockBuilder

/-- A `FilterBlockReader`. -/
structure FilterBlockReader where
  policy : FilterPolicy
  contents : Bytes
  offset : ℕ
  num : ℕ
  baseLg : ℕ

namespace FilterBlockReader

/-- The constructor. -/
def new (policy : FilterPolicy) (contents : Bytes) : FilterBlockReader :=
  let n := contents.length
  if n < 5 then ⟨policy, [], 0, 0, 0⟩
  else
    let baseLg := charToSizeT (contents.getD (n - 1) 0)
    let lastWord := decodeFixed32 (contents.drop (n - 5))
    if n - 5 < lastWord then ⟨policy, [], 0, 0, baseLg⟩
    else ⟨policy, contents, lastWord, (n - 5 - lastWord) / 4, baseLg⟩

/-- `KeyMayMatch`. -/
def keyMayMatch (f : FilterBlockReader) (blockOffset : ℕ) (key : Bytes) : Bool :=
  let index := blockOffset >>> f.baseLg
  if index < f.num then
    let start := decodeFixed32 (f.contents.drop (f.offset + index * 4))
    let limit := decodeFixed32 (f.contents.drop (f.offset + index * 4 + 4))
    if start ≤ limit ∧ limit ≤ f.offset then
      f.policy.keyMayMatch key ((f.contents.drop start).take (limit - start))
    else if start = limit then false
    else true
  else true

end FilterBlockReader

namespace FilterBlockBuilder

/-! ### The filters generated so far -/

/-- Where filter `i` starts. -/
def filterStart (filters : List (List Bytes × Bytes)) (i : ℕ) : ℕ :=
  ((filters.take i).map Prod.snd).flatten.length

/-- The builder has generated `filters`, each of which matches the keys it comes with, under the
policy `q` that they will be read with, if there are not too many of them. -/
structure Built (b : FilterBlockBuilder) (q : FilterPolicy) (filters : List (List Bytes × Bytes)) :
    Prop where
  result_eq : b.result = (filters.map Prod.snd).flatten
  offsets_eq : b.filterOffsets = (List.range filters.length).map fun i =>
    filterStart filters i % 2 ^ 32
  sound : ∀ f ∈ filters, f.1.length < 2 ^ 31 → ∀ key ∈ f.1, q.keyMayMatch key f.2 = true

variable {b : FilterBlockBuilder} {q : FilterPolicy} {filters : List (List Bytes × Bytes)}

theorem built_new (policy : FilterPolicy) : (new policy).Built q [] := ⟨rfl, rfl, by simp⟩

theorem Built.length_eq (h : b.Built q filters) : b.filterOffsets.length = filters.length := by
  rw [h.offsets_eq, List.length_map, List.length_range]

theorem Built.addKey (h : b.Built q filters) (key : Bytes) : (b.addKey key).Built q filters :=
  ⟨h.result_eq, h.offsets_eq, h.sound⟩

@[simp] theorem generateFilter_policy (b : FilterBlockBuilder) :
    b.generateFilter.policy = b.policy := by
  rw [generateFilter]
  split <;> rfl

@[simp] theorem generateFilter_keys (b : FilterBlockBuilder) : b.generateFilter.keys = [] := by
  rw [generateFilter]
  split
  · next h => exact List.isEmpty_iff.mp h
  · rfl

theorem filterStart_append_left (filters : List (List Bytes × Bytes)) (f : List Bytes × Bytes)
    {i : ℕ} (h : i ≤ filters.length) : filterStart (filters ++ [f]) i = filterStart filters i := by
  rw [filterStart, filterStart, List.take_append_of_le_length h]

theorem toInt_of_lt {n : ℕ} (h : n < 2 ^ 31) : toInt n = n := by
  refine Int.bmod_eq_of_le ?_ ?_
  · omega
  · omega

/-- The policy appends a filter for the pending keys; without any, it is the empty filter. -/
theorem Built.generateFilter_of_append (h : b.Built q filters) {filter : Bytes}
    (hempty : b.keys = [] → filter = [])
    (hcreate : b.keys ≠ [] →
      b.policy.createFilter b.keys (toInt b.keys.length) b.result = b.result ++ filter)
    (hmatch : b.keys.length < 2 ^ 31 → ∀ key ∈ b.keys, q.keyMayMatch key filter = true) :
    b.generateFilter.Built q (filters ++ [(b.keys, filter)]) := by
  have hoffsets : b.generateFilter.filterOffsets
      = (List.range (filters ++ [(b.keys, filter)]).length).map
          fun i => filterStart (filters ++ [(b.keys, filter)]) i % 2 ^ 32 := by
    have hgenerate : b.generateFilter.filterOffsets
        = b.filterOffsets ++ [b.result.length % 2 ^ 32] := by
      rw [FilterBlockBuilder.generateFilter]
      split <;> rfl
    have hold : b.filterOffsets ++ [b.result.length % 2 ^ 32]
        = (List.range (filters.length + 1)).map fun i => filterStart filters i % 2 ^ 32 := by
      rw [List.range_succ, List.map_append, ← h.offsets_eq, h.result_eq, List.map_singleton,
        filterStart, List.take_length]
    rw [hgenerate, hold, List.length_append, List.length_singleton]
    refine List.map_congr_left fun i hi => ?_
    rw [filterStart_append_left _ _ (Nat.le_of_lt_succ (List.mem_range.mp hi))]
  refine ⟨?_, hoffsets, fun f hf hcount key hkey => ?_⟩
  · rw [List.map_append, List.flatten_append, ← h.result_eq, FilterBlockBuilder.generateFilter]
    split
    · next hnil => simp [hempty (List.isEmpty_iff.mp hnil)]
    · next hne => simpa using hcreate fun hnil => hne (List.isEmpty_iff.mpr hnil)
  · rcases List.mem_append.mp hf with hf | hf
    · exact h.sound f hf hcount key hkey
    · rw [List.mem_singleton.mp hf] at hcount hkey ⊢
      exact hmatch hcount key hkey

/-- Generating a filter puts the pending keys into it, if they can be counted. -/
theorem Built.generateFilter_of_accepts (h : b.Built q filters) (hcount : b.keys.length < 2 ^ 31)
    (haccepts : b.policy.Accepts q b.keys) :
    ∃ filter, b.generateFilter.Built q (filters ++ [(b.keys, filter)]) ∧
      (b.keys = [] → filter = []) := by
  by_cases hnil : b.keys = []
  · refine ⟨[], h.generateFilter_of_append (fun _ => rfl) (fun hne => absurd hnil hne) ?_,
      fun _ => rfl⟩
    simp [hnil]
  · obtain ⟨filter, hcreate, hmatch⟩ := haccepts b.result
    refine ⟨filter, h.generateFilter_of_append (fun h => absurd h hnil) (fun _ => ?_)
      (fun _ => hmatch), fun h => absurd h hnil⟩
    rw [toInt_of_lt hcount, hcreate]

theorem Built.generateFilter (h : b.Built q filters) (hpolicy : b.policy.ReadBy q) :
    ∃ filter, b.generateFilter.Built q (filters ++ [(b.keys, filter)]) := by
  by_cases hcount : b.keys.length < 2 ^ 31
  · obtain ⟨filter, hbuilt, -⟩ := h.generateFilter_of_accepts hcount (hpolicy.accepts _ hcount)
    exact ⟨filter, hbuilt⟩
  · obtain ⟨filter, hcreate⟩ := hpolicy.appends b.keys (toInt b.keys.length) b.result
    refine ⟨filter, h.generateFilter_of_append (fun hnil => ?_) (fun _ => hcreate)
      fun h => absurd h hcount⟩
    rw [hnil] at hcount
    exact absurd (Nat.two_pow_pos 31) hcount

/-- The key is in the filter for blocks that start at `blockOffset`, or will be. -/
def InFilter (b : FilterBlockBuilder) (filters : List (List Bytes × Bytes)) (blockOffset : ℕ)
    (key : Bytes) : Prop :=
  (∃ f, filters[blockOffset / kFilterBase]? = some f ∧ key ∈ f.1) ∨
    blockOffset / kFilterBase = filters.length ∧ key ∈ b.keys

theorem InFilter.addKey {blockOffset : ℕ} {key : Bytes} (h : b.InFilter filters blockOffset key)
    (key' : Bytes) : (b.addKey key').InFilter filters blockOffset key :=
  h.imp_right fun h => ⟨h.1, List.mem_append_left _ h.2⟩

theorem InFilter.generateFilter {blockOffset : ℕ} {key : Bytes}
    (h : b.InFilter filters blockOffset key) (filter : Bytes) :
    b.generateFilter.InFilter (filters ++ [(b.keys, filter)]) blockOffset key := by
  rcases h with ⟨f, hf, hkey⟩ | ⟨hindex, hkey⟩
  · refine .inl ⟨f, ?_, hkey⟩
    rw [List.getElem?_append_left (List.getElem?_eq_some_iff.mp hf).1, hf]
  · refine .inl ⟨(b.keys, filter), ?_, hkey⟩
    rw [hindex, List.getElem?_concat_length]

/-- The keys of the filter for range `i`, or of what will be that filter. -/
def keysOf (b : FilterBlockBuilder) (filters : List (List Bytes × Bytes)) (i : ℕ) : List Bytes :=
  if i = filters.length then b.keys else (filters.getD i ([], [])).1

@[simp] theorem keysOf_new (policy : FilterPolicy) (i : ℕ) : (new policy).keysOf [] i = [] := by
  rw [keysOf]
  split <;> rfl

theorem keysOf_generateFilter (b : FilterBlockBuilder) (filters : List (List Bytes × Bytes))
    (filter : Bytes) :
    b.generateFilter.keysOf (filters ++ [(b.keys, filter)]) = b.keysOf filters := by
  funext i
  rw [keysOf, keysOf, List.length_append, List.length_singleton, generateFilter_keys]
  rcases Nat.lt_trichotomy i filters.length with hlt | rfl | hgt
  · rw [if_neg (by omega), if_neg (by omega), List.getD_append _ _ _ _ hlt]
  · rw [if_neg (by omega), if_pos rfl, List.getD_append_right _ _ _ _ (Nat.le_refl _), Nat.sub_self]
    rfl
  · rw [if_neg (Nat.ne_of_gt hgt), List.getD_eq_default _ _ (Nat.le_of_lt hgt)]
    split
    · rfl
    · rw [List.getD_eq_default]
      rw [List.length_append, List.length_singleton]
      omega

/-- `n` more filters, the first of them of the pending keys. -/
theorem Built.generateFilters (h : b.Built q filters) (hpolicy : b.policy.ReadBy q) (n : ℕ) :
    ∃ more, (b.generateFilters n).Built q (filters ++ more) ∧ more.length = n ∧
      (b.generateFilters n).policy = b.policy ∧
      (b.generateFilters n).keysOf (filters ++ more) = b.keysOf filters ∧
      ∀ blockOffset key, b.InFilter filters blockOffset key →
        (b.generateFilters n).InFilter (filters ++ more) blockOffset key := by
  induction n generalizing b filters with
  | zero =>
    refine ⟨[], ?_, rfl, rfl, by rw [List.append_nil]; rfl, fun blockOffset key hkey => ?_⟩
    · rw [List.append_nil]
      exact h
    · rw [List.append_nil]
      exact hkey
  | succ n ih =>
    obtain ⟨filter, hbuilt⟩ := h.generateFilter hpolicy
    obtain ⟨more, hmore, hlen, hpol, hkeys, hin⟩ :=
      ih hbuilt (by rw [generateFilter_policy]; exact hpolicy)
    rw [List.append_assoc] at hmore hkeys hin
    refine ⟨[(b.keys, filter)] ++ more, hmore, ?_, ?_, ?_, fun blockOffset key hkey => ?_⟩
    · rw [List.length_append, List.length_singleton, hlen, Nat.add_comm]
    · rw [FilterBlockBuilder.generateFilters, hpol, generateFilter_policy]
    · exact hkeys.trans (keysOf_generateFilter b filters filter)
    · exact hin blockOffset key (hkey.generateFilter filter)

/-- **`StartBlock` keeps the filters in step with the file**: afterwards the pending keys are those
of the filter for this offset, and no key is lost. -/
theorem Built.startBlock (h : b.Built q filters) (hpolicy : b.policy.ReadBy q)
    {blockOffset : ℕ} (hle : filters.length ≤ blockOffset / kFilterBase) :
    ∃ b' filters', b.startBlock blockOffset = some b' ∧ b'.Built q filters' ∧
      filters'.length = blockOffset / kFilterBase ∧ b'.policy = b.policy ∧
      b'.keysOf filters' = b.keysOf filters ∧
      ∀ offset key, b.InFilter filters offset key → b'.InFilter filters' offset key := by
  obtain ⟨more, hbuilt, hlen, hpol, hkeys, hin⟩ :=
    h.generateFilters hpolicy (blockOffset / kFilterBase - b.filterOffsets.length)
  refine ⟨_, filters ++ more, ?_, hbuilt, ?_, hpol, hkeys, hin⟩
  · rw [FilterBlockBuilder.startBlock]
    exact if_pos (by rw [h.length_eq]; exact hle)
  · rw [List.length_append, hlen, h.length_eq]
    omega

/-! ### Reading them back -/

/-- What `finish` writes, once the pending keys are in a filter. -/
def contents (b : FilterBlockBuilder) : Bytes :=
  b.result ++ (b.filterOffsets.map encodeFixed32).flatten ++ encodeFixed32 b.result.length
    ++ [UInt8.ofNat kFilterBaseLg]

theorem Built.length_contents (h : b.Built q filters) :
    b.contents.length = b.result.length + filters.length * 4 + 5 := by
  rw [contents, List.length_append, List.length_append, List.length_append,
    length_flatten_encodeFixed32, length_encodeFixed32, h.length_eq, List.length_singleton]

/-- The reader finds the filters where they are. -/
theorem Built.reader_eq (h : b.Built q filters) (policy : FilterPolicy)
    (hlen : b.contents.length < 2 ^ 32) :
    FilterBlockReader.new policy b.contents
      = ⟨policy, b.contents, b.result.length, filters.length, kFilterBaseLg⟩ := by
  have hlength := h.length_contents
  have hlast : b.contents.getD (b.contents.length - 1) 0 = UInt8.ofNat kFilterBaseLg := by
    have heq : b.contents.length - 1 = (b.result ++ (b.filterOffsets.map encodeFixed32).flatten
        ++ encodeFixed32 b.result.length).length := by
      rw [contents, List.length_append, List.length_singleton, Nat.add_sub_cancel]
    rw [heq, contents, List.getD_eq_getElem?_getD, List.getElem?_concat_length]
    rfl
  have hdrop : b.contents.drop (b.contents.length - 5)
      = encodeFixed32 b.result.length ++ [UInt8.ofNat kFilterBaseLg] := by
    have heq : b.contents.length - 5
        = (b.result ++ (b.filterOffsets.map encodeFixed32).flatten).length := by
      rw [List.length_append, length_flatten_encodeFixed32, h.length_eq]
      omega
    rw [heq, contents, List.append_assoc, List.drop_left]
  rw [FilterBlockReader.new]
  dsimp only
  rw [if_neg (by omega), hlast, hdrop, decodeFixed32_encodeFixed32, Nat.mod_eq_of_lt (by omega),
    if_neg (by omega)]
  congr 1
  omega

/-- One word of the array, or the one behind it. -/
theorem Built.decode_offset (h : b.Built q filters) (hlen : b.contents.length < 2 ^ 32) {i : ℕ}
    (hi : i ≤ filters.length) :
    decodeFixed32 (b.contents.drop (b.result.length + i * 4)) = filterStart filters i := by
  have hlength := h.length_contents
  have hstart : filterStart filters i ≤ b.result.length := by
    rw [h.result_eq, filterStart]
    conv_rhs => rw [← List.take_append_drop i filters, List.map_append, List.flatten_append,
      List.length_append]
    exact Nat.le_add_right _ _
  have hdrop : b.contents.drop (b.result.length + i * 4)
      = (b.filterOffsets.map encodeFixed32).flatten.drop (i * 4) ++ (encodeFixed32 b.result.length
        ++ [UInt8.ofNat kFilterBaseLg]) := by
    rw [contents, List.append_assoc, List.append_assoc, ← List.drop_drop, List.drop_left,
      List.drop_append_of_le_length (by rw [length_flatten_encodeFixed32, h.length_eq]; omega)]
  rw [hdrop]
  rcases Nat.lt_or_eq_of_le hi with hlt | rfl
  · have hget : b.filterOffsets[i]? = some (filterStart filters i % 2 ^ 32) := by
      rw [h.offsets_eq, List.getElem?_map, List.getElem?_range hlt]
      rfl
    rw [drop_flatten_encodeFixed32 hget, List.append_assoc, decodeFixed32_encodeFixed32,
      Nat.mod_mod, Nat.mod_eq_of_lt (by omega)]
  · -- the last filter ends where the array starts
    rw [← h.length_eq, ← length_flatten_encodeFixed32, List.drop_length, List.nil_append,
      decodeFixed32_encodeFixed32, Nat.mod_eq_of_lt (by omega), h.result_eq, h.length_eq,
      filterStart, List.take_length]

/-- The reader consults the filter of the range that the offset is in, whatever policy it has. -/
theorem Built.keyMayMatch_filter (h : b.Built q filters) (hlen : b.contents.length < 2 ^ 32)
    {blockOffset : ℕ} {f : List Bytes × Bytes} (hf : filters[blockOffset / kFilterBase]? = some f)
    (policy : FilterPolicy) (key : Bytes) :
    (FilterBlockReader.new policy b.contents).keyMayMatch blockOffset key
      = policy.keyMayMatch key f.2 := by
  obtain ⟨hlt, heq⟩ := List.getElem?_eq_some_iff.mp hf
  generalize hi : blockOffset / kFilterBase = i at hf hlt heq
  have hindex : blockOffset >>> kFilterBaseLg = i := by
    rw [Nat.shiftRight_eq_div_pow]
    exact hi
  have hnext : filterStart filters (i + 1) = filterStart filters i + f.2.length := by
    rw [filterStart, List.take_add_one, hf, filterStart]
    simp
  have hresult : b.result = ((filters.take i).map Prod.snd).flatten
      ++ (f.2 ++ ((filters.drop (i + 1)).map Prod.snd).flatten) := by
    rw [h.result_eq]
    conv_lhs => rw [← List.take_append_drop i filters, List.drop_eq_getElem_cons hlt, heq]
    simp
  have hstart : (filterStart filters (i + 1)) ≤ b.result.length := by
    have := congrArg List.length hresult
    rw [List.length_append, List.length_append] at this
    rw [hnext, filterStart]
    omega
  have hfilter : (b.contents.drop (filterStart filters i)).take f.2.length = f.2 := by
    rw [contents, List.append_assoc, List.append_assoc, hresult, List.append_assoc, filterStart,
      List.drop_left, List.append_assoc, List.take_left]
  rw [h.reader_eq policy hlen, FilterBlockReader.keyMayMatch]
  dsimp only
  rw [hindex, if_pos hlt, h.decode_offset hlen (Nat.le_of_lt hlt), Nat.add_assoc,
    ← Nat.succ_mul, h.decode_offset (i := i + 1) hlen hlt, hnext,
    if_pos ⟨Nat.le_add_right _ _, hnext ▸ hstart⟩, Nat.add_sub_cancel_left, hfilter]

/-- The keys of each filter, and the pending ones, can be counted in an `int`. -/
def Few (b : FilterBlockBuilder) (filters : List (List Bytes × Bytes)) : Prop :=
  ∀ i, (b.keysOf filters i).length < 2 ^ 31

theorem Few.getElem? (hfew : b.Few filters) {i : ℕ} {f : List Bytes × Bytes}
    (hf : filters[i]? = some f) : f.1.length < 2 ^ 31 := by
  have h := hfew i
  have hlt := (List.getElem?_eq_some_iff.mp hf).1
  rwa [keysOf, if_neg (Nat.ne_of_lt hlt), List.getD_eq_getElem?_getD, hf] at h

theorem Built.keyMayMatch_contents (h : b.Built q filters) (hlen : b.contents.length < 2 ^ 32)
    {blockOffset : ℕ} {key : Bytes} {f : List Bytes × Bytes}
    (hf : filters[blockOffset / kFilterBase]? = some f) (hcount : f.1.length < 2 ^ 31)
    (hkey : key ∈ f.1) :
    (FilterBlockReader.new q b.contents).keyMayMatch blockOffset key = true := by
  rw [h.keyMayMatch_filter hlen hf]
  exact h.sound f (List.mem_of_getElem? hf) hcount key hkey

/-- **A key that was added is never missed.** -/
theorem Built.keyMayMatch (h : b.Built q filters) (hpolicy : b.policy.ReadBy q)
    (hfew : b.Few filters) (hlen : b.finish.length < 2 ^ 32) {blockOffset : ℕ} {key : Bytes}
    (hkey : b.InFilter filters blockOffset key) :
    (FilterBlockReader.new q b.finish).keyMayMatch blockOffset key = true := by
  cases hempty : b.keys.isEmpty with
  | true =>
    have hfinish : b.finish = b.contents := by rw [finish, hempty]; rfl
    rw [hfinish] at hlen ⊢
    rcases hkey with ⟨f, hf, hkey⟩ | ⟨-, hkey⟩
    · exact h.keyMayMatch_contents hlen hf (hfew.getElem? hf) hkey
    · rw [List.isEmpty_iff.mp hempty] at hkey
      cases hkey
  | false =>
    have hfinish : b.finish = b.generateFilter.contents := by rw [finish, hempty]; rfl
    obtain ⟨filter, hbuilt⟩ := h.generateFilter hpolicy
    have hfew' : b.generateFilter.Few (filters ++ [(b.keys, filter)]) := by
      rw [Few, keysOf_generateFilter]
      exact hfew
    rw [hfinish] at hlen ⊢
    rcases hkey.generateFilter filter with ⟨f, hf, hkey⟩ | ⟨-, hkey⟩
    · exact hbuilt.keyMayMatch_contents hlen hf (hfew'.getElem? hf) hkey
    · rw [generateFilter_keys] at hkey
      cases hkey

end FilterBlockBuilder

end Squirrel
