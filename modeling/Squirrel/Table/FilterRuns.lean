import Mathlib.Data.List.Flatten
import Squirrel.Table.FilterBlock

/-!
# A filter block from the first call to the last

A table builder calls `StartBlock` for each data block and `AddKey` for each of its keys, so a whole
use of a `FilterBlockBuilder` is a list of blocks, each an offset and the keys that follow. Filters
are generated late: a `StartBlock` closes the range before it, and the keys of all blocks that start
in one range of two kilobytes are pooled. `keysIn` is what the pool of a range should be, read off
the list of blocks alone, and `Pooled` says that the builder's filters and pending keys are those
pools.

The offsets only have to be non-decreasing. That is what the assertion in `StartBlock` checks, up to
the length of a range.

## Main results

* `FilterBlockBuilder.Pooled.addBlock` — one block keeps the filters equal to the pools
* `FilterBlockBuilder.finish_addBlocks` — the assertion never fails, no key is missed, and a range
  without keys is read as an empty filter
* `FilterBlockBuilder.not_finish_addBlocks` — with `2 ^ 31` keys in one range, the policy is told of
  a negative number of keys
-/

namespace Squirrel

namespace FilterBlockBuilder

/-! ### Runs -/

/-- `StartBlock` at an offset, then `AddKey` for each of the keys; nothing if the assertion
fails. -/
def addBlock (block : ℕ × List Bytes) (b : FilterBlockBuilder) : Option FilterBlockBuilder :=
  (b.startBlock block.1).map fun b => block.2.foldl (fun b key => b.addKey key) b

/-- All the calls before `Finish`. -/
def addBlocks : List (ℕ × List Bytes) → FilterBlockBuilder → Option FilterBlockBuilder
  | [], b => some b
  | block :: blocks, b => (b.addBlock block).bind (addBlocks blocks)

/-- The keys of the blocks that start in range `i`. -/
def keysIn (blocks : List (ℕ × List Bytes)) (i : ℕ) : List Bytes :=
  (blocks.filter fun block => block.1 / kFilterBase = i).flatMap Prod.snd

theorem mem_keysIn {blocks : List (ℕ × List Bytes)} {i : ℕ} {key : Bytes} :
    key ∈ keysIn blocks i ↔ ∃ block ∈ blocks, block.1 / kFilterBase = i ∧ key ∈ block.2 := by
  simp only [keysIn, List.mem_flatMap, List.mem_filter, decide_eq_true_eq, and_assoc]

theorem keysIn_eq_nil {blocks : List (ℕ × List Bytes)} {i : ℕ}
    (h : ∀ block ∈ blocks, block.1 / kFilterBase = i → block.2 = []) : keysIn blocks i = [] := by
  refine List.eq_nil_iff_forall_not_mem.mpr fun key hkey => ?_
  obtain ⟨block, hblock, hi, hmem⟩ := mem_keysIn.mp hkey
  rw [h block hblock hi] at hmem
  cases hmem

theorem keysIn_append_of_ne (blocks : List (ℕ × List Bytes)) {block : ℕ × List Bytes} {i : ℕ}
    (h : block.1 / kFilterBase ≠ i) : keysIn (blocks ++ [block]) i = keysIn blocks i := by
  simp [keysIn, List.filter_append, h]

theorem keysIn_append_self (blocks : List (ℕ × List Bytes)) (block : ℕ × List Bytes) :
    keysIn (blocks ++ [block]) (block.1 / kFilterBase)
      = keysIn blocks (block.1 / kFilterBase) ++ block.2 := by
  simp [keysIn, List.filter_append]

/-! ### The pools -/

/-- After `blocks` the filters are those of the pools, in the order of their ranges, and the pending
keys are the pool of the range behind them. -/
structure Pooled (b : FilterBlockBuilder) (policy : FilterPolicy) (blocks : List (ℕ × List Bytes))
    (filters : List (List Bytes × Bytes)) : Prop where
  built : b.Built policy filters
  policy_eq : b.policy = policy
  pool : ∀ i f, filters[i]? = some f → f.1 = keysIn blocks i ∧ (f.1 = [] → f.2 = [])
  pending : b.keys = keysIn blocks filters.length
  behind : ∀ block ∈ blocks, block.1 / kFilterBase ≤ filters.length

variable {b : FilterBlockBuilder} {policy : FilterPolicy} {blocks : List (ℕ × List Bytes)}
  {filters : List (List Bytes × Bytes)}

theorem pooled_new (policy : FilterPolicy) : (new policy).Pooled policy [] [] where
  built := built_new policy
  policy_eq := rfl
  pool := by simp
  pending := rfl
  behind := by simp

/-- The keys of a pool can be counted in an `int`, and the policy accepts its own filter for
them. -/
def CanPool (policy : FilterPolicy) (keys : List Bytes) : Prop :=
  keys.length < 2 ^ 31 ∧ policy.Accepts policy keys

theorem Pooled.generateFilter (h : b.Pooled policy blocks filters)
    (hpool : CanPool policy (keysIn blocks filters.length)) :
    ∃ f, b.generateFilter.Pooled policy blocks (filters ++ [f]) := by
  have hcount : b.keys.length < 2 ^ 31 := by
    rw [h.pending]
    exact hpool.1
  have haccepts : b.policy.Accepts policy b.keys := by
    rw [h.policy_eq, h.pending]
    exact hpool.2
  obtain ⟨filter, hbuilt, hempty⟩ := h.built.generateFilter_of_accepts hcount haccepts
  refine ⟨(b.keys, filter), hbuilt, by rw [generateFilter_policy, h.policy_eq], ?_, ?_, ?_⟩
  · intro i f hf
    rcases Nat.lt_or_ge i filters.length with hi | hi
    · rw [List.getElem?_append_left hi] at hf
      exact h.pool i f hf
    · have hi' : i = filters.length := by
        have := (List.getElem?_eq_some_iff.mp hf).1
        rw [List.length_append, List.length_singleton] at this
        omega
      subst hi'
      rw [List.getElem?_concat_length] at hf
      obtain rfl := Option.some.inj hf
      exact ⟨h.pending, hempty⟩
  · -- no block has reached the range behind the new filter
    rw [generateFilter_keys, List.length_append, List.length_singleton]
    refine (keysIn_eq_nil fun block hblock hi => ?_).symm
    have := h.behind block hblock
    omega
  · intro block hblock
    have := h.behind block hblock
    rw [List.length_append, List.length_singleton]
    omega

theorem Pooled.generateFilters (h : b.Pooled policy blocks filters)
    {n : ℕ} (hpools : ∀ i < filters.length + n, CanPool policy (keysIn blocks i)) :
    ∃ more, (b.generateFilters n).Pooled policy blocks (filters ++ more) ∧ more.length = n := by
  induction n generalizing b filters with
  | zero =>
    refine ⟨[], ?_, rfl⟩
    rw [List.append_nil]
    exact h
  | succ n ih =>
    obtain ⟨f, hf⟩ := h.generateFilter (hpools _ (by omega))
    obtain ⟨more, hmore, hlen⟩ := ih hf fun i hi => hpools i (by simp at hi; omega)
    rw [List.append_assoc] at hmore
    refine ⟨[f] ++ more, hmore, ?_⟩
    rw [List.length_append, hlen, List.length_singleton, Nat.add_comm]

theorem foldl_addKey (keys : List Bytes) (b : FilterBlockBuilder) :
    keys.foldl (fun b key => b.addKey key) b = { b with keys := b.keys ++ keys } := by
  induction keys generalizing b with
  | nil => rw [List.foldl_nil, List.append_nil]
  | cons key keys ih =>
    rw [List.foldl_cons, ih]
    simp [FilterBlockBuilder.addKey]

/-- The keys of a block that starts in the pending range join its pool. -/
theorem Pooled.addKeys (h : b.Pooled policy blocks filters) {block : ℕ × List Bytes}
    (hrange : block.1 / kFilterBase = filters.length) :
    (block.2.foldl (fun b key => b.addKey key) b).Pooled policy (blocks ++ [block]) filters := by
  rw [foldl_addKey]
  refine ⟨⟨h.built.result_eq, h.built.offsets_eq, h.built.sound⟩, h.policy_eq, ?_, ?_, ?_⟩
  · intro i f hf
    have hlt := (List.getElem?_eq_some_iff.mp hf).1
    rw [keysIn_append_of_ne blocks (by omega)]
    exact h.pool i f hf
  · show b.keys ++ block.2 = _
    rw [← hrange, keysIn_append_self, hrange, h.pending]
  · intro other hother
    rcases List.mem_append.mp hother with hother | hother
    · exact h.behind other hother
    · rw [List.mem_singleton.mp hother, hrange]

/-- **One block.** Its range must not be closed yet, and those before it are closed now. -/
theorem Pooled.addBlock (h : b.Pooled policy blocks filters) {block : ℕ × List Bytes}
    (hpools : ∀ i < block.1 / kFilterBase, CanPool policy (keysIn blocks i))
    (hle : filters.length ≤ block.1 / kFilterBase) :
    ∃ b' filters', b.addBlock block = some b' ∧
      b'.Pooled policy (blocks ++ [block]) filters' ∧
      filters'.length = block.1 / kFilterBase := by
  obtain ⟨more, hmore, hlen⟩ :=
    h.generateFilters (n := block.1 / kFilterBase - b.filterOffsets.length)
      fun i hi => hpools i (by rw [h.built.length_eq] at hi; omega)
  have hlength : (filters ++ more).length = block.1 / kFilterBase := by
    rw [List.length_append, hlen, h.built.length_eq]
    omega
  refine ⟨_, filters ++ more, ?_, hmore.addKeys hlength.symm, hlength⟩
  rw [FilterBlockBuilder.addBlock, FilterBlockBuilder.startBlock,
    if_pos (by rw [h.built.length_eq]; exact hle), Option.map_some]

/-- All the blocks, at non-decreasing offsets. -/
theorem Pooled.addBlocks (more : List (ℕ × List Bytes)) (h : b.Pooled policy blocks filters)
    (hpools : ∀ i, CanPool policy (keysIn (blocks ++ more) i))
    (hsorted : more.Pairwise fun x y => x.1 ≤ y.1)
    (hle : ∀ block ∈ more, filters.length ≤ block.1 / kFilterBase) :
    ∃ b' filters', b.addBlocks more = some b' ∧ b'.Pooled policy (blocks ++ more) filters' := by
  induction more generalizing b blocks filters with
  | nil =>
    rw [List.append_nil]
    exact ⟨b, filters, rfl, h⟩
  | cons block more ih =>
    obtain ⟨hfirst, hsorted⟩ := List.pairwise_cons.mp hsorted
    have hranges : ∀ other ∈ more, block.1 / kFilterBase ≤ other.1 / kFilterBase :=
      fun other hother => Nat.div_le_div_right (hfirst other hother)
    have hclosed : ∀ i < block.1 / kFilterBase, CanPool policy (keysIn blocks i) := by
      intro i hi
      have heq : keysIn (blocks ++ block :: more) i = keysIn blocks i := by
        have hnil : keysIn (block :: more) i = [] := by
          refine keysIn_eq_nil fun other hother hrange => ?_
          rcases List.mem_cons.mp hother with rfl | hother
          · omega
          · have := hranges other hother
            omega
        rw [keysIn, List.filter_append, List.flatMap_append, ← keysIn, ← keysIn, hnil,
          List.append_nil]
      exact heq ▸ hpools i
    obtain ⟨b', filters', hadd, hpooled, hlen⟩ :=
      h.addBlock hclosed (hle block List.mem_cons_self)
    have hassoc : blocks ++ block :: more = blocks ++ [block] ++ more := by simp
    rw [hassoc] at hpools ⊢
    obtain ⟨b'', filters'', hadds, hpooled'⟩ :=
      ih hpooled hpools hsorted fun other hother => hlen ▸ hranges other hother
    exact ⟨b'', filters'', by rw [FilterBlockBuilder.addBlocks, hadd, Option.bind_some, hadds],
      hpooled'⟩

/-! ### The finished block -/

/-- `Finish` closes the pending range if it has keys. -/
theorem Pooled.finish (h : b.Pooled policy blocks filters)
    (hpool : CanPool policy (keysIn blocks filters.length)) :
    ∃ (b' : FilterBlockBuilder) (filters' : List (List Bytes × Bytes)), b.finish = b'.contents ∧
      b'.Pooled policy blocks filters' ∧ filters.length ≤ filters'.length ∧
      ∀ i, keysIn blocks i ≠ [] → i < filters'.length := by
  cases hempty : b.keys.isEmpty with
  | true =>
    refine ⟨b, filters, by rw [FilterBlockBuilder.finish, hempty]; rfl, h, le_rfl, fun i hi => ?_⟩
    by_contra hge
    refine hi (keysIn_eq_nil fun block hblock hrange => ?_)
    have hi' : i = filters.length := by
      have := h.behind block hblock
      omega
    have hpending : keysIn blocks filters.length = [] := by
      rw [← h.pending]
      exact List.isEmpty_iff.mp hempty
    refine List.eq_nil_iff_forall_not_mem.mpr fun key hkey => ?_
    have hmem : key ∈ keysIn blocks filters.length :=
      mem_keysIn.mpr ⟨block, hblock, hrange.trans hi', hkey⟩
    rw [hpending] at hmem
    cases hmem
  | false =>
    obtain ⟨f, hf⟩ := h.generateFilter hpool
    refine ⟨_, _, by rw [FilterBlockBuilder.finish, hempty]; rfl, hf, by simp, fun i hi => ?_⟩
    obtain ⟨key, hkey⟩ := List.exists_mem_of_ne_nil _ hi
    obtain ⟨block, hblock, hrange, -⟩ := mem_keysIn.mp hkey
    have := h.behind block hblock
    rw [List.length_append, List.length_singleton]
    omega

/-- The reader consults the filter of the pool. -/
theorem Pooled.keyMayMatch_contents (h : b.Pooled policy blocks filters)
    (hlen : b.contents.length < 2 ^ 32) {blockOffset : ℕ}
    (hlt : blockOffset / kFilterBase < filters.length)
    (hcount : (keysIn blocks (blockOffset / kFilterBase)).length < 2 ^ 31) :
    ∃ filter, (∀ (q : FilterPolicy) (key : Bytes),
        (FilterBlockReader.new q b.contents).keyMayMatch blockOffset key
          = q.keyMayMatch key filter) ∧
      (∀ key ∈ keysIn blocks (blockOffset / kFilterBase), policy.keyMayMatch key filter = true) ∧
      (keysIn blocks (blockOffset / kFilterBase) = [] → filter = []) := by
  obtain ⟨f, hf⟩ : ∃ f, filters[blockOffset / kFilterBase]? = some f :=
    ⟨_, List.getElem?_eq_getElem hlt⟩
  obtain ⟨hpool, hempty⟩ := h.pool _ f hf
  refine ⟨f.2, fun q key => h.built.keyMayMatch_filter hlen hf q key, ?_, ?_⟩
  · rw [← hpool] at hcount ⊢
    exact h.built.sound f (List.mem_of_getElem? hf) hcount
  · rw [← hpool]
    exact hempty

/-- **No false negatives.** A builder that is told of blocks at non-decreasing offsets never fails
its assertion, and the finished block answers `true` for each key at the offset of its block. For an
offset whose range got no keys, with a block behind that range, the reader consults the empty
filter, whatever its policy. The policy has to accept its own filters, for the pools that occur, and
the keys of a pool have to be as few as an `int` can count. -/
theorem finish_addBlocks (policy : FilterPolicy) (blocks : List (ℕ × List Bytes))
    (haccepts : ∀ i, policy.Accepts policy (keysIn blocks i))
    (hcount : ∀ i, (keysIn blocks i).length < 2 ^ 31)
    (hsorted : blocks.Pairwise fun x y => x.1 ≤ y.1) :
    ∃ b, (new policy).addBlocks blocks = some b ∧
      (b.finish.length < 2 ^ 32 →
        (∀ block ∈ blocks, ∀ key ∈ block.2,
          (FilterBlockReader.new policy b.finish).keyMayMatch block.1 key = true) ∧
        ∀ offset, (∀ block ∈ blocks, block.1 / kFilterBase = offset / kFilterBase → block.2 = []) →
          (∃ block ∈ blocks, offset / kFilterBase < block.1 / kFilterBase) →
          ∀ (q : FilterPolicy) (key : Bytes),
            (FilterBlockReader.new q b.finish).keyMayMatch offset key = q.keyMayMatch key []) := by
  obtain ⟨b, filters, hadd, hpooled⟩ := (pooled_new policy).addBlocks blocks
    (by rw [List.nil_append]; exact fun i => ⟨hcount i, haccepts i⟩) hsorted
    fun _ _ => Nat.zero_le _
  rw [List.nil_append] at hpooled
  obtain ⟨b', filters', hfinish, hpooled', hle, hkeys⟩ := hpooled.finish ⟨hcount _, haccepts _⟩
  refine ⟨b, hadd, fun hlen => ?_⟩
  rw [hfinish] at hlen ⊢
  constructor
  · intro block hblock key hkey
    have hmem : key ∈ keysIn blocks (block.1 / kFilterBase) :=
      mem_keysIn.mpr ⟨block, hblock, rfl, hkey⟩
    obtain ⟨filter, hread, hmatch, -⟩ :=
      hpooled'.keyMayMatch_contents hlen (hkeys _ (List.ne_nil_of_mem hmem)) (hcount _)
    rw [hread]
    exact hmatch key hmem
  · rintro offset hnone ⟨block, hblock, hlt⟩ q key
    have hbehind := hpooled.behind block hblock
    obtain ⟨filter, hread, -, hempty⟩ :=
      hpooled'.keyMayMatch_contents hlen (show offset / kFilterBase < filters'.length by omega)
        (hcount _)
    rw [hread, hempty (keysIn_eq_nil hnone)]

/-- A policy that lists the first bytes of the keys that it is told of. -/
def firstByteFilter : FilterPolicy where
  name := []
  createFilter keys n dst := dst ++ (keys.take n.toNat).map fun key => key.headD 0
  keyMayMatch key filter := filter.contains (key.headD 0)

theorem firstByteFilter_noFalseNegatives : firstByteFilter.NoFalseNegatives where
  appends _ _ _ := ⟨_, rfl⟩
  accepts keys _ dst := by
    refine ⟨_, rfl, fun key hkey => ?_⟩
    rw [Int.toNat_natCast, List.take_length]
    exact List.contains_iff_mem.mpr (List.mem_map.mpr ⟨key, hkey, rfl⟩)

theorem finish_addBlocks_three :
    ∃ b, (new firstByteFilter).addBlocks [(0, [[1]]), (2000, [[2]]), (9000, [[3]])] = some b ∧
      (FilterBlockReader.new firstByteFilter b.finish).keyMayMatch 2000 [2] = true ∧
      ∀ (q : FilterPolicy) (key : Bytes),
        (FilterBlockReader.new q b.finish).keyMayMatch 4100 key = q.keyMayMatch key [] := by
  have hcount : ∀ i, (keysIn [(0, [[1]]), (2000, [[2]]), (9000, [[3]])] i).length < 2 ^ 31 := by
    intro i
    refine Nat.lt_of_le_of_lt (List.Sublist.length_le ?_)
      (show ([[1], [2], [3]] : List Bytes).length < 2 ^ 31 by decide)
    exact List.filter_sublist.flatMap Prod.snd
  obtain ⟨b, hadd, h⟩ := finish_addBlocks firstByteFilter [(0, [[1]]), (2000, [[2]]), (9000, [[3]])]
    (fun i => firstByteFilter_noFalseNegatives.accepts _ (hcount i)) hcount (by decide)
  have hlen : b.finish.length < 2 ^ 32 := by
    obtain rfl := Option.some.inj hadd
    decide
  obtain ⟨hkeys, hempty⟩ := h hlen
  exact ⟨b, hadd, hkeys (2000, [[2]]) (by decide) [2] (by decide),
    hempty 4100 (by decide) (by decide)⟩

/-- The filter block for as many keys at offset zero as make the number of keys negative. -/
theorem finish_addBlocks_negative {keys : List Bytes} (hne : keys ≠ [])
    (hcount : toInt keys.length < 0) :
    ∃ b, (new firstByteFilter).addBlocks [(0, keys)] = some b ∧
      b.finish = [0, 0, 0, 0, 0, 0, 0, 0, 11] := by
  have hstart : (new firstByteFilter).startBlock 0 = some (new firstByteFilter) := rfl
  refine ⟨keys.foldl (fun b key => b.addKey key) (new firstByteFilter), ?_, ?_⟩
  · rw [addBlocks, addBlock, hstart]
    rfl
  rw [foldl_addKey]
  have hempty : keys.isEmpty = false := by simpa using hne
  simp only [new, List.nil_append, finish, generateFilter, hempty, firstByteFilter,
    Int.toNat_of_nonpos (Int.le_of_lt hcount), List.take_zero, List.map_nil, Bool.false_eq_true,
    if_false]
  decide

/-- **As many keys in one range as an `int` cannot count.** The policy is told of a negative number
of keys and lists none of them. -/
theorem not_finish_addBlocks : firstByteFilter.NoFalseNegatives ∧
    ∃ b, (new firstByteFilter).addBlocks [(0, List.replicate (2 ^ 31) [1])] = some b ∧
      b.finish.length < 2 ^ 32 ∧ [1] ∈ List.replicate (2 ^ 31) ([1] : Bytes) ∧
      (FilterBlockReader.new firstByteFilter b.finish).keyMayMatch 0 [1] = false := by
  refine ⟨firstByteFilter_noFalseNegatives, ?_⟩
  have hmem : [1] ∈ List.replicate (2 ^ 31) ([1] : Bytes) :=
    List.mem_replicate.mpr ⟨Nat.ne_of_gt (Nat.two_pow_pos 31), rfl⟩
  obtain ⟨b, hadd, hfinish⟩ := finish_addBlocks_negative (List.ne_nil_of_mem hmem)
    (by rw [List.length_replicate]; decide)
  refine ⟨b, hadd, ?_, hmem, ?_⟩
  · rw [hfinish]
    decide
  · rw [hfinish]
    decide

end FilterBlockBuilder

end Squirrel
