import Squirrel.Table.SingleTable
import Squirrel.Table.TableRuns

/-!
# Approximate offsets

`ApproximateOffsetOf` seeks its key in the index and answers with the offset in the handle it ends
at, or with that of the metaindex block if it ends behind the index. The index keys separate the
data blocks, which follow each other in the file, and the metaindex block is behind all of them; so
larger keys get larger offsets, whether or not they are in the table.

The index block has to be one that can be read: `ReadBlock` does not return what it decompresses,
and offsets in a block are 32-bit numbers (`IndexIntact`). A run of the builder that returns has met
its assertions, so nothing else is asked of the calls (`Ready.runCalls_of_ok`).

## Main results

* `Table.approximateOffsetOf_build` — monotone, exact for the keys of the table, and never behind
  the metaindex block
* `Table.not_approximateOffsetOf_build` — not so for an index block that is compressed, or too large
-/

namespace Squirrel

open Coding Block

namespace TableBuilder

variable {sn : Snappy} {K : CompressionType → Prop} {c : Comparator} {P : Bytes → Prop}
  {q : FilterPolicy} {r r' : TableBuilder} {blocks : List DataBlock}
  {pending : Option (BlockHandle × List (Bytes × Bytes))} {current : List (Bytes × Bytes)}
  {calls : List Call}

/-! ### Runs that return -/

/-- A call of `Add` that returns has met its assertion on the order of keys. -/
theorem Ready.lt_of_add_ok (hc : c.Lawful P) (hr : Ready sn K c P q r blocks pending current)
    {key value : Bytes} (hadd : r.add sn key value = .ok r') :
    ∀ a ∈ allEntries blocks pending current, c.compare a.1 key = .lt := by
  have htrans := hc.trans
  have hsorted := hr.layout.sorted
  intro a ha
  rcases List.eq_nil_or_concat' (allEntries blocks pending current) with hnil | ⟨front, x, hall⟩
  · rw [hnil] at ha
    exact absurd ha List.not_mem_nil
  · have hlast : r.lastKey = x.1 := hr.lastKey_eq x (by rw [hall, List.getLast?_concat])
    have hpos : 0 < r.numEntries := by
      rw [hr.numEntries_eq, hall, List.length_append]
      exact Nat.lt_of_lt_of_le Nat.one_pos (Nat.le_add_left _ _)
    have hgt : c.compare key x.1 = .gt := by
      by_contra hne
      have hassert : 0 < r.numEntries ∧ c.compare key x.1 ≠ .gt := ⟨hpos, hne⟩
      rw [TableBuilder.add, hr.closed_eq, hr.status_eq, hr.comparator_eq, hlast,
        if_pos hassert] at hadd
      cases hadd
    have hx : c.compare x.1 key = .lt := Std.OrientedCmp.gt_iff_lt.mp hgt
    rw [hall] at ha hsorted
    rcases List.mem_append.mp ha with ha | ha
    · exact Std.TransCmp.lt_trans ((List.pairwise_append.mp hsorted).2.2 a ha x (by simp)) hx
    · rwa [List.mem_singleton.mp ha]

/-- A call of `Add` that returns has met the assertion on the restart interval. -/
theorem Ready.counter_of_add_ok (hc : c.Lawful P) (hr : Ready sn K c P q r blocks pending current)
    {key value : Bytes} (hkey : P key) (hadd : r.add sn key value = .ok r') :
    r.dataBlock.counter ≤ r.options.blockRestartInterval := by
  have hlt := hr.lt_of_add_ok hc hadd
  obtain ⟨r₁, blocks', hpending, -, -, -, hopt, hdata, -⟩ := hr.addPending hc hkey hlt
  rw [TableBuilder.add] at hadd
  split_ifs at hadd with hclosed hstatus horder
  · rw [hr.status_eq] at hstatus
    cases hstatus
  · rw [hpending] at hadd
    obtain ⟨dataBlock, hblock, -⟩ := bind_eq_ok (show r₁.addEntry sn key value = .ok r' from hadd)
    have hsome := orAbort_eq_ok hblock
    simp only [BlockBuilder.addWith, BlockBuilder.add, hopt, hdata] at hsome
    exact (Option.ite_none_right_eq_some.mp hsome).1.2.1

/-- **A run that returns has met its assertions**: the keys increase, and the restart interval has
never become too small for the block that was being built. -/
theorem Ready.runCalls_of_ok (hc : c.Lawful P) (hr : Ready sn K c P q r blocks pending current)
    (hoptions : OptionsFit K calls) (hkeys : ∀ a ∈ added calls, P a.1)
    (hrun : r.runCalls sn calls = .ok r') (hsmall : r'.file.contents.length < 2 ^ 63) :
    CountersFit sn r calls ∧
      (allEntries blocks pending current ++ added calls).Pairwise
        fun a b => c.compare a.1 b.1 = .lt := by
  induction calls generalizing r blocks pending current with
  | nil =>
    refine ⟨trivial, ?_⟩
    rw [show added [] = [] from rfl, List.append_nil]
    exact hr.layout.sorted
  | cons call calls ih =>
    obtain ⟨r₁, hcall, hrest⟩ := bind_eq_ok hrun
    obtain ⟨hoption, hoptions'⟩ := optionsFit_cons.mp hoptions
    have hsmall₁ : r₁.file.contents.length < 2 ^ 63 := by
      have hgrows := (runCalls_grows sn r₁ calls).outcome_ge
      rw [hrest] at hgrows
      exact Nat.lt_of_le_of_lt hgrows hsmall
    have hadd : ∀ key value, call = .add key value → P key ∧
        (∀ a ∈ allEntries blocks pending current, c.compare a.1 key = .lt) ∧
        r.dataBlock.counter ≤ r.options.blockRestartInterval := by
      rintro key value rfl
      have hkey : P key := hkeys (key, value) List.mem_cons_self
      exact ⟨hkey, hr.lt_of_add_ok hc hcall, hr.counter_of_add_ok hc hkey hcall⟩
    obtain ⟨r₂, blocks₂, pending₂, current₂, hr₂, hready, hall, -⟩ :=
      hr.call hc hadd hoption (by rw [hcall]; exact hsmall₁)
    obtain rfl : r₂ = r₁ := Except.ok.inj (hr₂.symm.trans hcall)
    rw [added_cons] at hkeys
    obtain ⟨hfit, hsorted⟩ := ih hready hoptions'
      (fun a ha => hkeys a (List.mem_append_right _ ha)) hrest
    refine ⟨⟨fun key value heq => (hadd key value heq).2.2, fun r₃ hr₃ => ?_⟩, ?_⟩
    · obtain rfl : r₂ = r₃ := Except.ok.inj (hcall.symm.trans hr₃)
      exact hfit
    · rwa [hall, List.append_assoc, ← added_cons] at hsorted

/-- `Finish` returns only if there is a policy to name the filters by. -/
theorem Ready.policy_of_finish_ok (hr : Ready sn K c P q r blocks pending current)
    (hfinish : r.finish sn = .ok r') (hsmall : r'.file.contents.length < 2 ^ 63)
    (hfilter : r.filterBlock ≠ none) : r.options.filterPolicy ≠ none := by
  have hsmall' : (outcome (r.finish sn)).file.contents.length < 2 ^ 63 := by
    rw [hfinish]
    exact hsmall
  have hflush := Nat.lt_of_le_of_lt (outcome_bind_ge fun r₁ => Grows.trans
    (writeFilter_grows { r₁ with closed := true }) (writeMetaindex_writeFooter_grows sn _ _))
      hsmall'
  obtain ⟨r₁, pending₁, hr₁, hb₁, -, hopt₁, -, hnone₁, -⟩ := hr.toBuilding.flush hflush
  have hrest : (writeFilter { r₁ with closed := true }).1.writeMetaindex sn
      (writeFilter { r₁ with closed := true }).2 >>= (fun p =>
        p.1.writeIndex sn >>= fun x => x.1.writeFooter p.2 x.2) = .ok r' := by
    rw [TableBuilder.finish, hr₁] at hfinish
    exact hfinish
  have hsmall₂ : (writeFilter { r₁ with closed := true }).1.file.contents.length < 2 ^ 63 := by
    have hgrows := (writeMetaindex_writeFooter_grows sn (writeFilter { r₁ with closed := true }).2
      (writeFilter { r₁ with closed := true }).1).outcome_ge
    refine Nat.lt_of_le_of_lt hgrows ?_
    rwa [show outcome _ = r' from congrArg outcome hrest]
  have hindexed : Indexed sn K c P { r₁ with closed := true } blocks pending₁ [] :=
    { hb₁.toIndexed with }
  obtain ⟨hb₂, hext₂, -⟩ := hindexed.writeFilter hsmall₂
  obtain ⟨p, hmeta, -⟩ := bind_eq_ok hrest
  rw [writeMetaindex, hb₂.status_eq, if_pos Status.ok_success] at hmeta
  obtain ⟨block, hblock, -⟩ := bind_eq_ok hmeta
  have hsome := orAbort_eq_ok hblock
  intro hpolicy
  obtain ⟨fb, hfb⟩ := Option.ne_none_iff_exists'.mp fun h => hfilter (hnone₁.mp h)
  have hfb₂ : (writeFilter { r₁ with closed := true }).1.filterBlock = some fb :=
    hext₂.filterBlock_eq.trans hfb
  have hopt₂ : (writeFilter { r₁ with closed := true }).1.options = r.options :=
    hext₂.options_eq.trans hopt₁
  rw [TableBuilder.metaIndexBlock, hfb₂, hopt₂, hpolicy] at hsome
  obtain ⟨b, -, hnothing⟩ := Option.bind_eq_some_iff.mp hsome
  cases hnothing

/-- **A run that returns leaves a finished table**, with the metaindex block behind the data blocks.
That its filters can be used does not matter here, so they are read with a policy that accepts
everything. -/
theorem tableFile_of_build {options : Options} {file : WritableFile}
    (hnew : TableBuilder.new options file = some r) (hc : options.comparator.Lawful P)
    (hempty : file.contents = []) (hsound : file.Sound)
    (hoptions : OptionsFit (fun _ => True) calls)
    (happends : ∀ p, options.filterPolicy = some p → p.Appends) (hkeys : ∀ a ∈ added calls, P a.1)
    (hbuild : r.build sn calls = .ok r') (hsmall : r'.file.contents.length < 2 ^ 63) :
    ∃ q blocks, r'.fileSize = r'.file.contents.length ∧
      TableFile sn (fun _ => True) options.comparator P q r'.file.contents blocks ∧
      (blocks.map DataBlock.entries).flatten = added calls ∧
      MetaindexBehind r'.file.contents blocks := by
  obtain ⟨q, hread, hnamed⟩ :=
    FilterPolicy.exists_reader happends (finalOptions options calls).filterPolicy
  obtain ⟨r₀, hnew₀, hready, hopt, hnone, -⟩ := ready_new sn (P := P) (K := fun _ => True) hempty
    hsound (interval_of_new hnew) trivial hread
  obtain rfl : r₀ = r := Option.some.inj (hnew₀.symm.trans hnew)
  obtain ⟨r₁, hrun, hfinish⟩ := bind_eq_ok ((build_eq_bind sn r₀ calls).symm.trans hbuild)
  have hsmall₁ : r₁.file.contents.length < 2 ^ 63 := by
    have hgrows := (finish_grows sn r₁).outcome_ge
    rw [hfinish] at hgrows
    exact Nat.lt_of_le_of_lt hgrows hsmall
  obtain ⟨hfit, hsorted⟩ := hready.runCalls_of_ok hc hoptions hkeys hrun hsmall₁
  obtain ⟨r₂, blocks₂, pending₂, current₂, hrun₂, hready₂, -, hopt₂, hnone₂, -⟩ :=
    hready.runCalls hc hfit hoptions hkeys hsorted (by rw [hrun]; exact hsmall₁)
  obtain rfl : r₂ = r₁ := Except.ok.inj (hrun₂.symm.trans hrun)
  have hpolicy : r₀.filterBlock ≠ none →
      (finalOptions r₀.options calls).filterPolicy.map FilterPolicy.name = some q.name := by
    intro hne
    have hsome := hready₂.policy_of_finish_ok hfinish hsmall fun h => hne (hnone₂.mp h)
    rw [hopt₂, hopt] at hsome
    rw [hopt]
    exact hnamed hsome
  obtain ⟨r₃, blocks, hbuild₃, -, hoffset, -, htable, hentries, hbehind, -⟩ :=
    hready.build hc hfit hoptions hpolicy hkeys hsorted (by rw [hbuild]; exact hsmall)
  obtain rfl : r₃ = r' := Except.ok.inj (hbuild₃.symm.trans hbuild)
  exact ⟨q, blocks, hoffset, htable, hentries, hbehind⟩

end TableBuilder

namespace Table

/-! ### The function -/

/-- `ApproximateOffsetOf`. -/
def approximateOffsetOf (table : Table) (key : Bytes) : Option ℕ := do
  let indexIter ← table.indexBlock.newIterator.step table.options.comparator.compare decodeEntry
    (.seek key)
  match indexIter.entry with
  | some (_, input) =>
    match BlockHandle.decodeFrom input with
    | .ok (handle, _) => some handle.offset
    -- Strange: the handle in the index block cannot be decoded.
    | .error _ => some table.metaindexHandle.offset
  -- The key is past the last key in the file.
  | none => some table.metaindexHandle.offset

/-! ### The index of a table that has been opened -/

/-- The index block is stored as it is, and is below `2 ^ 32` bytes. -/
def IndexIntact (contents : Bytes) : Prop :=
  ∀ footer, Footer.decodeFrom (contents.drop (contents.length - Footer.kEncodedLength))
    = some (.ok footer) →
    footer.indexHandle.size < 2 ^ 32 ∧
      (contents.drop (footer.indexHandle.offset + footer.indexHandle.size)).head?
        = some CompressionType.kNoCompression.toByte

variable {sn : Snappy} {junk : ℕ → UInt8} {K : CompressionType → Prop} {c : Comparator}
  {P : Bytes → Prop} {q : FilterPolicy} {f : RandomAccessFile} {blocks : List DataBlock}
  {options : Options} {table : Table} {s : Status}

/-- A block that says it is stored as it is, is. -/
theorem stored_of_head {contents : Bytes} {h : BlockHandle} {entries : List (Bytes × Bytes)}
    (hs : BlockStored sn K contents h entries)
    (htype : (contents.drop (h.offset + h.size)).head?
      = some CompressionType.kNoCompression.toByte) :
    ∃ b : BlockBuilder, b.Holds entries ∧ Stored contents h b.finish.1 .kNoCompression := by
  obtain ⟨b, compression, hb, -, front, back, hfile, rfl⟩ := hs
  have hbyte : (TableBuilder.compressBlock sn compression b.finish.1).2 = .kNoCompression := by
    rw [hfile, ← List.drop_drop, List.drop_left, TableBuilder.storedBlock, List.append_assoc,
      List.drop_left] at htype
    generalize (TableBuilder.compressBlock sn compression b.finish.1).2 = type at htype ⊢
    cases type with
    | kNoCompression => rfl
    | kSnappyCompression =>
      have hsame : CompressionType.kSnappyCompression.toByte
          = CompressionType.kNoCompression.toByte :=
        Option.some.inj htype
      exact absurd hsame (by decide)
  have hnot : ¬ TableBuilder.StoresCompressed sn compression b.finish.1 := by
    rintro ⟨rfl, compressed, hcompress, hlt⟩
    rw [TableBuilder.compressBlock, hcompress] at hbyte
    simp [hlt] at hbyte
  rw [TableBuilder.compressBlock_of_not hnot] at hfile ⊢
  exact ⟨b, hb, front, back, hfile, rfl⟩

/-- What `Open` has found in a finished table. -/
theorem index_of_openTable (ht : TableFile sn K c P q f.contents blocks)
    (hbehind : MetaindexBehind f.contents blocks) (hread : f.Readable)
    (hsmall : f.contents.length < 2 ^ 63) (hintact : IndexIntact f.contents)
    (hopen : openTable sn junk options f f.contents.length = some (s, some table)) :
    table.options = options ∧
      (∃ b : BlockBuilder, b.Holds (blocks.map DataBlock.indexEntry) ∧ b.finish.1.length < 2 ^ 32 ∧
        table.indexBlock = .new b.finish.1) ∧
      table.metaindexHandle.offset < f.contents.length ∧
      ∀ b ∈ blocks, b.handle.offset < table.metaindexHandle.offset := by
  obtain ⟨footer, _, hsections⟩ := ht.sections
  obtain ⟨front, hfile⟩ := hsections.ends
  have hindex := hsections.index
  have hmeta := hsections.metaindex
  have hdecode := decodeFrom_footer hfile (hmeta.set hsmall) (hindex.set hsmall)
  have hsame : MetaindexBehind f.contents blocks →
      footer.metaindexHandle.offset < f.contents.length ∧
        ∀ b ∈ blocks, b.handle.offset < footer.metaindexHandle.offset := by
    rintro ⟨front', footer', hfile', hmeta', hindex', hlt, hbehind⟩
    rw [decodeFrom_footer hfile' hmeta' hindex'] at hdecode
    cases hdecode
    exact ⟨hlt, hbehind⟩
  obtain ⟨hlt, htype⟩ := hintact footer hdecode
  obtain ⟨b, hb, hstored⟩ := stored_of_head hindex htype
  obtain ⟨block, hblock, hdata⟩ := hstored.readBlock sn hread hsmall junk options.paranoidChecks
  have hlen : footer.encoding.length = Footer.kEncodedLength :=
    Footer.length_encoding (hmeta.set hsmall) (hindex.set hsmall)
  obtain ⟨s', d, hd, hbytes⟩ := read_footer hfile hread hsmall (by rw [hlen]; decide)
  rw [hlen] at hd
  have hfooter : Footer.decodeFrom footer.encoding = some (.ok footer) :=
    Footer.decodeFrom_encodeTo (hmeta.set hsmall) (hindex.set hsmall)
  have hlong : ¬ f.contents.length < Footer.kEncodedLength := by
    rw [hfile, List.length_append, hlen]
    omega
  rw [openTable, if_neg hlong, hd] at hopen
  simp only [hbytes, hfooter, hblock, hdata, Option.bind_eq_bind, Option.bind_some,
    Status.ok_success, if_true] at hopen
  obtain ⟨filter, -, hopen⟩ := Option.bind_eq_some_iff.mp hopen
  cases hopen
  exact ⟨rfl, ⟨b, hb, hstored.lt.2 ▸ hlt, rfl⟩, hsame hbehind⟩

/-! ### Offsets -/

/-- The offset for a key: that of the first block whose index key is not before it, or the end. -/
def offsetFor (cmp : Bytes → Bytes → Ordering) (blocks : List DataBlock) (stop : ℕ) (key : Bytes) :
    ℕ :=
  match blocks[blocks.findIdx fun b => !decide (cmp b.separator key = .lt)]? with
  | some b => b.handle.offset
  | none => stop

theorem offsetFor_le {cmp : Bytes → Bytes → Ordering} {stop : ℕ}
    (hstop : ∀ b ∈ blocks, b.handle.offset < stop) (key : Bytes) :
    offsetFor cmp blocks stop key ≤ stop := by
  rw [offsetFor]
  split
  · next b hb => exact (hstop b (List.mem_of_getElem? hb)).le
  · exact le_rfl

/-- Larger keys get larger offsets: the search ends later, and later blocks have larger offsets. -/
theorem offsetFor_mono {cmp : Bytes → Bytes → Ordering} [Std.TransCmp cmp] {stop : ℕ}
    (hcont : ∃ stop, Contiguous 0 (blocks.map DataBlock.handle) stop)
    (hstop : ∀ b ∈ blocks, b.handle.offset < stop) {k₁ k₂ : Bytes} (hle : cmp k₁ k₂ ≠ .gt) :
    offsetFor cmp blocks stop k₁ ≤ offsetFor cmp blocks stop k₂ := by
  obtain ⟨stop', hcont⟩ := hcont
  have hpair := List.pairwise_map.mp hcont.pairwise.2.2
  have hidx : (blocks.findIdx fun b => !decide (cmp b.separator k₁ = .lt))
      ≤ blocks.findIdx fun b => !decide (cmp b.separator k₂ = .lt) := by
    refine List.findIdx_le_findIdx fun b _ hb => ?_
    simp only [Bool.not_eq_true', decide_eq_false_iff_not] at hb ⊢
    intro hlt
    exact hb (Std.TransCmp.lt_of_lt_of_isLE hlt (Ordering.isLE_iff_ne_gt.mpr hle))
  rw [offsetFor]
  split
  · next b₁ hb₁ =>
    rw [offsetFor]
    split
    · next b₂ hb₂ =>
      obtain ⟨hi, rfl⟩ := List.getElem?_eq_some_iff.mp hb₁
      obtain ⟨hj, rfl⟩ := List.getElem?_eq_some_iff.mp hb₂
      rcases Nat.eq_or_lt_of_le hidx with heq | hlt
      · exact (congrArg (fun b : DataBlock => b.handle.offset) (getElem_congr_idx heq)).le
      · have hoff := List.pairwise_iff_getElem.mp hpair _ _ hi hj hlt
        omega
    · exact (hstop b₁ (List.mem_of_getElem? hb₁)).le
  · next hnone =>
    have hend : blocks[blocks.findIdx fun b => !decide (cmp b.separator k₂ = .lt)]? = none :=
      List.getElem?_eq_none (Nat.le_trans (List.getElem?_eq_none_iff.mp hnone) hidx)
    rw [offsetFor, hend]

/-- A key of a block gets the offset of the block. -/
theorem offsetFor_of_mem (hc : c.Lawful P) (hl : Layout c P blocks none []) (stop : ℕ)
    {b : DataBlock} (hb : b ∈ blocks) {a : Bytes × Bytes} (ha : a ∈ b.entries) :
    offsetFor c.compare blocks stop a.1 = b.handle.offset := by
  have htrans := hc.trans
  obtain ⟨j, hj⟩ := List.getElem?_of_mem hb
  obtain ⟨hlt, hget⟩ := List.getElem?_eq_some_iff.mp hj
  have hfind : (blocks.findIdx fun b => !decide (c.compare b.separator a.1 = .lt)) = j := by
    refine (List.findIdx_eq hlt).mpr ⟨?_, fun i hi => ?_⟩
    · have hle := hl.le_separator b hb a ha
      rw [hget]
      simp only [Bool.not_eq_true', decide_eq_false_iff_not]
      intro hsep
      exact hle (Std.OrientedCmp.gt_iff_lt.mpr hsep)
    · have hparts := List.pairwise_iff_getElem.mp hl.parts i j (hi.trans hlt) hlt hi a (hget ▸ ha)
      rw [hparts.separator_lt hc]
      rfl
  rw [offsetFor, hfind, hj]

/-- What is asked of the offsets: they increase with the keys, they are exact for the keys of the
blocks, and none is behind the metaindex block. -/
structure Approximates (cmp : Bytes → Bytes → Ordering) (table : Table) (fileSize : ℕ)
    (blocks : List DataBlock) : Prop where
  monotone : ∀ k₁ k₂, cmp k₁ k₂ ≠ .gt → ∃ o₁ o₂, approximateOffsetOf table k₁ = some o₁ ∧
    approximateOffsetOf table k₂ = some o₂ ∧ o₁ ≤ o₂
  exact : ∀ b ∈ blocks, ∀ a ∈ b.entries, approximateOffsetOf table a.1 = some b.handle.offset
  bounded : ∀ k, ∃ o, approximateOffsetOf table k = some o ∧ o ≤ table.metaindexHandle.offset
  metaindex_lt : table.metaindexHandle.offset < fileSize

/-- The search in the index ends where it has to. -/
theorem approximateOffsetOf_eq (hc : c.Lawful P) (ht : TableFile sn K c P q f.contents blocks)
    (hcmp : table.options.comparator = c) {ib : BlockBuilder}
    (hib : ib.Holds (blocks.map DataBlock.indexEntry)) (hlen : ib.finish.1.length < 2 ^ 32)
    (hindex : table.indexBlock = .new ib.finish.1) (hsmall : f.contents.length < 2 ^ 63)
    (key : Bytes) :
    approximateOffsetOf table key
      = some (offsetFor c.compare blocks table.metaindexHandle.offset key) := by
  have htrans := hc.trans
  obtain ⟨it, hit, -, hentry⟩ := hib.seek hlen (sorted_index hc ht.layout) key
  have hget : it.entry
    = (blocks[blocks.findIdx fun b => !decide (c.compare b.separator key = .lt)]?).map
      DataBlock.indexEntry := by
    rw [hentry, List.findIdx_map, List.getElem?_map]
    rfl
  rw [approximateOffsetOf, hcmp, hindex, hit, Option.bind_eq_bind, Option.bind_some, hget,
    offsetFor]
  cases hb : blocks[blocks.findIdx fun b => !decide (c.compare b.separator key = .lt)]? with
  | none => rfl
  | some b =>
    have hset := (ht.stored b (List.mem_of_getElem? hb)).set hsmall
    simp only [Option.map_some, DataBlock.indexEntry, decodeFrom_encoding_nil hset]

open TableBuilder in
/-- **Approximate offsets.** For whatever a builder has written, with any options and calls, if its
index block can be read. -/
theorem approximateOffsetOf_build {r r' : TableBuilder} {file : WritableFile} {calls : List Call}
    (hnew : TableBuilder.new options file = some r) (hc : options.comparator.Lawful P)
    (hempty : file.contents = []) (hsound : file.Sound)
    (hoptions : OptionsFit (fun _ => True) calls)
    (happends : ∀ p, options.filterPolicy = some p → p.Appends) (hkeys : ∀ a ∈ added calls, P a.1)
    (hbuild : r.build sn calls = .ok r') (hsmall : r'.file.contents.length < 2 ^ 63)
    (hintact : IndexIntact r'.file.contents) :
    ∃ blocks, Finished sn options.comparator r'.file.contents blocks ∧
      (blocks.map DataBlock.entries).flatten = added calls ∧
      ∀ f : RandomAccessFile, f.contents = r'.file.contents → f.Readable →
        ∀ (junk : ℕ → UInt8) (options' : Options) (s : Status) (table : Table),
          options'.comparator = options.comparator →
          openTable sn junk options' f r'.fileSize = some (s, some table) →
          Approximates options.comparator.compare table r'.fileSize blocks := by
  obtain ⟨q, blocks, hsize, ht, hentries, hbehind⟩ := tableFile_of_build hnew hc hempty hsound
    hoptions happends hkeys hbuild hsmall
  refine ⟨blocks, finished_of_tableFile hc ht, hentries, ?_⟩
  intro f hf hread junk options' s table hcmp hopen
  rw [← hf] at hsmall hintact ht hbehind
  rw [hsize, ← hf] at hopen ⊢
  obtain ⟨rfl, ⟨ib, hib, hlen, hindex⟩, hlt, hstop⟩ :=
    index_of_openTable ht hbehind hread hsmall hintact hopen
  have htrans := hc.trans
  have heq := approximateOffsetOf_eq hc ht hcmp hib hlen hindex hsmall
  refine ⟨fun k₁ k₂ hle => ⟨_, _, heq k₁, heq k₂, offsetFor_mono ht.contiguous hstop hle⟩, ?_, ?_,
    hlt⟩
  · intro b hb a ha
    rw [heq, offsetFor_of_mem hc ht.layout _ hb ha]
  · intro k
    exact ⟨_, heq k, offsetFor_le hstop k⟩

instance (contents : Bytes) : Decidable (IndexIntact contents) :=
  match h : Footer.decodeFrom (contents.drop (contents.length - Footer.kEncodedLength)) with
  | some (.ok footer) => decidable_of_iff
      (footer.indexHandle.size < 2 ^ 32 ∧
        (contents.drop (footer.indexHandle.offset + footer.indexHandle.size)).head?
          = some CompressionType.kNoCompression.toByte)
      ⟨fun hp _ hf => Except.ok.inj (Option.some.inj (h.symm.trans hf)) ▸ hp, fun hi => hi footer h⟩
  | some (.error _) => .isTrue fun _ hf => nomatch h.symm.trans hf
  | none => .isTrue fun _ hf => nomatch h.symm.trans hf

/-- What has been checked of the table that was opened. -/
theorem exists_opened {result : Option (Status × Option Table)} {p : Table → Bool}
    (h : result.any (fun x => decide (x.1 = .success) && x.2.any p) = true) :
    ∃ table, result = some (.success, some table) ∧ p table = true := by
  obtain ⟨⟨status, table⟩, rfl, h⟩ := (Option.any_eq_true _ _).mp h
  obtain ⟨hstatus, hp⟩ := Bool.and_eq_true_iff.mp h
  obtain ⟨table, rfl, hp⟩ := (Option.any_eq_true _ _).mp hp
  obtain rfl : status = .success := of_decide_eq_true hstatus
  exact ⟨table, rfl, hp⟩

open TableBuilder in
/-- Two blocks, and the keys on both sides of them. -/
theorem approximateOffsetOf_build_two :
    let calls : List Call := [.add [1] [10], .flush, .add [2] [20]]
    ∃ r r' blocks, TableBuilder.new (plainOptions none) .fresh = some r ∧
      r.build .absent calls = .ok r' ∧
      (blocks.map DataBlock.entries).flatten = [([1], [10]), ([2], [20])] ∧
      ∃ table, openTable .absent (fun _ => 0) (plainOptions none) (.mmap "t" r'.file.contents)
          r'.fileSize = some (.success, some table) ∧
        Approximates Slice.compare table r'.fileSize blocks ∧
        [[], [1], [2], [4]].map (approximateOffsetOf table)
          = [some 0, some 0, some 18, some 36] := by
  intro calls
  have hrun : ∃ r', (initial (plainOptions none) .fresh none).build .absent calls = .ok r' ∧
      r'.file.contents.length < 2 ^ 63 ∧ IndexIntact r'.file.contents ∧
      ∃ table, openTable .absent (fun _ => 0) (plainOptions none) (.mmap "t" r'.file.contents)
          r'.fileSize = some (.success, some table) ∧
        [[], [1], [2], [4]].map (approximateOffsetOf table)
          = [some 0, some 0, some 18, some 36] := by
    have hcheck : ((initial (plainOptions none) .fresh none).build .absent calls).toOption.any
        (fun r' => decide (r'.file.contents.length < 2 ^ 63) &&
          decide (IndexIntact r'.file.contents) &&
            (openTable .absent (fun _ => 0) (plainOptions none) (.mmap "t" r'.file.contents)
              r'.fileSize).any fun result => decide (result.1 = .success)
                && result.2.any fun table =>
                decide ([[], [1], [2], [4]].map (approximateOffsetOf table)
                  = [some 0, some 0, some 18, some 36])) = true := by
      decide +kernel
    cases hbuild : (initial (plainOptions none) .fresh none).build .absent calls with
    | error r =>
      rw [hbuild] at hcheck
      cases hcheck
    | ok r' =>
      rw [hbuild, Except.toOption, Option.any_some] at hcheck
      have hcheck := Bool.and_eq_true_iff.mp hcheck
      obtain ⟨hsmall, hintact⟩ := Bool.and_eq_true_iff.mp hcheck.1
      obtain ⟨table, hopen, hoffsets⟩ := exists_opened hcheck.2
      exact ⟨r', rfl, of_decide_eq_true hsmall, of_decide_eq_true hintact, table, hopen,
        of_decide_eq_true hoffsets⟩
  obtain ⟨r', hbuild, hsmall, hintact, table, hopen, hoffsets⟩ := hrun
  have hnew : TableBuilder.new (plainOptions none) .fresh
      = some (initial (plainOptions none) .fresh none) := rfl
  obtain ⟨blocks, -, hentries, happrox⟩ := @approximateOffsetOf_build .absent (fun _ => True) _ _ r'
    .fresh calls hnew bytewiseComparator_lawful rfl (fun _ => rfl) (by simp [calls, OptionsFit])
    (fun p hp => by cases hp) (fun _ _ => trivial) hbuild hsmall hintact
  exact ⟨_, r', blocks, hnew, hbuild, hentries, table, hopen,
    happrox (.mmap "t" r'.file.contents) rfl
      (RandomAccessFile.readable_mmap "t" (hsmall.trans (by norm_num))) _ _ _ table rfl hopen,
    hoffsets⟩

/-! ### Index blocks that cannot be read

With one key in the table, the offset for it has to be zero. -/

theorem Finished.offset_of_single {file : Bytes} {a : Bytes × Bytes}
    (hfinished : TableBuilder.Finished sn c file blocks)
    (hentries : (blocks.map DataBlock.entries).flatten = [a]) :
    ∃ b ∈ blocks, a ∈ b.entries ∧ b.handle.offset = 0 := by
  obtain ⟨stop, hcont⟩ := hfinished.contiguous
  cases blocks with
  | nil => cases hentries
  | cons b rest =>
    refine ⟨b, List.mem_cons_self, ?_, hcont.1⟩
    obtain ⟨x, hx⟩ := List.exists_mem_of_ne_nil _ (hfinished.stored b List.mem_cons_self).1
    have hmem : x ∈ ((b :: rest).map DataBlock.entries).flatten :=
      List.mem_flatten.mpr ⟨b.entries, List.mem_cons_self, hx⟩
    rw [hentries, List.mem_singleton] at hmem
    rwa [← hmem]

/-- A table of one key, in which the key is looked for behind the end. -/
theorem not_approximates {cmp : Bytes → Bytes → Ordering} {file : Bytes} {a : Bytes × Bytes}
    {offset fileSize : ℕ} (hoffset : approximateOffsetOf table a.1 = some (offset + 1)) :
    ¬ ∃ blocks, TableBuilder.Finished sn c file blocks ∧
      (blocks.map DataBlock.entries).flatten = [a] ∧ Approximates cmp table fileSize blocks := by
  rintro ⟨blocks, hfinished, hentries, happrox⟩
  obtain ⟨b, hb, ha, hzero⟩ := Finished.offset_of_single hfinished hentries
  have hexact := happrox.exact b hb a ha
  rw [hoffset, hzero] at hexact
  cases hexact

section

open TableBuilder

/-- A key without a shorter successor. -/
def highKey : Bytes := List.replicate 11 0xff

/-- The end of a block with one restart point. -/
def oneRestart : Bytes := [0, 0, 0, 0, 1, 0, 0, 0]

/-- A snappy that knows two blocks: the one with `highKey` and an empty value, and the index block
with the handle of that. What it writes are the bytes up to the first `0xff`, a copy of 10 bytes
from one byte before, and the rest. -/
def twoBlockSnappy : Snappy where
  compress input :=
    if input = [0, 11, 0] ++ highKey ++ oneRestart then
      some ([22, 12, 0, 11, 0, 255, 25, 1, 28] ++ oneRestart)
    else if input = [0, 11, 2] ++ highKey ++ [0, 17] ++ oneRestart then
      some ([24, 12, 0, 11, 2, 255, 25, 1, 36, 0, 17] ++ oneRestart)
    else none
  getUncompressedLength input :=
    if input = [22, 12, 0, 11, 0, 255, 25, 1, 28] ++ oneRestart then some 22
    else if input = [24, 12, 0, 11, 2, 255, 25, 1, 36, 0, 17] ++ oneRestart then some 24
    else none
  uncompress inPlace input :=
    if inPlace = true then ([], false)
    else if input = [22, 12, 0, 11, 0, 255, 25, 1, 28] ++ oneRestart then
      ([0, 11, 0] ++ highKey ++ oneRestart, true)
    else if input = [24, 12, 0, 11, 2, 255, 25, 1, 36, 0, 17] ++ oneRestart then
      ([0, 11, 2] ++ highKey ++ [0, 17] ++ oneRestart, true)
    else ([], false)

/-- Options under which blocks are compressed. -/
def snappyOptions : Options := ⟨bytewiseComparator, false, 4096, 16, .kSnappyCompression, none⟩

/-- The index block is compressed. -/
theorem approximateOffsetOf_compressed :
    ∃ r r' table, TableBuilder.new snappyOptions .fresh = some r ∧
      r.build twoBlockSnappy [.add highKey []] = .ok r' ∧
      openTable twoBlockSnappy (fun _ => 0) snappyOptions (.mmap "t" r'.file.contents) r'.fileSize
        = some (.success, some table) ∧
      approximateOffsetOf table highKey = some (21 + 1) := by
  have hcheck :
    ((initial snappyOptions .fresh none).build twoBlockSnappy [.add highKey []]).toOption.any
      (fun r' => (openTable twoBlockSnappy (fun _ => 0) snappyOptions (.mmap "t" r'.file.contents)
        r'.fileSize).any fun result => decide (result.1 = .success) && result.2.any fun table =>
          decide (approximateOffsetOf table highKey = some (21 + 1))) = true := by
    decide +kernel
  cases hbuild : (initial snappyOptions .fresh none).build twoBlockSnappy [.add highKey []] with
  | error r =>
    rw [hbuild] at hcheck
    cases hcheck
  | ok r' =>
    rw [hbuild, Except.toOption, Option.any_some] at hcheck
    obtain ⟨table, hopen, hoffset⟩ := exists_opened hcheck
    exact ⟨_, r', table, rfl, hbuild, hopen, of_decide_eq_true hoffset⟩

/-- Options under which each entry is a block. -/
def longOptions : Options := ⟨bytewiseComparator, false, 0, 16, .kNoCompression, none⟩

/-- Ten bytes of `0xff`, and what comes behind them. -/
def longKey (w : Bytes) : Bytes := List.replicate 10 0xff ++ w

/-- The block before it is finished: the length `2 ^ 32` of the key has become a zero. -/
def longBuilder (w : Bytes) : BlockBuilder := ⟨[0, 0, 0] ++ longKey w, [0], 1, false, longKey w⟩

/-- The index block before it is finished. -/
def longIndexBuilder (w : Bytes) : BlockBuilder :=
  ⟨[0, 0, 6] ++ longKey w ++ [0, 139, 128, 128, 128, 16], [0], 1, false, longKey w⟩

variable {w : Bytes}

theorem addWith_long {interval : ℕ} (hpos : 0 < interval) (hw : (longKey w).length = 2 ^ 32)
    (value : Bytes) :
    BlockBuilder.reset.add Slice.compare interval (longKey w) value
      = some ⟨putVarint32 [0, 0] value.length ++ longKey w ++ value, [0], 1, false, longKey w⟩ := by
  have hshared : BlockBuilder.sharedPrefix [] (longKey w) = 0 := rfl
  have hassert : BlockBuilder.reset.finished = false ∧ BlockBuilder.reset.counter ≤ interval ∧
      (BlockBuilder.reset.empty = true ∨
        Slice.compare (longKey w) BlockBuilder.reset.lastKey = .gt) :=
    ⟨rfl, Nat.zero_le _, Or.inl rfl⟩
  have hnone : putVarint32 (putVarint32 [] 0) (2 ^ 32) = [0, 0] := by decide
  rw [BlockBuilder.add, if_pos hassert]
  simp only [BlockBuilder.reset, hpos, if_true, hshared, Nat.sub_zero, List.drop_zero,
    List.take_nil, List.nil_append, hw, hnone, Nat.zero_add]

theorem finish_longBuilder : (longBuilder w).finish.1 = [0, 0, 0] ++ longKey w ++ oneRestart := by
  have htrailer : BlockBuilder.trailer [0] = oneRestart := by decide
  rw [BlockBuilder.finish, longBuilder, htrailer]

theorem finish_longIndexBuilder : (longIndexBuilder w).finish.1
    = [0, 0, 6] ++ longKey w ++ [0, 139, 128, 128, 128, 16] ++ oneRestart := by
  have htrailer : BlockBuilder.trailer [0] = oneRestart := by decide
  rw [BlockBuilder.finish, longIndexBuilder, htrailer]

theorem length_longBlocks (hw : (longKey w).length = 2 ^ 32) :
    (longBuilder w).finish.1.length = 4294967307 ∧
      (longIndexBuilder w).finish.1.length = 4294967313 := by
  rw [finish_longBuilder, finish_longIndexBuilder]
  simp only [List.length_append, hw, oneRestart, List.length_cons, List.length_nil]
  decide

theorem findShortSuccessor_replicate (n : ℕ) :
    BytewiseComparator.findShortSuccessor (List.replicate n 0xff) = List.replicate n 0xff := by
  induction n with
  | zero => rfl
  | succ n ih =>
    rw [List.replicate_succ, BytewiseComparator.findShortSuccessor, if_neg (by decide), ih]

/-- A search in the index block ends at once: where the restart point should be, there are bytes of
the key. -/
theorem seek_long (hw : (longKey w).length = 2 ^ 32) (cmp : Bytes → Bytes → Ordering)
    (target : Bytes) :
    ∃ it, (Block.new (longIndexBuilder w).finish.1).newIterator.step cmp decodeEntry (.seek target)
      = some it ∧ it.entry = none := by
  have hlen := (length_longBlocks hw).2
  obtain ⟨data, hdata⟩ : ∃ data, data = (longIndexBuilder w).finish.1 := ⟨_, rfl⟩
  rw [← hdata] at hlen ⊢
  have hnum : numRestarts data = 1 := by
    have hsplit : data = ([0, 0, 6] ++ longKey w ++ [0, 139, 128, 128, 128, 16] ++ [0, 0, 0, 0])
        ++ [1, 0, 0, 0] := by
      rw [hdata, finish_longIndexBuilder, oneRestart, List.append_assoc _ [0, 0, 0, 0]]
      rfl
    have hdrop : data.drop (data.length - 4) = [1, 0, 0, 0] := by
      rw [hlen, hsplit, List.drop_left']
      simp [hw]
    rw [numRestarts, hdrop]
    rfl
  have hblock : Block.new data = ⟨data, 4294967313, 9⟩ := by
    rw [Block.new, hnum, hlen]
    norm_num
  have hpoint : Region.getRestartPoint ⟨data, 9, 1⟩ 0 = some 4294967295 := by
    have hread : Region.read ⟨data, 9, 1⟩ 9 4 = some [0xff, 0xff, 0xff, 0xff] := by
      rw [Region.read, if_pos (by rw [hlen]; norm_num), hdata, finish_longIndexBuilder]
      rfl
    rw [Region.getRestartPoint, if_pos Nat.one_pos, Nat.zero_mul, hread]
    decide
  have hnew : Block.newIterator ⟨data, 4294967313, 9⟩
      = .entries ⟨data, 9, 1⟩ (.new ⟨data, 9, 1⟩) := by
    simp [Block.newIterator, hnum]
  refine ⟨.entries ⟨data, 9, 1⟩ ⟨9, 1, [], some ⟨4294967295, 0⟩, .success⟩, ?_, ?_⟩
  · rw [hblock, hnew]
    simp [AnyIter.step, Block.Iter.step, Iter.seek, Iter.bisect, Iter.seekToRestartPoint, Iter.new,
      hpoint, Iter.parseUpTo, Iter.parseNextKey, Iter.nextEntryOffset, Iter.invalidate]
  · simp [AnyIter.entry, Iter.Valid]

/-- The index block is too large. -/
theorem approximateOffsetOf_long (sn : Snappy) (junk : ℕ → UInt8) (hw : (longKey w).length = 2 ^ 32)
    (hsuccessor : BytewiseComparator.findShortSuccessor (longKey w) = longKey w) :
    ∃ r r' table, TableBuilder.new longOptions .fresh = some r ∧
      r.build sn [.add (longKey w) []] = .ok r' ∧
      openTable sn junk longOptions (.mmap "t" r'.file.contents) r'.fileSize
        = some (.success, some table) ∧
      approximateOffsetOf table (longKey w) = some (4294967311 + 1) := by
  have hp : Plain longOptions := ⟨rfl, rfl, by decide⟩
  obtain ⟨hdata, hindex⟩ := length_longBlocks hw
  have hsmall : (singleFile (longBuilder w).finish.1 (longIndexBuilder w).finish.1).length
      < 2 ^ 63 :=
    length_singleFile_lt (by rw [hdata, hindex]; norm_num)
  have hadd : BlockBuilder.reset.addWith longOptions (longKey w) [] = some (longBuilder w) := by
    rw [BlockBuilder.addWith]
    refine (addWith_long (by decide) hw []).trans ?_
    rw [List.append_nil]
    rfl
  have haddIndex : BlockBuilder.reset.addWith { longOptions with blockRestartInterval := 1 }
      (longKey w) (BlockHandle.encoding ⟨0, (longBuilder w).finish.1.length⟩)
      = some (longIndexBuilder w) := by
    have hhandle : BlockHandle.encoding ⟨0, 4294967307⟩ = [0, 139, 128, 128, 128, 16] := by
      decide +kernel
    rw [hdata, hhandle, BlockBuilder.addWith]
    exact addWith_long (by decide) hw _
  obtain ⟨r', hbuild, hfile, hsize⟩ := build_single sn hp hadd rfl
    (congrArg some hsuccessor) haddIndex hsmall
  refine ⟨_, r', single longOptions (longBuilder w).finish.1 (longIndexBuilder w).finish.1, rfl,
    hbuild, ?_, ?_⟩
  · rw [hfile, hsize]
    exact openTable_single sn junk rfl hsmall
  · obtain ⟨it, hit, hentry⟩ := seek_long hw Slice.compare (longKey w)
    rw [approximateOffsetOf]
    show ((Block.new (longIndexBuilder w).finish.1).newIterator.step Slice.compare decodeEntry
      (.seek (longKey w)) >>= _) = _
    rw [hit]
    simp only [Option.bind_eq_bind, Option.bind_some, hentry, single, hdata]

theorem longKey_replicate (n : ℕ) :
    longKey (List.replicate n 0xff) = List.replicate (n + 10) 0xff := by
  rw [longKey, List.replicate_append_replicate, Nat.add_comm]

/-- **Index blocks that cannot be read.** If the index block is compressed, or if it has a key of
four gigabytes, the offset for the only key of the table is that of the metaindex block. -/
theorem not_approximateOffsetOf_build :
    (∃ r r' table, TableBuilder.new snappyOptions .fresh = some r ∧
      r.build twoBlockSnappy [.add highKey []] = .ok r' ∧
      openTable twoBlockSnappy (fun _ => 0) snappyOptions (.mmap "t" r'.file.contents) r'.fileSize
        = some (.success, some table) ∧
      ¬ ∃ blocks, Finished twoBlockSnappy bytewiseComparator r'.file.contents blocks ∧
        (blocks.map DataBlock.entries).flatten = [(highKey, [])] ∧
        Approximates Slice.compare table r'.fileSize blocks) ∧
    ∃ r r' table, TableBuilder.new longOptions .fresh = some r ∧
      r.build .absent [.add (List.replicate (2 ^ 32) 0xff) []] = .ok r' ∧
      openTable .absent (fun _ => 0) longOptions (.mmap "t" r'.file.contents) r'.fileSize
        = some (.success, some table) ∧
      ¬ ∃ blocks, Finished .absent bytewiseComparator r'.file.contents blocks ∧
        (blocks.map DataBlock.entries).flatten = [(List.replicate (2 ^ 32) 0xff, [])] ∧
        Approximates Slice.compare table r'.fileSize blocks := by
  constructor
  · obtain ⟨r, r', table, hnew, hbuild, hopen, hoffset⟩ := approximateOffsetOf_compressed
    exact ⟨r, r', table, hnew, hbuild, hopen, not_approximates hoffset⟩
  · have hkey := longKey_replicate (2 ^ 32 - 10)
    rw [Nat.sub_add_cancel (by norm_num)] at hkey
    have hlen : (longKey (List.replicate (2 ^ 32 - 10) 0xff)).length = 2 ^ 32 := by
      rw [hkey, List.length_replicate]
    have hsuccessor := findShortSuccessor_replicate (2 ^ 32)
    rw [← hkey] at hsuccessor ⊢
    obtain ⟨r, r', table, hnew, hbuild, hopen, hoffset⟩ :=
      approximateOffsetOf_long .absent (fun _ => 0) hlen hsuccessor
    exact ⟨r, r', table, hnew, hbuild, hopen, not_approximates hoffset⟩

end

end Table

end Squirrel
