import Squirrel.Table.TableFile
import Squirrel.Table.TwoLevelIterator

/-!
# Tables

`Table::Open` reads the footer and the index block of a file, and the filter block if the options
have a filter policy. Iterators over the table are two-level iterators over the index and the data
blocks; `InternalGet` looks into the one data block that the index leads to, unless the filter
excludes it.

Tables here are opened with no block cache (`Options::block_cache` is `NULL`), so that `BlockReader`
always reads the file. The whole of it is `CachedTable.blockReader`, which does the same where there
is no cache (`BlockCache.outputs_uncached`). A result that is not there stands for an access outside
of memory that belongs to the program.

What can be read from a file is said of finished tables (`TableFile`), for a file whose reads
succeed (`Readable`) and with blocks that are not compressed.

## Main results

* `Table.openTable_of_tableFile` — a finished table can be opened
* `Table.behaves_of_tableFile` — its iterators are cursors on all entries
* `Table.internalGet_cases`, `Table.internalGet_of_first` — what `InternalGet` finds
* `Table.internalGet_of_mem` — which is the entry, for a key that is there
-/

namespace Squirrel

open Coding Block

/-- The state of a `Table`. -/
structure Table where
  options : Options
  file : RandomAccessFile
  filter : Option FilterBlockReader
  metaindexHandle : BlockHandle
  indexBlock : Block

namespace Table

variable (sn : Snappy) (junk : ℕ → UInt8)

/-- `ReadFilter`: the filter, if it can be read. -/
def readFilter (policy : FilterPolicy) (file : RandomAccessFile) (paranoidChecks : Bool)
    (filterHandleValue : Bytes) : Option (Option FilterBlockReader) :=
  match BlockHandle.decodeFrom filterHandleValue with
  | .error _ => some none
  | .ok (filterHandle, _) => do
    let (s, block) ← readBlock sn junk file paranoidChecks filterHandle
    if s.ok then some (some (.new policy block.data)) else some none

/-- `ReadMeta`. Errors are not propagated, since the filter is not needed for operation. -/
def readMeta (options : Options) (file : RandomAccessFile) (footer : Footer) :
    Option (Option FilterBlockReader) :=
  match options.filterPolicy with
  | none => some none
  | some policy => do
    let (s, contents) ← readBlock sn junk file options.paranoidChecks footer.metaindexHandle
    if s.ok then do
      let key := TableBuilder.filterPrefix ++ policy.name
      let iter ← (Block.newIterator (.new contents.data)).step bytewiseComparator.compare
        decodeEntry (.seek key)
      match iter.entry with
      | none => some none
      | some (k, value) =>
        if k = key then readFilter sn junk policy file options.paranoidChecks value else some none
    else some none

/-- `Open`, for a file of which it is told the size. -/
def openTable (options : Options) (file : RandomAccessFile) (size : ℕ) :
    Option (Status × Option Table) :=
  if size < Footer.kEncodedLength then
    some (.corruption "file is too short to be an sstable", none)
  else
    match file.read (size - Footer.kEncodedLength) Footer.kEncodedLength with
    | (s, none) => some (s, none)
    | (_, some d) => do
      let footerInput ← d.bytesAt 0 d.size
      match ← Footer.decodeFrom footerInput with
      | .error s => some (s, none)
      | .ok footer => do
        let (s, contents) ← readBlock sn junk file options.paranoidChecks footer.indexHandle
        if s.ok then do
          let filter ← readMeta sn junk options file footer
          some (s, some ⟨options, file, filter, footer.metaindexHandle, .new contents.data⟩)
        else some (s, none)

/-- `BlockReader` without a block cache: an iterator over the block that a value of the index stands
for. -/
def blockReader (verifyChecksums : Bool) (table : Table) (indexValue : Bytes) : Option AnyIter :=
  match BlockHandle.decodeFrom indexValue with
  | .error s => some (.empty s)
  | .ok (handle, _) => do
    let (s, contents) ← readBlock sn junk table.file verifyChecksums handle
    if s.ok then some (Block.newIterator (.new contents.data)) else some (.empty s)

/-- The two levels of an iterator over the table. -/
def levels (verifyChecksums : Bool) (table : Table) : Levels AnyIter AnyIter Bytes Bytes where
  index := AnyIter.iterator table.options.comparator.compare
  indexStatus := AnyIter.status
  data := AnyIter.iterator table.options.comparator.compare
  dataStatus := AnyIter.status
  blockFunction := blockReader sn junk verifyChecksums table

/-- `NewIterator`. -/
def newIterator (verifyChecksums : Bool) (table : Table) :
    TwoLevelIterator AnyIter AnyIter Bytes :=
  .new (levels sn junk verifyChecksums table) table.indexBlock.newIterator

/-- Its operations. No block has more entries than bytes, so there are enough rounds for the
loops. -/
def iterator (verifyChecksums : Bool) (table : Table) :
    Iterator (TwoLevelIterator AnyIter AnyIter Bytes) Bytes Bytes :=
  TwoLevelIterator.iterator (levels sn junk verifyChecksums table)
    (table.indexBlock.data.length + 2)

/-- The filter excludes the key from the block that a value of the index stands for. -/
def filterExcludes (table : Table) (handleValue k : Bytes) : Bool :=
  match table.filter, BlockHandle.decodeFrom handleValue with
  | some filter, .ok (handle, _) => !filter.keyMayMatch handle.offset k
  | _, _ => false

/-- `InternalGet`: its result, and the calls that it makes of `saver`. -/
def internalGet (verifyChecksums : Bool) (table : Table) (k : Bytes) :
    Option (Status × List (Bytes × Bytes)) := do
  let cmp := table.options.comparator.compare
  let iiter ← table.indexBlock.newIterator.step cmp decodeEntry (.seek k)
  match iiter.entry with
  | none => some (iiter.status, [])
  | some (_, handleValue) =>
    if table.filterExcludes handleValue k then some (iiter.status, [])
    else do
      let blockIter ← blockReader sn junk verifyChecksums table handleValue
      let blockIter ← blockIter.step cmp decodeEntry (.seek k)
      let s := blockIter.status
      some (if s.ok then iiter.status else s, blockIter.entry.toList)

end Table

/-! ### Reading finished tables -/

/-- All that is in the file can be read. -/
def RandomAccessFile.Readable (f : RandomAccessFile) : Prop :=
  ∀ offset n, offset + n ≤ f.contents.length → f.Delivers offset n

theorem RandomAccessFile.readable_mmap (filename : String) {contents : Bytes}
    (hlen : contents.length < 2 ^ 64) : (RandomAccessFile.mmap filename contents).Readable := by
  intro offset n hle
  have hle' : offset + n ≤ contents.length := hle
  refine ⟨_, _, if_neg ?_, rfl⟩
  rw [Nat.mod_eq_of_lt (Nat.lt_of_le_of_lt hle' hlen)]
  exact Nat.not_lt.mpr hle'

/-- No block is stored compressed under a setting that `K` allows. -/
def Uncompressed (sn : Snappy) (K : CompressionType → Prop) : Prop :=
  ∀ compression, K compression → ∀ raw, ¬ TableBuilder.StoresCompressed sn compression raw

section

variable {sn : Snappy} {K : CompressionType → Prop} {f : RandomAccessFile} {h : BlockHandle}
  {entries : List (Bytes × Bytes)}

theorem Stored.readBlock {contents : Bytes} (hs : Stored f.contents h contents .kNoCompression)
    (sn : Snappy) (hread : f.Readable) (hsmall : f.contents.length < 2 ^ 63) (junk : ℕ → UInt8)
    (verify : Bool) :
    ∃ block, readBlock sn junk f verify h = some (.success, block) ∧ block.data = contents := by
  have hle := hs.lt.1
  obtain ⟨front, back, hfile, rfl⟩ := hs
  exact TableBuilder.readBlock_of_stored junk verify hfile hsmall (hread _ _ hle)

/-- A block that has been stored can be read, with the checksum or without. -/
theorem BlockStored.readBlock_size (hs : BlockStored sn K f.contents h entries)
    (hK : Uncompressed sn K) (hread : f.Readable) (hsmall : f.contents.length < 2 ^ 63)
    (junk : ℕ → UInt8) :
    ∃ b : BlockBuilder, b.Holds entries ∧ b.finish.1.length = h.size ∧
      h.offset + h.size ≤ f.contents.length ∧ ∀ verify, ∃ block,
        readBlock sn junk f verify h = some (.success, block) ∧ block.data = b.finish.1 := by
  obtain ⟨b, compression, hb, hcomp, hstored⟩ := hs
  rw [TableBuilder.compressBlock_of_not (hK compression hcomp _)] at hstored
  obtain ⟨hle, hsize⟩ := hstored.lt
  exact ⟨b, hb, hsize.symm, by omega, fun verify => hstored.readBlock sn hread hsmall junk verify⟩

/-- A block that has been stored can be read. -/
theorem BlockStored.readBlock (hs : BlockStored sn K f.contents h entries)
    (hK : Uncompressed sn K) (hread : f.Readable) (hsmall : f.contents.length < 2 ^ 63)
    (hlt : h.size < 2 ^ 32) (junk : ℕ → UInt8) (verify : Bool) :
    ∃ b : BlockBuilder, b.Holds entries ∧ b.finish.1.length < 2 ^ 32 ∧
      ∃ block, readBlock sn junk f verify h = some (.success, block) ∧ block.data = b.finish.1 := by
  obtain ⟨b, hb, hsize, hle, hblock⟩ := hs.readBlock_size hK hread hsmall junk
  exact ⟨b, hb, by omega, hblock verify⟩

/-- An entry takes three bytes or more of its block. -/
theorem BlockStored.length_entries {file : Bytes} (hs : BlockStored sn K file h entries)
    (hK : Uncompressed sn K) : 3 * entries.length ≤ h.size := by
  obtain ⟨b, compression, hb, hcomp, hstored⟩ := hs
  rw [TableBuilder.compressBlock_of_not (hK compression hcomp _)] at hstored
  rw [hstored.lt.2]
  exact hb.length_le

/-- The keys of each filter can be counted in an `int`. -/
theorem TableFile.few {c : Comparator} {P : Bytes → Prop} {q : FilterPolicy} {file : Bytes}
    {blocks : List DataBlock} (ht : TableFile sn K c P q file blocks) (hK : Uncompressed sn K)
    (hdata : ∀ b ∈ blocks, b.handle.size < 2 ^ 32) {fb : FilterBlockBuilder}
    {filters : List (List Bytes × Bytes)}
    (hcount : ∀ i, (fb.keysOf filters i).length ≤ entriesIn (blocks.map DataBlock.placed) i) :
    fb.Few filters := by
  obtain ⟨stop, hcont⟩ := ht.contiguous
  have hplaced : (blocks.map DataBlock.placed).map Prod.fst = blocks.map DataBlock.handle :=
    List.map_map
  rw [← hplaced] at hcont
  have hsize : ∀ w ∈ blocks.map DataBlock.placed, 3 * w.2.length ≤ w.1.size ∧
      w.1.size < 2 ^ 32 := by
    intro w hw
    obtain ⟨b, hb, rfl⟩ := List.mem_map.mp hw
    exact ⟨(ht.stored b hb).length_entries hK, hdata b hb⟩
  intro i
  have hi := hcount i
  have hle := (entriesIn_le hcont hsize i).1
  have hbase : kFilterBase = 2048 := rfl
  omega

/-- What seeking in a block shows. -/
theorem BlockBuilder.Holds.seek {b : BlockBuilder} (hb : b.Holds entries)
    (hlen : b.finish.1.length < 2 ^ 32) {cmp : Bytes → Bytes → Ordering} [Std.TransCmp cmp]
    (hsorted : entries.Pairwise fun x y => cmp x.1 y.1 = .lt) (target : Bytes) :
    ∃ it, (Block.newIterator (.new b.finish.1)).step cmp decodeEntry (.seek target) = some it ∧
      it.status = .success ∧
      it.entry = entries[entries.findIdx fun a => !decide (cmp a.1 target = .lt)]? := by
  obtain ⟨it, hit, hbehaves⟩ := (hb.behaves hlen hsorted).step
    (show Cursor.step (fun a k => cmp a.1 k = .lt) entries none (.seek target) = _ from rfl)
  refine ⟨it, hit, hbehaves.good_self, ?_⟩
  have hentry : it.entry = _ := hbehaves.entry_eq
  rw [hentry, Cursor.place]
  split
  · rfl
  · next hge => rw [List.getElem?_eq_none (Nat.le_of_not_lt hge)]; rfl

end

namespace Table

variable {sn : Snappy} {junk : ℕ → UInt8} {K : CompressionType → Prop} {c : Comparator}
  {P : Bytes → Prop} {q : FilterPolicy} {f : RandomAccessFile} {blocks : List DataBlock}
  {options : Options} {table : Table}

/-- A filter that may be used for lookups in these blocks. -/
def FilterFits (q : FilterPolicy) (options : Options) (blocks : List DataBlock)
    (filter : Option FilterBlockReader) : Prop :=
  ∀ reader, filter = some reader → options.filterPolicy = some reader.policy ∧
    (reader.policy = q → ∀ b ∈ blocks, ∀ a ∈ b.entries,
      reader.keyMayMatch b.handle.offset a.1 = true)

theorem filterFits_none (q : FilterPolicy) (options : Options) (blocks : List DataBlock) :
    FilterFits q options blocks none := fun _ h => by cases h

theorem policy_new (policy : FilterPolicy) (contents : Bytes) :
    (FilterBlockReader.new policy contents).policy = policy := by
  rw [FilterBlockReader.new]
  dsimp only
  split
  · rfl
  · split <;> rfl

theorem decodeFrom_encoding_nil {h : BlockHandle} (hset : h.Set) :
    BlockHandle.decodeFrom h.encoding = .ok (h, []) := by
  have hdecode := BlockHandle.decodeFrom_encoding hset []
  rwa [List.append_nil] at hdecode

/-- The filter block of a finished table can be used, if it can be read. -/
theorem readFilter_of_stored (ht : TableFile sn K c P q f.contents blocks) (hK : Uncompressed sn K)
    (hread : f.Readable) (hsmall : f.contents.length < 2 ^ 63)
    (hdata : ∀ b ∈ blocks, b.handle.size < 2 ^ 32) {h : BlockHandle}
    (hstored : FilterStored q f.contents blocks h) (hlt : h.size < 2 ^ 32) (junk : ℕ → UInt8)
    {policy : FilterPolicy} (hpolicy : options.filterPolicy = some policy) (verify : Bool) :
    ∃ filter, readFilter sn junk policy f verify h.encoding = some filter ∧
      FilterFits q options blocks filter := by
  obtain ⟨fb, filters, hstored, hpread, hbuilt, hin, hcount⟩ := hstored
  obtain ⟨block, hblock, hbytes⟩ := hstored.readBlock sn hread hsmall junk verify
  refine ⟨some (.new policy fb.finish), ?_, ?_⟩
  · rw [readFilter, decodeFrom_encoding_nil (hstored.set hsmall)]
    simp only [hblock, hbytes, Option.bind_eq_bind, Option.bind_some, Status.ok_success, if_true]
  · rintro _ ⟨⟩
    rw [policy_new]
    refine ⟨hpolicy, ?_⟩
    rintro rfl b hb a ha
    rw [hstored.lt.2] at hlt
    exact hbuilt.keyMayMatch hpread (ht.few hK hdata hcount) hlt (hin b hb a ha)

/-- The filter section of a finished table can be read, or there is none. -/
theorem readMeta_of_sections (ht : TableFile sn K c P q f.contents blocks) (hK : Uncompressed sn K)
    (hread : f.Readable) (hsmall : f.contents.length < 2 ^ 63)
    (hdata : ∀ b ∈ blocks, b.handle.size < 2 ^ 32) {footer : Footer}
    {filterHandle : Option BlockHandle}
    (hsections : Sections sn K q f.contents blocks footer filterHandle)
    (hmetaLt : footer.metaindexHandle.size < 2 ^ 32)
    (hlt : ∀ h, filterHandle = some h → h.size < 2 ^ 32) (junk : ℕ → UInt8) (options : Options) :
    ∃ filter, readMeta sn junk options f footer = some filter ∧
      FilterFits q options blocks filter := by
  rw [readMeta]
  cases hpolicy : options.filterPolicy with
  | none => exact ⟨none, rfl, filterFits_none _ _ _⟩
  | some policy =>
    obtain ⟨b, hb, hlen, block, hblock, hbytes⟩ :=
      hsections.metaindex.readBlock hK hread hsmall hmetaLt junk options.paranoidChecks
    have htrans := bytewiseComparator_lawful.trans
    have hsorted : (TableBuilder.metaEntries q filterHandle).Pairwise
        fun x y => bytewiseComparator.compare x.1 y.1 = .lt := by
      cases filterHandle with
      | none => exact List.Pairwise.nil
      | some h => exact List.pairwise_singleton _ _
    obtain ⟨it, hit, -, hentry⟩ := hb.seek hlen hsorted (TableBuilder.filterPrefix ++ policy.name)
    simp only [hblock, hbytes, Option.bind_eq_bind, Option.bind_some, Status.ok_success, if_true,
      hit, hentry]
    cases filterHandle with
    | none => exact ⟨none, rfl, filterFits_none _ _ _⟩
    | some h =>
      generalize hget : (TableBuilder.metaEntries q (some h))[(_ : ℕ)]? = entry
      cases entry with
      | none => exact ⟨none, rfl, filterFits_none _ _ _⟩
      | some a =>
        obtain rfl := List.mem_singleton.mp (List.mem_of_getElem? hget)
        dsimp only
        split
        · exact readFilter_of_stored ht hK hread hsmall hdata (hsections.filter_stored h rfl)
            (hlt h rfl) junk hpolicy options.paranoidChecks
        · exact ⟨none, rfl, filterFits_none _ _ _⟩

/-- A table that has been opened from a finished file with these blocks. -/
structure Opened (q : FilterPolicy) (options : Options) (f : RandomAccessFile)
    (blocks : List DataBlock) (table : Table) : Prop where
  options_eq : table.options = options
  file_eq : table.file = f
  index : ∃ b : BlockBuilder, b.Holds (blocks.map DataBlock.indexEntry) ∧
    b.finish.1.length < 2 ^ 32 ∧ table.indexBlock = .new b.finish.1
  filter : FilterFits q options blocks table.filter

/-- The last bytes of the file are read as they are. -/
theorem read_footer {front footer : Bytes} (hfile : f.contents = front ++ footer)
    (hread : f.Readable) (hsmall : f.contents.length < 2 ^ 63) (hpos : 0 < footer.length) :
    ∃ s d, f.read (f.contents.length - footer.length) footer.length = (s, some d) ∧
      d.bytesAt 0 d.size = some footer := by
  have hlen : f.contents.length - footer.length = front.length := by
    rw [hfile, List.length_append, Nat.add_sub_cancel]
  have hle : front.length + footer.length ≤ f.contents.length := by
    rw [hfile, List.length_append]
  obtain ⟨s, d, hd, hsize⟩ := hread _ _ hle
  have hcov := RandomAccessFile.covers_of_read hd hsize hpos fun _ => by omega
  refine ⟨s, d, by rw [hlen]; exact hd, ?_⟩
  rw [hsize, hcov.2 0 footer.length (by omega), Nat.add_zero, hfile, List.drop_left,
    List.take_length]

/-- **A finished table can be opened**, with any options. -/
theorem openTable_of_tableFile (ht : TableFile sn K c P q f.contents blocks)
    (hK : Uncompressed sn K) (hread : f.Readable) (hsmall : SmallTable sn K q f.contents blocks)
    (junk : ℕ → UInt8) (options : Options) :
    ∃ table, openTable sn junk options f f.contents.length = some (.success, some table) ∧
      Opened q options f blocks table := by
  have hsmall' := hsmall.file_lt
  obtain ⟨footer, filterHandle, hsections, hindexLt, hmetaLt, hfilterLt⟩ := hsmall.sections
  have hindex := hsections.index
  have hmeta := hsections.metaindex
  obtain ⟨front, hfile⟩ := hsections.ends
  have hlen : footer.encoding.length = Footer.kEncodedLength :=
    Footer.length_encoding (hmeta.set hsmall') (hindex.set hsmall')
  obtain ⟨s, d, hd, hbytes⟩ := read_footer hfile hread hsmall' (by rw [hlen]; decide)
  rw [hlen] at hd
  have hdecode : Footer.decodeFrom footer.encoding = some (.ok footer) :=
    Footer.decodeFrom_encodeTo (hmeta.set hsmall') (hindex.set hsmall')
  obtain ⟨b, hb, hblen, block, hblock, hdata⟩ :=
    hindex.readBlock hK hread hsmall' hindexLt junk options.paranoidChecks
  obtain ⟨filter, hfilter, hfits⟩ :=
    readMeta_of_sections ht hK hread hsmall' hsmall.data_lt hsections
    hmetaLt hfilterLt junk options
  refine ⟨⟨options, f, filter, footer.metaindexHandle, .new b.finish.1⟩, ?_, rfl, rfl,
    ⟨b, hb, hblen, rfl⟩, hfits⟩
  have hlong : ¬ f.contents.length < Footer.kEncodedLength := by
    rw [hfile, List.length_append, hlen]
    omega
  rw [openTable, if_neg hlong, hd]
  simp only [hbytes, hdecode, hblock, hfilter, hdata, Option.bind_eq_bind, Option.bind_some,
    Status.ok_success, if_true]

/-! ### Iterators -/

/-- A data block, as the two-level iterator sees it. -/
def indexed (b : DataBlock) : IndexedBlock Bytes Bytes :=
  ⟨b.separator, b.handle.encoding, b.entries⟩

theorem map_indexEntry (blocks : List DataBlock) :
    (blocks.map indexed).map IndexedBlock.indexEntry = blocks.map DataBlock.indexEntry := by
  rw [List.map_map]
  rfl

theorem concat_indexed (blocks : List DataBlock) :
    IndexedBlock.concat (blocks.map indexed) = (blocks.map DataBlock.entries).flatten := by
  rw [IndexedBlock.concat, List.map_map]
  rfl

/-- Index keys of a finished table lie where the two-level iterator needs them. -/
theorem separated_indexed (hc : c.Lawful P) (hl : Layout c P blocks none []) :
    IndexedBlock.Separated c.compare (blocks.map indexed) where
  le_separator := by
    intro e he
    obtain ⟨b, hb, rfl⟩ := List.mem_map.mp he
    exact hl.le_separator b hb
  separator_lt := by
    rw [List.pairwise_map]
    exact hl.parts.imp fun hparts a ha => (hparts a ha).separator_lt hc

/-- The index entries are sorted: between two of them there is a key of the second block. -/
theorem sorted_index {pending : Option (BlockHandle × List (Bytes × Bytes))}
    {current : List (Bytes × Bytes)} (hc : c.Lawful P) (hl : Layout c P blocks pending current) :
    (blocks.map DataBlock.indexEntry).Pairwise fun x y => c.compare x.1 y.1 = .lt := by
  have htrans := hc.trans
  rw [List.pairwise_map]
  refine hl.parts.imp_of_mem fun {b b'} _ hb' hparts => ?_
  have hne : b'.entries ≠ [] :=
    hl.nonempty b'.placed (List.mem_append_left _ (List.mem_map_of_mem hb'))
  obtain ⟨a, ha⟩ := List.exists_mem_of_ne_nil _ hne
  exact Std.TransCmp.lt_of_lt_of_isLE ((hparts a ha).separator_lt hc)
    (Ordering.isLE_iff_ne_gt.mpr (hl.le_separator b' hb' a ha))

/-- The entries of one block are sorted. -/
theorem sorted_block (hl : Layout c P blocks none []) {b : DataBlock} (hb : b ∈ blocks) :
    b.entries.Pairwise fun x y => c.compare x.1 y.1 = .lt := by
  have hsorted := hl.sorted
  rw [allEntries, restEntries, Option.map_none, Option.getD_none, List.append_nil, List.append_nil]
    at hsorted
  exact (List.pairwise_flatten.mp hsorted).1 b.entries (List.mem_map_of_mem hb)

/-- `BlockReader` opens the blocks of a finished table. -/
theorem blockReader_of_tableFile (ht : TableFile sn K c P q f.contents blocks)
    (hK : Uncompressed sn K) (hread : f.Readable) (hsmall : SmallTable sn K q f.contents blocks)
    (hopened : Opened q options f blocks table) (junk : ℕ → UInt8) (verify : Bool) {b : DataBlock}
    (hb : b ∈ blocks) :
    ∃ block : BlockBuilder, block.Holds b.entries ∧ block.finish.1.length < 2 ^ 32 ∧
      blockReader sn junk verify table b.handle.encoding
        = some (Block.newIterator (.new block.finish.1)) := by
  obtain ⟨block, hholds, hlen, contents, hcontents, hdata⟩ :=
    (ht.stored b hb).readBlock hK hread hsmall.file_lt (hsmall.data_lt b hb) junk verify
  refine ⟨block, hholds, hlen, ?_⟩
  rw [blockReader, decodeFrom_encoding_nil ((ht.stored b hb).set hsmall.file_lt)]
  simp only [hopened.file_eq, hcontents, hdata, Option.bind_eq_bind, Option.bind_some,
    Status.ok_success, if_true]

/-- Different blocks have different handles. -/
theorem handle_inj (hcont : ∃ stop, Contiguous 0 (blocks.map DataBlock.handle) stop) :
    ∀ b ∈ blocks, ∀ b' ∈ blocks, b.handle.offset = b'.handle.offset → b = b' := by
  obtain ⟨stop, hcont⟩ := hcont
  have hpair := List.pairwise_map.mp hcont.pairwise.2.2
  intro b hb b' hb'
  refine List.Pairwise.forall_of_forall_of_flip
    (R := fun x y : DataBlock => x.handle.offset = y.handle.offset → x = y) (fun _ _ _ => rfl)
    (hpair.imp ?_) (hpair.imp ?_) hb hb'
  · intro x y hle heq
    omega
  · intro x y hle heq
    omega

theorem serves_of_tableFile (hc : c.Lawful P) (ht : TableFile sn K c P q f.contents blocks)
    (hK : Uncompressed sn K) (hread : f.Readable) (hsmall : SmallTable sn K q f.contents blocks)
    (hopened : Opened q options f blocks table) (hcmp : options.comparator = c) (junk : ℕ → UInt8)
    (verify : Bool) :
    TwoLevelIterator.Serves (levels sn junk verify table) c.compare (blocks.map indexed)
      (fun it => it.status = .success) (· = .success) where
  opens := by
    have htrans := hc.trans
    intro e he
    obtain ⟨b, hb, rfl⟩ := List.mem_map.mp he
    obtain ⟨block, hholds, hlen, hreader⟩ :=
      blockReader_of_tableFile ht hK hread hsmall hopened junk verify hb
    refine ⟨_, hreader, ?_⟩
    rw [levels, hopened.options_eq, hcmp]
    exact hholds.behaves hlen (sorted_block ht.layout hb)
  handle_inj := by
    intro e he e' he' heq
    obtain ⟨b, hb, rfl⟩ := List.mem_map.mp he
    obtain ⟨b', hb', rfl⟩ := List.mem_map.mp he'
    have hset : ∀ x ∈ blocks, x.handle.Set := fun x hx => (ht.stored x hx).set hsmall.file_lt
    have hdecode : BlockHandle.decodeFrom b.handle.encoding
      = BlockHandle.decodeFrom b'.handle.encoding := congrArg BlockHandle.decodeFrom heq
    rw [decodeFrom_encoding_nil (hset b hb), decodeFrom_encoding_nil (hset b' hb')] at hdecode
    have hhandle : b.handle = b'.handle := (Prod.mk.inj (Except.ok.inj hdecode)).1
    rw [handle_inj ht.contiguous b hb b' hb' (congrArg BlockHandle.offset hhandle)]
  keeps := by
    intro s it hs hgood
    change TwoLevelIterator.saveError s it.status = .success
    rw [hs, hgood]
    rfl

theorem data_new (data : Bytes) : (Block.new data).data = data := by
  rw [Block.new]
  split
  · rfl
  · dsimp only
    split <;> rfl

/-- The iterator over the index is a cursor on the index entries. -/
theorem index_behaves (hc : c.Lawful P) (hl : Layout c P blocks none [])
    (hopened : Opened q options f blocks table) :
    (AnyIter.iterator c.compare).BehavesWith (fun it => it.status = .success)
      (fun a k => c.compare a.1 k = .lt) (blocks.map DataBlock.indexEntry)
      table.indexBlock.newIterator none := by
  have htrans := hc.trans
  obtain ⟨b, hb, hlen, hindex⟩ := hopened.index
  rw [hindex]
  exact hb.behaves hlen (sorted_index hc hl)

/-- **The iterators of a finished table are cursors on all entries**, and their status is always
OK. -/
theorem behaves_of_tableFile (hc : c.Lawful P) (ht : TableFile sn K c P q f.contents blocks)
    (hK : Uncompressed sn K) (hread : f.Readable) (hsmall : SmallTable sn K q f.contents blocks)
    (hopened : Opened q options f blocks table) (hcmp : options.comparator = c) (junk : ℕ → UInt8)
    (verify : Bool) :
    (iterator sn junk verify table).BehavesWith
      (fun t => t.status (levels sn junk verify table) = .success)
      (fun a k => c.compare a.1 k = .lt) (blocks.map DataBlock.entries).flatten
      (newIterator sn junk verify table) none := by
  have htrans := hc.trans
  have hserves := serves_of_tableFile hc ht hK hread hsmall hopened hcmp junk verify
  have hrounds : (blocks.map indexed).length + 1 < table.indexBlock.data.length + 2 := by
    obtain ⟨b, hb, -, hindex⟩ := hopened.index
    have hcount := hb.length_le
    rw [List.length_map] at hcount
    rw [hindex, data_new, List.length_map]
    omega
  have hindex := index_behaves hc ht.layout hopened
  rw [← map_indexEntry] at hindex
  have hlevels : (levels sn junk verify table).index = AnyIter.iterator c.compare := by
    rw [levels, hopened.options_eq, hcmp]
  rw [← hlevels] at hindex
  have hbehaves := TwoLevelIterator.twoLevel_behaves hserves
    (separated_indexed hc ht.layout) hrounds rfl hindex
  rw [concat_indexed] at hbehaves
  exact hbehaves.imp fun t hgood => hgood.status_eq

/-! ### Lookups -/

/-- What `InternalGet` does when the index leads to a block of a finished table. -/
theorem internalGet_of_block (hc : c.Lawful P) (ht : TableFile sn K c P q f.contents blocks)
    (hK : Uncompressed sn K) (hread : f.Readable) (hsmall : SmallTable sn K q f.contents blocks)
    (hopened : Opened q options f blocks table) (hcmp : options.comparator = c) (junk : ℕ → UInt8)
    (verify : Bool) {k : Bytes} {j : ℕ} {b : DataBlock}
    (hfind : (blocks.findIdx fun b => !decide (c.compare b.separator k = .lt)) = j)
    (hj : blocks[j]? = some b) :
    internalGet sn junk verify table k = some (.success,
      if table.filterExcludes b.handle.encoding k then []
      else (b.entries[b.entries.findIdx fun a => !decide (c.compare a.1 k = .lt)]?).toList) := by
  have htrans := hc.trans
  obtain ⟨ib, hib, hiblen, hindex⟩ := hopened.index
  obtain ⟨it, hit, hstatus, hentry⟩ := hib.seek hiblen (sorted_index hc ht.layout) k
  have hget : it.entry = some b.indexEntry := by
    rw [hentry, List.findIdx_map, List.getElem?_map]
    change Option.map _ blocks[blocks.findIdx fun b => !decide (c.compare b.separator k = .lt)]? = _
    rw [hfind, hj]
    rfl
  have hmem := List.mem_of_getElem? hj
  obtain ⟨block, hholds, hlen, hreader⟩ :=
    blockReader_of_tableFile ht hK hread hsmall hopened junk verify hmem
  obtain ⟨dit, hdit, hdstatus, hdentry⟩ := hholds.seek hlen (sorted_block ht.layout hmem) k
  rw [internalGet, hopened.options_eq, hcmp, hindex, hit]
  simp only [hget, DataBlock.indexEntry, hstatus, Option.bind_eq_bind, Option.bind_some, hreader,
    hdit, hdstatus, hdentry, Status.ok_success, if_true]
  split <;> rfl

/-- What `InternalGet` does when the key is behind the whole index. -/
theorem internalGet_of_end (hc : c.Lawful P) (hl : Layout c P blocks none [])
    (hopened : Opened q options f blocks table) (hcmp : options.comparator = c) (junk : ℕ → UInt8)
    (verify : Bool) {k : Bytes} (hend : ∀ b ∈ blocks, c.compare b.separator k = .lt) :
    internalGet sn junk verify table k = some (.success, []) := by
  have htrans := hc.trans
  obtain ⟨ib, hib, hiblen, hindex⟩ := hopened.index
  obtain ⟨it, hit, hstatus, hentry⟩ := hib.seek hiblen (sorted_index hc hl) k
  have hget : it.entry = none := by
    rw [hentry]
    refine List.getElem?_eq_none (Nat.le_of_eq (List.findIdx_eq_length.mpr ?_).symm)
    intro a ha
    obtain ⟨b, hb, rfl⟩ := List.mem_map.mp ha
    have hlt : c.compare b.indexEntry.1 k = .lt := hend b hb
    rw [hlt]
    rfl
  rw [internalGet, hopened.options_eq, hcmp, hindex, hit]
  simp only [hget, hstatus, Option.bind_eq_bind, Option.bind_some]

/-- `InternalGet` never fails, and calls `saver` at most once, with an entry that is not before the
key. -/
theorem internalGet_cases (hc : c.Lawful P) (ht : TableFile sn K c P q f.contents blocks)
    (hK : Uncompressed sn K) (hread : f.Readable) (hsmall : SmallTable sn K q f.contents blocks)
    (hopened : Opened q options f blocks table) (hcmp : options.comparator = c) (junk : ℕ → UInt8)
    (verify : Bool) (k : Bytes) :
    ∃ saved, internalGet sn junk verify table k = some (.success, saved) ∧
      (saved = [] ∨ ∃ a ∈ (blocks.map DataBlock.entries).flatten,
        saved = [a] ∧ c.compare a.1 k ≠ .lt) := by
  cases hj : blocks[blocks.findIdx fun b => !decide (c.compare b.separator k = .lt)]? with
  | none =>
    have hall := List.findIdx_eq_length.mp
      (Nat.le_antisymm List.findIdx_le_length (List.getElem?_eq_none_iff.mp hj))
    exact ⟨[], internalGet_of_end hc ht.layout hopened hcmp junk verify
      fun b hb => by simpa using hall b hb, .inl rfl⟩
  | some b =>
    refine ⟨_, internalGet_of_block hc ht hK hread hsmall hopened hcmp junk verify rfl hj, ?_⟩
    cases ha : b.entries[b.entries.findIdx fun a => !decide (c.compare a.1 k = .lt)]? with
    | none =>
      left
      rw [Option.toList_none, ite_self]
    | some a =>
      split
      · exact .inl rfl
      · right
        have hflat : a ∈ (blocks.map DataBlock.entries).flatten := List.mem_flatten.mpr
          ⟨_, List.mem_map_of_mem (List.mem_of_getElem? hj), List.mem_of_getElem? ha⟩
        refine ⟨a, hflat, rfl, ?_⟩
        obtain ⟨hlt, rfl⟩ := List.getElem?_eq_some_iff.mp ha
        simpa using List.findIdx_getElem (w := hlt)

/-- The entry is the first that is not before the key. -/
structure First (cmp : Bytes → Bytes → Ordering) (entries : List (Bytes × Bytes)) (k : Bytes)
    (a : Bytes × Bytes) : Prop where
  mem : a ∈ entries
  not_lt : cmp a.1 k ≠ .lt
  lt_of_lt : ∀ a' ∈ entries, cmp a'.1 a.1 = .lt → cmp a'.1 k = .lt

/-- In a sorted list, seeking finds the first entry. -/
theorem First.getElem?_findIdx {cmp : Bytes → Bytes → Ordering} {entries : List (Bytes × Bytes)}
    {k : Bytes} {a : Bytes × Bytes} (h : First cmp entries k a)
    (hsorted : entries.Pairwise fun x y => cmp x.1 y.1 = .lt) :
    entries[entries.findIdx fun x => !decide (cmp x.1 k = .lt)]? = some a := by
  obtain ⟨i, hi, hget⟩ := List.getElem_of_mem h.mem
  have hfind : (entries.findIdx fun x => !decide (cmp x.1 k = .lt)) = i := by
    refine (List.findIdx_eq hi).mpr ⟨?_, fun i' hi' => ?_⟩
    · rw [hget]
      simpa using h.not_lt
    · have hlt := List.pairwise_iff_getElem.mp hsorted i' i (hi'.trans hi) hi hi'
      rw [hget] at hlt
      rw [h.lt_of_lt _ (List.getElem_mem _) hlt]
      rfl
  rw [hfind, List.getElem?_eq_getElem hi, hget]

/-- In a sorted list there is a first entry that is not before the key, if there is any. -/
theorem exists_first {cmp : Bytes → Bytes → Ordering} [Std.TransCmp cmp]
    {entries : List (Bytes × Bytes)} (hsorted : entries.Pairwise fun x y => cmp x.1 y.1 = .lt)
    {k : Bytes} {e : Bytes × Bytes} (he : e ∈ entries) (hge : cmp e.1 k ≠ .lt) :
    ∃ a, First cmp entries k a := by
  have hlt : (entries.findIdx fun x => !decide (cmp x.1 k = .lt)) < entries.length :=
    List.findIdx_lt_length_of_exists ⟨e, he, by simpa using hge⟩
  refine ⟨entries[entries.findIdx fun x => !decide (cmp x.1 k = .lt)], List.getElem_mem _, ?_, ?_⟩
  · simpa using List.findIdx_getElem (w := hlt)
  · intro a' ha' hbefore
    obtain ⟨i, hi, rfl⟩ := List.getElem_of_mem ha'
    rcases Nat.lt_trichotomy i (entries.findIdx fun x => !decide (cmp x.1 k = .lt)) with h | h | h
    · simpa using List.not_of_lt_findIdx h
    · rw [getElem_congr_idx h, @Std.ReflCmp.compare_self _ cmp] at hbefore
      cases hbefore
    · have hafter := List.pairwise_iff_getElem.mp hsorted _ i hlt hi h
      exact absurd (Std.OrientedCmp.gt_iff_lt.mpr hafter) (by rw [hbefore]; decide)

/-- **A lookup finds the first entry that is not before the key**, unless an index key comes between
them, or the filter excludes the key from the block of the entry. -/
theorem internalGet_of_first (hc : c.Lawful P) (ht : TableFile sn K c P q f.contents blocks)
    (hK : Uncompressed sn K) (hread : f.Readable) (hsmall : SmallTable sn K q f.contents blocks)
    (hopened : Opened q options f blocks table) (hcmp : options.comparator = c) (junk : ℕ → UInt8)
    (verify : Bool) {k : Bytes} {a : Bytes × Bytes}
    (hfirst : First c.compare (blocks.map DataBlock.entries).flatten k a)
    (hseparators : ∀ b ∈ blocks, b.Parts c P a.1 → c.compare b.separator k = .lt)
    (hfilter : ∀ reader, table.filter = some reader → ∀ b ∈ blocks, a ∈ b.entries →
      reader.keyMayMatch b.handle.offset k = true) :
    internalGet sn junk verify table k = some (.success, [a]) := by
  have htrans := hc.trans
  obtain ⟨l, hl, ha⟩ := List.mem_flatten.mp hfirst.mem
  obtain ⟨b, hb, rfl⟩ := List.mem_map.mp hl
  obtain ⟨j, hj⟩ := List.getElem?_of_mem hb
  obtain ⟨hlt, hget⟩ := List.getElem?_eq_some_iff.mp hj
  have hfind : (blocks.findIdx fun b => !decide (c.compare b.separator k = .lt)) = j := by
    refine (List.findIdx_eq hlt).mpr ⟨?_, fun i hi => ?_⟩
    · have hle := ht.layout.le_separator b hb a ha
      rw [hget]
      simp only [Bool.not_eq_true', decide_eq_false_iff_not]
      intro hsep
      exact hfirst.not_lt (Std.TransCmp.lt_of_isLE_of_lt (Ordering.isLE_iff_ne_gt.mpr hle) hsep)
    · have hparts := List.pairwise_iff_getElem.mp ht.layout.parts i j (hi.trans hlt) hlt hi a
        (hget ▸ ha)
      rw [hseparators _ (List.getElem_mem _) hparts]
      rfl
  have hexcludes : table.filterExcludes b.handle.encoding k = false := by
    rw [filterExcludes,
      decodeFrom_encoding_nil ((ht.stored b hb).set hsmall.file_lt)]
    cases hreader : table.filter with
    | none => rfl
    | some reader => simp only [hfilter reader hreader b hb ha, Bool.not_true]
  have hfirst' : First c.compare b.entries k a := ⟨ha, hfirst.not_lt, fun a' ha' =>
    hfirst.lt_of_lt a' (List.mem_flatten.mpr ⟨_, hl, ha'⟩)⟩
  rw [internalGet_of_block hc ht hK hread hsmall hopened hcmp junk verify hfind hj, hexcludes,
    hfirst'.getElem?_findIdx (sorted_block ht.layout hb)]
  rfl

/-- **A lookup of a key that is there finds its entry.** -/
theorem internalGet_of_mem (hc : c.Lawful P) (ht : TableFile sn K c P q f.contents blocks)
    (hK : Uncompressed sn K) (hread : f.Readable) (hsmall : SmallTable sn K q f.contents blocks)
    (hopened : Opened q options f blocks table) (hcmp : options.comparator = c)
    (hpolicy : ∀ p, options.filterPolicy = some p → p = q) (junk : ℕ → UInt8) (verify : Bool)
    {a : Bytes × Bytes} (ha : a ∈ (blocks.map DataBlock.entries).flatten) :
    internalGet sn junk verify table a.1 = some (.success, [a]) := by
  have htrans := hc.trans
  have hself : c.compare a.1 a.1 = .eq := Std.ReflCmp.compare_self
  refine internalGet_of_first hc ht hK hread hsmall hopened hcmp junk verify
    ⟨ha, by rw [hself]; decide, fun _ _ h => h⟩ (fun b _ hparts => hparts.separator_lt hc) ?_
  intro reader hreader b hb hab
  obtain ⟨hoption, hmatch⟩ := hopened.filter reader hreader
  exact hmatch (hpolicy _ hoption) b hb a hab

end Table

end Squirrel
