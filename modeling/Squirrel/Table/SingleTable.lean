import Squirrel.Table.Table

/-!
# Tables of one entry

What a run with one call of `Add` leaves in the file, for any key and value: the data block, an
empty metaindex block, the index block and the footer. The blocks may be of any size, also of sizes
that their readers are not made for.

## Main results

* `TableBuilder.build_single` — the file
* `Table.openTable_single` — the table that is opened on it
-/

namespace Squirrel

open Coding Block

namespace TableBuilder

/-- An empty block. -/
def emptyBlock : Bytes := [0, 0, 0, 0, 1, 0, 0, 0]

/-- The footer behind blocks of these sizes and an empty metaindex block. -/
def singleFooter (dataSize indexSize : ℕ) : Footer :=
  ⟨⟨dataSize + 5, 8⟩, ⟨dataSize + 18, indexSize⟩⟩

/-- The file with a data block and its index block. -/
def singleFile (data index : Bytes) : Bytes :=
  storedBlock data .kNoCompression ++ (storedBlock emptyBlock .kNoCompression ++
    (storedBlock index .kNoCompression ++ (singleFooter data.length index.length).encoding))

variable {sn : Snappy} {options : Options} {key value separator handle : Bytes}
  {block index : BlockBuilder}

/-- The options under which each entry is a block. -/
structure Plain (options : Options) : Prop where
  blockSize : options.blockSize = 0
  compression : options.compression = .kNoCompression
  interval_pos : 1 ≤ options.blockRestartInterval

/-- The builder after the data block has been written. -/
def singleFlushed (options : Options) (key : Bytes) (data : Bytes) : TableBuilder :=
  { initial options .fresh none with
    lastKey := key
    numEntries := 1
    file := ⟨storedBlock data .kNoCompression, 3, fun _ => .success⟩
    offset := data.length + 5
    pendingIndexEntry := true
    pendingHandle := ⟨0, data.length⟩ }

theorem writeBlock_plain {r : TableBuilder} (hok : r.status = .success)
    (hcomp : r.options.compression = .kNoCompression) (b : BlockBuilder) :
    r.writeBlock sn b = .ok (r.writeRawBlock b.finish.1 .kNoCompression) := by
  rw [writeBlock_of_ok hok, hcomp]
  rfl

/-- Offsets stay below `2 ^ 64`. -/
theorem writeRawBlock_plain {r : TableBuilder} (hf : r.file.Sound) (contents : Bytes)
    (hsmall : r.offset + (contents.length + 5) < 2 ^ 64) :
    r.writeRawBlock contents .kNoCompression = ({ r with
      status := .success
      file := { r.file with
        contents := r.file.contents ++ storedBlock contents .kNoCompression
        calls := r.file.calls + 2 }
      offset := r.offset + (contents.length + 5) }, ⟨r.offset, contents.length⟩) := by
  rw [writeRawBlock_of_sound hf, Nat.mod_eq_of_lt hsmall]

theorem add_single (hp : Plain options)
    (hadd : BlockBuilder.reset.addWith options key value = some block)
    (hne : block.empty = false) (hsmall : block.finish.1.length + 5 < 2 ^ 64) :
    (initial options .fresh none).add sn key value
      = .ok (singleFlushed options key block.finish.1) := by
  have hentry : (initial options .fresh none).add sn key value = (do
      let dataBlock ← orAbort { initial options .fresh none with lastKey := key, numEntries := 1 }
        (BlockBuilder.reset.addWith options key value)
      let r := { initial options .fresh none with lastKey := key, numEntries := 1, dataBlock }
      if options.blockSize ≤ dataBlock.currentSizeEstimate then r.flush sn else .ok r) := rfl
  rw [hentry, hadd]
  show (if options.blockSize ≤ block.currentSizeEstimate then TableBuilder.flush sn
    { initial options .fresh none with lastKey := key, numEntries := 1, dataBlock := block }
    else _) = _
  rw [if_pos (hp.blockSize ▸ Nat.zero_le _), flush_of_nonempty rfl rfl (fun _ => rfl) hne rfl,
    flushed]
  show startFilterBlock { initial options .fresh none with
    status := .success
    lastKey := key
    numEntries := 1
    file := ⟨[] ++ storedBlock (compressBlock sn options.compression block.finish.1).1
      (compressBlock sn options.compression block.finish.1).2, 3, fun _ => .success⟩
    offset := (0 + ((compressBlock sn options.compression block.finish.1).1.length + 5)) % 2 ^ 64
    pendingIndexEntry := true
    pendingHandle := ⟨0, (compressBlock sn options.compression block.finish.1).1.length⟩ } = _
  rw [hp.compression, compressBlock, Nat.zero_add, Nat.mod_eq_of_lt hsmall]
  rfl

/-- The builder after the metaindex block. -/
def singleMeta (options : Options) (key data : Bytes) : TableBuilder :=
  { singleFlushed options key data with
    closed := true
    file := ⟨storedBlock data .kNoCompression ++ storedBlock emptyBlock .kNoCompression, 5,
      fun _ => .success⟩
    offset := data.length + 18 }

/-- The builder after the index block. -/
def singleIndexed (options : Options) (key separator data index : Bytes) : TableBuilder :=
  { singleMeta options key data with
    lastKey := separator
    file := ⟨storedBlock data .kNoCompression ++ storedBlock emptyBlock .kNoCompression
      ++ storedBlock index .kNoCompression, 7, fun _ => .success⟩
    offset := data.length + (index.length + 23)
    pendingIndexEntry := false }

theorem writeMetaindex_single (hp : Plain options) {data : Bytes}
    (hsmall : data.length + 18 < 2 ^ 64) :
    writeMetaindex sn .new { singleFlushed options key data with closed := true }
      = .ok (singleMeta options key data, ⟨data.length + 5, 8⟩) := by
  have hnew : BlockBuilder.new options.blockRestartInterval = some .reset := if_pos hp.interval_pos
  have hblock : metaIndexBlock .new { singleFlushed options key data with closed := true }
      = some .reset := by
    show (do
      let metaIndexBlock ← BlockBuilder.new options.blockRestartInterval
      some metaIndexBlock) = _
    rw [hnew]
    rfl
  have hempty : BlockBuilder.reset.finish.1 = emptyBlock := by decide
  rw [writeMetaindex, if_pos (by rfl), hblock]
  show writeBlock sn .reset { singleFlushed options key data with closed := true } = _
  rw [writeBlock_plain rfl hp.compression, hempty, writeRawBlock_plain (fun _ => rfl) _ hsmall]
  rfl

theorem writeIndex_single (hp : Plain options) {data : Bytes}
    (hseparator : options.comparator.findShortSuccessor key = some separator)
    (hhandle : BlockHandle.Set ⟨0, data.length⟩)
    (hadd : BlockBuilder.reset.addWith { options with blockRestartInterval := 1 } separator
      (BlockHandle.encoding ⟨0, data.length⟩) = some index)
    (hsmall : data.length + (index.finish.1.length + 23) < 2 ^ 64) :
    writeIndex sn (singleMeta options key data)
      = .ok (singleIndexed options key separator data index.finish.1,
        ⟨data.length + 18, index.finish.1.length⟩) := by
  have hlast : (singleMeta options key data).addLast = .ok { singleMeta options key data with
      indexBlock := index, lastKey := separator, pendingIndexEntry := false } := by
    show addIndexEntry (options.comparator.findShortSuccessor key) (singleMeta options key data) = _
    rw [hseparator]
    show (do
      let handleEncoding ← (singleMeta options key data).orAbort
        (BlockHandle.encodeTo ⟨0, data.length⟩ [])
      let indexBlock ← (singleMeta options key data).orAbort (BlockBuilder.reset.addWith
        { options with blockRestartInterval := 1 } separator handleEncoding)
      Except.ok { singleMeta options key data with
        indexBlock, lastKey := separator, pendingIndexEntry := false }) = _
    rw [BlockHandle.encodeTo_of_set hhandle, List.nil_append]
    show (do
      let indexBlock ← (singleMeta options key data).orAbort (BlockBuilder.reset.addWith
        { options with blockRestartInterval := 1 } separator
          (BlockHandle.encoding ⟨0, data.length⟩))
      Except.ok { singleMeta options key data with
        indexBlock, lastKey := separator, pendingIndexEntry := false }) = _
    rw [hadd]
    rfl
  have hoffset : data.length + 18 + (index.finish.1.length + 5) < 2 ^ 64 := by omega
  rw [writeIndex, if_pos (by rfl), hlast]
  show (writeBlock sn index { singleMeta options key data with
    indexBlock := index, lastKey := separator, pendingIndexEntry := false } >>= fun p =>
      Except.ok ({ p.1 with indexBlock := .reset }, p.2)) = _
  rw [writeBlock_plain rfl hp.compression, writeRawBlock_plain (fun _ => rfl) _ hoffset]
  show Except.ok ({ singleMeta options key data with
    lastKey := separator
    file := ⟨storedBlock data .kNoCompression ++ storedBlock emptyBlock .kNoCompression
      ++ storedBlock index.finish.1 .kNoCompression, 7, fun _ => .success⟩
    offset := data.length + 18 + (index.finish.1.length + 5)
    pendingIndexEntry := false }, _) = _
  rw [show data.length + 18 + (index.finish.1.length + 5)
    = data.length + (index.finish.1.length + 23) by omega]
  rfl

theorem le_length_singleFile (data index : Bytes) :
    data.length + (index.length + 23) ≤ (singleFile data index).length := by
  simp only [singleFile, List.length_append, length_storedBlock, emptyBlock, List.length_cons,
    List.length_nil]
  omega

theorem singleFooter_set {data index : Bytes} (hsmall : (singleFile data index).length < 2 ^ 63) :
    (singleFooter data.length index.length).metaindexHandle.Set ∧
      (singleFooter data.length index.length).indexHandle.Set := by
  have hle := le_length_singleFile data index
  simp only [singleFooter, BlockHandle.Set]
  omega

theorem length_singleFile_lt {data index : Bytes} (h : data.length + (index.length + 71) < 2 ^ 63) :
    (singleFile data index).length < 2 ^ 63 := by
  have hmeta : (singleFooter data.length index.length).metaindexHandle.Set := by
    simp only [singleFooter, BlockHandle.Set]
    omega
  have hindex : (singleFooter data.length index.length).indexHandle.Set := by
    simp only [singleFooter, BlockHandle.Set]
    omega
  simp only [singleFile, List.length_append, length_storedBlock, emptyBlock, List.length_cons,
    List.length_nil, Footer.length_encoding hmeta hindex, Footer.kEncodedLength,
    BlockHandle.kMaxEncodingLength]
  omega

theorem length_singleFile {data index : Bytes} (hsmall : (singleFile data index).length < 2 ^ 63) :
    (singleFile data index).length = data.length + (index.length + 71) := by
  obtain ⟨hmeta, hindex⟩ := singleFooter_set hsmall
  simp only [singleFile, List.length_append, length_storedBlock, emptyBlock, List.length_cons,
    List.length_nil, Footer.length_encoding hmeta hindex, Footer.kEncodedLength,
    BlockHandle.kMaxEncodingLength]
  omega

/-- **The file of a run with one entry**: four parts, one behind the other. -/
theorem build_single (sn : Snappy) (hp : Plain options)
    (hadd : BlockBuilder.reset.addWith options key value = some block) (hne : block.empty = false)
    (hseparator : options.comparator.findShortSuccessor key = some separator)
    (hindex : BlockBuilder.reset.addWith { options with blockRestartInterval := 1 } separator
      (BlockHandle.encoding ⟨0, block.finish.1.length⟩) = some index)
    (hsmall : (singleFile block.finish.1 index.finish.1).length < 2 ^ 63) :
    ∃ r', (initial options .fresh none).build sn [.add key value] = .ok r' ∧
      r'.file.contents = singleFile block.finish.1 index.finish.1 ∧
      r'.fileSize = (singleFile block.finish.1 index.finish.1).length := by
  have hle := le_length_singleFile block.finish.1 index.finish.1
  have hlen := length_singleFile hsmall
  obtain ⟨hmetaSet, hindexSet⟩ := singleFooter_set hsmall
  have hhandle : BlockHandle.Set ⟨0, block.finish.1.length⟩ := by
    simp only [BlockHandle.Set]
    omega
  have hcall : (initial options .fresh none).call sn (.add key value)
      = .ok (singleFlushed options key block.finish.1) :=
    add_single hp hadd hne (by omega)
  have hflush : (singleFlushed options key block.finish.1).flush sn
      = .ok (singleFlushed options key block.finish.1) := rfl
  have hfilter : writeFilter { singleFlushed options key block.finish.1 with closed := true }
      = ({ singleFlushed options key block.finish.1 with closed := true }, .new) := rfl
  have hfooter : Footer.encodeTo (singleFooter block.finish.1.length index.finish.1.length) []
      = some (singleFooter block.finish.1.length index.finish.1.length).encoding :=
    Footer.encodeTo_nil hmetaSet hindexSet
  rw [build_cons hcall, build, finish, hflush]
  dsimp only [bind, Except.bind]
  rw [hfilter]
  dsimp only
  rw [writeMetaindex_single hp (by omega)]
  dsimp only
  rw [writeIndex_single hp hseparator hhandle hindex (by omega)]
  dsimp only
  rw [writeFooter, if_pos (by rfl)]
  rw [show (⟨⟨block.finish.1.length + 5, 8⟩,
      ⟨block.finish.1.length + 18, index.finish.1.length⟩⟩ : Footer)
    = singleFooter block.finish.1.length index.finish.1.length from rfl, hfooter]
  refine ⟨_, rfl, ?_, ?_⟩
  · show storedBlock block.finish.1 .kNoCompression ++ storedBlock emptyBlock .kNoCompression
      ++ storedBlock index.finish.1 .kNoCompression ++ _ = _
    simp only [singleFile, List.append_assoc]
  · show (block.finish.1.length + (index.finish.1.length + 23)
      + (singleFooter block.finish.1.length index.finish.1.length).encoding.length) % 2 ^ 64 = _
    rw [Footer.length_encoding hmetaSet hindexSet, hlen, Footer.kEncodedLength,
      BlockHandle.kMaxEncodingLength, Nat.mod_eq_of_lt (by omega)]
    omega

end TableBuilder

namespace Table

open TableBuilder

variable (sn : Snappy) (junk : ℕ → UInt8) {options : Options} {data index : Bytes}

/-- The table that is opened on the file. -/
def single (options : Options) (data index : Bytes) : Table :=
  ⟨options, .mmap "t" (singleFile data index), none, ⟨data.length + 5, 8⟩, .new index⟩

theorem readable_singleFile (hsmall : (singleFile data index).length < 2 ^ 63) :
    (RandomAccessFile.mmap "t" (singleFile data index)).Readable :=
  RandomAccessFile.readable_mmap "t" (hsmall.trans (by norm_num))

/-- The data block can be read. -/
theorem readBlock_single_data (hsmall : (singleFile data index).length < 2 ^ 63) (verify : Bool) :
    ∃ c, readBlock sn junk (.mmap "t" (singleFile data index)) verify ⟨0, data.length⟩
      = some (.success, c) ∧ c.data = data := by
  have hle := le_length_singleFile data index
  have hfile : (RandomAccessFile.mmap "t" (singleFile data index)).contents
      = [] ++ (storedBlock data .kNoCompression ++ (storedBlock emptyBlock .kNoCompression ++
        (storedBlock index .kNoCompression ++
          (singleFooter data.length index.length).encoding))) := rfl
  refine readBlock_of_stored junk verify hfile hsmall (readable_singleFile hsmall _ _ ?_)
  show 0 + (data.length + 5) ≤ (singleFile data index).length
  omega

/-- The index block can be read. -/
theorem readBlock_single_index (hsmall : (singleFile data index).length < 2 ^ 63) (verify : Bool) :
    ∃ c, readBlock sn junk (.mmap "t" (singleFile data index)) verify
      ⟨data.length + 18, index.length⟩ = some (.success, c) ∧ c.data = index := by
  have hle := le_length_singleFile data index
  have hfile : (RandomAccessFile.mmap "t" (singleFile data index)).contents
      = (storedBlock data .kNoCompression ++ storedBlock emptyBlock .kNoCompression) ++
        (storedBlock index .kNoCompression
          ++ (singleFooter data.length index.length).encoding) := by
    show singleFile data index = _
    rw [singleFile, List.append_assoc]
  have hfront : (storedBlock data .kNoCompression ++ storedBlock emptyBlock .kNoCompression).length
      = data.length + 18 := by
    rw [List.length_append, length_storedBlock, length_storedBlock]
    rfl
  rw [← hfront]
  refine readBlock_of_stored junk verify hfile hsmall (readable_singleFile hsmall _ _ ?_)
  show _ ≤ (singleFile data index).length
  omega

/-- **The table of the file**: `Open` reads the index block. -/
theorem openTable_single (hfilter : options.filterPolicy = none)
    (hsmall : (singleFile data index).length < 2 ^ 63) :
    openTable sn junk options (.mmap "t" (singleFile data index)) (singleFile data index).length
      = some (.success, some (single options data index)) := by
  obtain ⟨hmeta, hindex⟩ := singleFooter_set hsmall
  have hlen : (singleFooter data.length index.length).encoding.length = Footer.kEncodedLength :=
    Footer.length_encoding hmeta hindex
  have hlong : ¬ (singleFile data index).length < Footer.kEncodedLength := by
    rw [length_singleFile hsmall]
    simp only [Footer.kEncodedLength, BlockHandle.kMaxEncodingLength]
    omega
  have hfile : (RandomAccessFile.mmap "t" (singleFile data index)).contents
      = (storedBlock data .kNoCompression ++ (storedBlock emptyBlock .kNoCompression ++
        storedBlock index .kNoCompression))
          ++ (singleFooter data.length index.length).encoding := by
    show singleFile data index = _
    simp only [singleFile, List.append_assoc]
  obtain ⟨s, d, hd, hbytes⟩ := read_footer hfile (readable_singleFile hsmall) hsmall
    (by rw [hlen]; decide)
  rw [hlen] at hd
  have hdecode := Footer.decodeFrom_encodeTo hmeta hindex
  obtain ⟨c, hc, hdata⟩ := readBlock_single_index sn junk hsmall options.paranoidChecks
  have hblock : readBlock sn junk (.mmap "t" (singleFile data index)) options.paranoidChecks
      (singleFooter data.length index.length).indexHandle = some (.success, c) := hc
  have hread : (RandomAccessFile.mmap "t" (singleFile data index)).read
      ((singleFile data index).length - Footer.kEncodedLength) Footer.kEncodedLength
        = (s, some d) := hd
  rw [openTable, if_neg hlong, hread]
  simp only [hbytes, hdecode, hblock, hdata, readMeta, hfilter, Option.bind_eq_bind,
    Option.bind_some, Status.ok_success, if_true]
  rfl

end Table

end Squirrel
