import Squirrel.Table.BlockBuilder
import Squirrel.Table.FilterBlock
import Squirrel.Table.Format

/-!
# Building tables

`TableBuilder` appends data blocks to a file as they fill up, and at the end a filter block, an
index and a footer. The index entry for a block is only made when the first key of the next block is
known, so that a key between the two can stand for the block.

The options are a part of the state: the block builders point to them, and `ChangeOptions`
overwrites them. A failed assertion, and the use of a filter policy that is not there, end
everything; what is left is the builder as it was then, and so its file.

`ChangeOptions` compares two pointers to comparators. Its model is told the outcome; where they are
equal, so are the comparators.

## Main results

* `readBlock_of_stored` — an uncompressed block can be read back, from either kind of file
* `TableBuilder.writeBlock_readBlock_iff` — and a compressed one cannot
-/

namespace Squirrel

open Coding

/-- `CompressionType`. -/
inductive CompressionType
  | kNoCompression
  | kSnappyCompression
  deriving DecidableEq, Repr

/-- The type byte of a stored block. -/
def CompressionType.toByte : CompressionType → UInt8
  | kNoCompression => 0
  | kSnappyCompression => 1

/-- The fields of `Options` that tables use. -/
structure Options where
  comparator : Comparator
  paranoidChecks : Bool
  blockSize : ℕ
  blockRestartInterval : ℕ
  compression : CompressionType
  filterPolicy : Option FilterPolicy

/-- The state of a `TableBuilder`. -/
structure TableBuilder where
  options : Options
  indexBlockOptions : Options
  file : WritableFile
  offset : ℕ
  status : Status
  dataBlock : BlockBuilder
  indexBlock : BlockBuilder
  lastKey : Bytes
  numEntries : ℕ
  closed : Bool
  filterBlock : Option FilterBlockBuilder
  pendingIndexEntry : Bool
  pendingHandle : BlockHandle

/-- The block builder's `Add` under the options it points to. -/
def BlockBuilder.addWith (options : Options) (key value : Bytes) (b : BlockBuilder) :
    Option BlockBuilder :=
  b.add options.comparator.compare options.blockRestartInterval key value

namespace TableBuilder

/-- The fields of a new builder. -/
def initial (options : Options) (file : WritableFile) (filterBlock : Option FilterBlockBuilder) :
    TableBuilder where
  options
  indexBlockOptions := { options with blockRestartInterval := 1 }
  file
  offset := 0
  status := .success
  dataBlock := .reset
  indexBlock := .reset
  lastKey := []
  numEntries := 0
  closed := false
  filterBlock
  pendingIndexEntry := false
  pendingHandle := .new

/-- The filter block of a new builder, with its first block started. -/
def newFilterBlock : Option FilterPolicy → Option (Option FilterBlockBuilder)
  | none => some none
  | some policy => ((FilterBlockBuilder.new policy).startBlock 0).map some

/-- The constructor, which also starts the first block of the filter. The index block builder is
made while its options still have the restart interval of the others. -/
def new (options : Options) (file : WritableFile) : Option TableBuilder := do
  let dataBlock ← BlockBuilder.new options.blockRestartInterval
  let indexBlock ← BlockBuilder.new options.blockRestartInterval
  let filterBlock ← newFilterBlock options.filterPolicy
  some { initial options file filterBlock with dataBlock, indexBlock }

/-- `ChangeOptions`. -/
def changeOptions (sameComparator : Bool) (options : Options) (r : TableBuilder) :
    Status × TableBuilder :=
  if sameComparator then
    let options := { options with comparator := r.options.comparator }
    (.success, { r with
      options
      indexBlockOptions := { options with blockRestartInterval := 1 } })
  else (.error .kInvalidArgument "changing comparator while building table", r)

/-- The trailer of a stored block. -/
def blockTrailer (contents : Bytes) (type : CompressionType) : Bytes :=
  let crc := Crc32c.value contents
  let crc := Crc32c.extend crc [type.toByte]
  type.toByte :: encodeFixed32 (Crc32c.mask crc).toNat

/-- `WriteRawBlock`: the builder and the handle of the block. -/
def writeRawBlock (contents : Bytes) (type : CompressionType) (r : TableBuilder) :
    TableBuilder × BlockHandle :=
  let handle : BlockHandle := ⟨r.offset, contents.length⟩
  let (status, file) := r.file.append contents
  let r := { r with status, file }
  if status.ok then
    let (status, file) := r.file.append (blockTrailer contents type)
    let r := { r with status, file }
    if status.ok then
      ({ r with offset := (r.offset + (contents.length + kBlockTrailerSize)) % 2 ^ 64 }, handle)
    else (r, handle)
  else (r, handle)

/-- What `WriteBlock` stores for a raw block, and with which type. -/
def compressBlock (sn : Snappy) (compression : CompressionType) (raw : Bytes) :
    Bytes × CompressionType :=
  match compression with
  | .kNoCompression => (raw, .kNoCompression)
  | .kSnappyCompression =>
    match sn.compress raw with
    | some compressed =>
      if compressed.length < raw.length - raw.length / 8 then (compressed, .kSnappyCompression)
      else (raw, .kNoCompression)
    | none => (raw, .kNoCompression)

/-- An assertion: goes on with what is there, or ends with the builder as it is. -/
def orAbort {α : Type} (r : TableBuilder) : Option α → Except TableBuilder α
  | some a => .ok a
  | none => .error r

/-- `WriteBlock`: the builder and the handle. The block is reset afterwards. -/
def writeBlock (sn : Snappy) (block : BlockBuilder) (r : TableBuilder) :
    Except TableBuilder (TableBuilder × BlockHandle) :=
  if r.status.ok then
    let raw := block.finish.1
    let (contents, type) := compressBlock sn r.options.compression raw
    .ok (r.writeRawBlock contents type)
  else .error r

/-- The end of `Flush`: the filter block is told where the next data block starts. -/
def startFilterBlock (r : TableBuilder) : Except TableBuilder TableBuilder :=
  match r.filterBlock with
  | none => .ok r
  | some filterBlock => do
    let filterBlock ← r.orAbort (filterBlock.startBlock r.offset)
    .ok { r with filterBlock := some filterBlock }

/-- `Flush`. -/
def flush (sn : Snappy) (r : TableBuilder) : Except TableBuilder TableBuilder :=
  if r.closed then .error r
  else if r.status.ok = false then .ok r
  else if r.dataBlock.empty then .ok r
  else if r.pendingIndexEntry then .error r
  else do
    let (r, pendingHandle) ← r.writeBlock sn r.dataBlock
    let r := { r with pendingHandle, dataBlock := .reset }
    let r :=
      if r.status.ok then
        let (status, file) := r.file.flush
        { r with pendingIndexEntry := true, status, file }
      else r
    r.startFilterBlock

/-- The index entry for the block that has been written last, under a key that stands for it. -/
def addIndexEntry (separator : Option Bytes) (r : TableBuilder) :
    Except TableBuilder TableBuilder := do
  let separator ← r.orAbort separator
  let handleEncoding ← r.orAbort (r.pendingHandle.encodeTo [])
  let indexBlock ← r.orAbort (r.indexBlock.addWith r.indexBlockOptions separator handleEncoding)
  .ok { r with indexBlock, lastKey := separator, pendingIndexEntry := false }

/-- The part of `Add` about the block before: its index entry, now that the next key is known. -/
def addPending (key : Bytes) (r : TableBuilder) : Except TableBuilder TableBuilder :=
  if r.pendingIndexEntry then
    if r.dataBlock.empty then
      r.addIndexEntry (r.options.comparator.findShortestSeparator r.lastKey key)
    else .error r
  else .ok r

/-- The part of `Add` about the entry itself. -/
def addEntry (sn : Snappy) (key value : Bytes) (r : TableBuilder) :
    Except TableBuilder TableBuilder := do
  let r := { r with
    filterBlock := r.filterBlock.map (FilterBlockBuilder.addKey key)
    lastKey := key
    numEntries := r.numEntries + 1 }
  let dataBlock ← r.orAbort (r.dataBlock.addWith r.options key value)
  let r := { r with dataBlock }
  if r.options.blockSize ≤ dataBlock.currentSizeEstimate then r.flush sn else .ok r

/-- `Add`. -/
def add (sn : Snappy) (key value : Bytes) (r : TableBuilder) : Except TableBuilder TableBuilder :=
  if r.closed then .error r
  else if r.status.ok = false then .ok r
  else if 0 < r.numEntries ∧ r.options.comparator.compare key r.lastKey ≠ .gt then .error r
  else do (← r.addPending key).addEntry sn key value

/-- `"filter."`. -/
def filterPrefix : Bytes := [102, 105, 108, 116, 101, 114, 46]

/-- The first step of `Finish` after `Flush`: the filter block, if there is one. -/
def writeFilter (r : TableBuilder) : TableBuilder × BlockHandle :=
  match r.status.ok, r.filterBlock with
  | true, some filterBlock => r.writeRawBlock filterBlock.finish .kNoCompression
  | _, _ => (r, .new)

/-- The entry of the metaindex block. The name is that of the policy in the options. -/
def metaIndexBlock (filterHandle : BlockHandle) (r : TableBuilder) : Option BlockBuilder := do
  let metaIndexBlock ← BlockBuilder.new r.options.blockRestartInterval
  match r.filterBlock with
  | none => some metaIndexBlock
  | some _ => do
    let policy ← r.options.filterPolicy
    let handleEncoding ← filterHandle.encodeTo []
    metaIndexBlock.addWith r.options (filterPrefix ++ policy.name) handleEncoding

/-- The second step: the block that says where the filter is. -/
def writeMetaindex (sn : Snappy) (filterHandle : BlockHandle) (r : TableBuilder) :
    Except TableBuilder (TableBuilder × BlockHandle) :=
  if r.status.ok then do
    let block ← r.orAbort (r.metaIndexBlock filterHandle)
    r.writeBlock sn block
  else .ok (r, .new)

/-- The index entry for the last block of all. -/
def addLast (r : TableBuilder) : Except TableBuilder TableBuilder :=
  if r.pendingIndexEntry then
    r.addIndexEntry (r.options.comparator.findShortSuccessor r.lastKey)
  else .ok r

/-- The third step: the index. -/
def writeIndex (sn : Snappy) (r : TableBuilder) :
    Except TableBuilder (TableBuilder × BlockHandle) :=
  if r.status.ok then do
    let r ← r.addLast
    let (r, handle) ← r.writeBlock sn r.indexBlock
    .ok ({ r with indexBlock := .reset }, handle)
  else .ok (r, .new)

/-- The last step. -/
def writeFooter (metaindexHandle indexHandle : BlockHandle) (r : TableBuilder) :
    Except TableBuilder TableBuilder :=
  if r.status.ok then do
    let footerEncoding ← r.orAbort (Footer.encodeTo ⟨metaindexHandle, indexHandle⟩ [])
    let (status, file) := r.file.append footerEncoding
    let r := { r with status, file }
    if status.ok then .ok { r with offset := (r.offset + footerEncoding.length) % 2 ^ 64 }
    else .ok r
  else .ok r

/-- `Finish`; its result is the status of the builder. -/
def finish (sn : Snappy) (r : TableBuilder) : Except TableBuilder TableBuilder := do
  let r ← r.flush sn
  let (r, filterHandle) := writeFilter { r with closed := true }
  let (r, metaindexHandle) ← r.writeMetaindex sn filterHandle
  let (r, indexHandle) ← r.writeIndex sn
  r.writeFooter metaindexHandle indexHandle

/-- `FileSize`. -/
def fileSize (r : TableBuilder) : ℕ := r.offset

/-! ### Runs -/

/-- A call of one of the operations that may come before `Finish`. -/
inductive Call
  | add (key value : Bytes)
  | flush
  | changeOptions (sameComparator : Bool) (options : Options)

/-- One call. -/
def call (sn : Snappy) (r : TableBuilder) : Call → Except TableBuilder TableBuilder
  | .add key value => r.add sn key value
  | .flush => r.flush sn
  | .changeOptions sameComparator options => .ok (r.changeOptions sameComparator options).2

/-- Some calls. -/
def runCalls (sn : Snappy) (r : TableBuilder) : List Call → Except TableBuilder TableBuilder
  | [] => .ok r
  | c :: calls => do (← r.call sn c).runCalls sn calls

/-- Some calls, and then `Finish`. -/
def build (sn : Snappy) (r : TableBuilder) : List Call → Except TableBuilder TableBuilder
  | [] => r.finish sn
  | c :: calls => do (← r.call sn c).build sn calls

/-- The pairs that some calls add. -/
def added (calls : List Call) : List (Bytes × Bytes) :=
  calls.filterMap fun
    | .add key value => some (key, value)
    | _ => none

/-- The builder at the end of a run, be it by a failed assertion. -/
def outcome : Except TableBuilder TableBuilder → TableBuilder
  | .ok r => r
  | .error r => r

/-! ### Storing a block and reading it back -/

/-- A block as it is stored. -/
def storedBlock (contents : Bytes) (type : CompressionType) : Bytes :=
  contents ++ blockTrailer contents type

theorem length_storedBlock (contents : Bytes) (type : CompressionType) :
    (storedBlock contents type).length = contents.length + 5 := by
  rw [storedBlock, List.length_append]
  rfl

theorem writeRawBlock_of_sound {r : TableBuilder} (hf : r.file.Sound) (contents : Bytes)
    (type : CompressionType) :
    r.writeRawBlock contents type = ({ r with
      status := .success
      file := { r.file with
        contents := r.file.contents ++ storedBlock contents type
        calls := r.file.calls + 2 }
      offset := (r.offset + (contents.length + 5)) % 2 ^ 64 }, ⟨r.offset, contents.length⟩) := by
  have hf' : WritableFile.Sound
      { r.file with contents := r.file.contents ++ contents, calls := r.file.calls + 1 } := hf
  rw [writeRawBlock, WritableFile.append_of_sound hf]
  dsimp only
  rw [if_pos Status.ok_success, WritableFile.append_of_sound hf']
  simp only [Status.ok_success, if_true, List.append_assoc, kBlockTrailerSize, storedBlock]

/-- The bytes of the trailer are what `ReadBlock` checks. -/
theorem checksumOk_blockTrailer (contents : Bytes) (type : CompressionType) :
    checksumOk (contents ++ [type.toByte]) ((blockTrailer contents type).drop 1) = true := by
  have hdrop : (blockTrailer contents type).drop 1
      = encodeFixed32 (Crc32c.mask (Crc32c.extend (Crc32c.value contents) [type.toByte])).toNat
        ++ [] := by
    rw [List.append_nil]
    rfl
  rw [checksumOk, hdrop, decodeFixed32_encodeFixed32, Nat.mod_eq_of_lt (BitVec.isLt _),
    BitVec.ofNat_toNat, BitVec.setWidth_eq, Crc32c.unmask_mask, Crc32c.value,
    Crc32c.extend_append]
  exact decide_eq_true rfl

variable {sn : Snappy} {f : RandomAccessFile} {front contents back : Bytes} {type : CompressionType}

/-- What `ReadBlock` does with a block that has been stored. -/
theorem readBlock_of_storedBlock (sn : Snappy) (junk : ℕ → UInt8) (verify : Bool)
    (hf : f.contents = front ++ (storedBlock contents type ++ back))
    (hlen : f.contents.length < 2 ^ 63) (hdel : f.Delivers front.length (contents.length + 5)) :
    ∃ d : Loaded, readBlock sn junk f verify ⟨front.length, contents.length⟩
        = decodeBlock sn junk d contents.length ∧
      d.bytesAt 0 contents.length = some contents ∧
      d.bytesAt contents.length 1 = some [type.toByte] := by
  obtain ⟨s, d, hread, hsize⟩ := hdel
  have hlength := congrArg List.length hf
  rw [List.length_append, List.length_append, length_storedBlock] at hlength
  have hmod : (contents.length + 5) % 2 ^ 64 = contents.length + 5 := Nat.mod_eq_of_lt (by omega)
  have hcov := RandomAccessFile.covers_of_read hread hsize (Nat.succ_pos _) fun _ => by omega
  have hdrop : ∀ i, f.contents.drop (front.length + i)
      = (contents ++ (blockTrailer contents type ++ back)).drop i := fun i => by
    rw [hf, ← List.drop_drop, List.drop_left, storedBlock, List.append_assoc]
  have htrailer : blockTrailer contents type
      = [type.toByte] ++ (blockTrailer contents type).drop 1 := rfl
  have hfive : (blockTrailer contents type).length = 5 := rfl
  have hbytes : d.bytesAt 0 contents.length = some contents := by
    rw [hcov.2 0 contents.length (by omega), hdrop, List.drop_zero, List.take_left]
  have htype : d.bytesAt contents.length 1 = some [type.toByte] := by
    rw [hcov.2 contents.length 1 (by omega), hdrop, List.drop_left]
    rfl
  refine ⟨d, ?_, hbytes, htype⟩
  rw [readBlock_of_covers (h := ⟨front.length, contents.length⟩) hmod hread hsize hcov, if_pos]
  intro _
  dsimp only
  have hcrc : (f.contents.drop (front.length + (contents.length + 1))).take 4
      = (blockTrailer contents type).drop 1 := by
    rw [hdrop, ← List.drop_drop, List.drop_left,
      List.drop_append_of_le_length (hfive ▸ Nat.le_add_left 1 4),
      List.take_append_of_le_length (by rw [List.length_drop, hfive]),
      List.take_of_length_le (by rw [List.length_drop, hfive])]
  have hdata : (f.contents.drop front.length).take (contents.length + 1)
      = contents ++ [type.toByte] := by
    have h := hdrop 0
    rw [Nat.add_zero, List.drop_zero] at h
    rw [h, htrailer, List.append_assoc, ← List.append_assoc contents,
      List.take_append_of_le_length (by simp), List.take_of_length_le (by simp)]
  rw [hcrc, hdata]
  exact checksumOk_blockTrailer contents type

/-- **An uncompressed block can be read back**, from either kind of file. -/
theorem readBlock_of_stored (junk : ℕ → UInt8) (verify : Bool)
    (hf : f.contents = front ++ (storedBlock contents .kNoCompression ++ back))
    (hlen : f.contents.length < 2 ^ 63) (hdel : f.Delivers front.length (contents.length + 5)) :
    ∃ c, readBlock sn junk f verify ⟨front.length, contents.length⟩ = some (.success, c) ∧
      c.data = contents := by
  obtain ⟨d, hread, hbytes, htype⟩ := readBlock_of_storedBlock sn junk verify hf hlen hdel
  refine ⟨⟨contents, d.inScratch, d.inScratch⟩, ?_, rfl⟩
  rw [hread, decodeBlock, htype]
  simp [CompressionType.toByte, hbytes]

/-- A compressed block cannot: whatever is returned is what the memory happens to hold. -/
theorem readBlock_of_stored_snappy {junk : ℕ → UInt8} {verify : Bool} {c : BlockContents}
    (hf : f.contents = front ++ (storedBlock contents .kSnappyCompression ++ back))
    (hlen : f.contents.length < 2 ^ 63) (hdel : f.Delivers front.length (contents.length + 5))
    (hread : readBlock sn junk f verify ⟨front.length, contents.length⟩ = some (.success, c)) :
    ∃ ulength, sn.getUncompressedLength contents = some ulength ∧
      c.data = newChars junk ulength := by
  obtain ⟨d, hdecode, hbytes, htype⟩ := readBlock_of_storedBlock sn junk verify hf hlen hdel
  rw [hdecode, decodeBlock, htype] at hread
  simp only [CompressionType.toByte, Option.bind_eq_bind, Option.bind_some, hbytes,
    show ¬ ([1] : Bytes) = [0] by decide, if_false, if_true] at hread
  cases hul : sn.getUncompressedLength contents with
  | none =>
    rw [hul] at hread
    cases hread
  | some ulength =>
    simp only [hul] at hread
    split at hread
    · cases hread
    split at hread
    · cases hread
      exact ⟨ulength, rfl, rfl⟩
    · cases hread

end TableBuilder

/-- What compresses decompresses to what it was, and its length is known. -/
def Snappy.RoundTrips (sn : Snappy) : Prop :=
  ∀ input output, sn.compress input = some output →
    sn.getUncompressedLength output = some input.length ∧ sn.uncompress false output = (input, true)

namespace TableBuilder

/-- `WriteBlock` stores the block compressed: that is asked for, snappy is there, and it saves more
than an eighth. -/
def StoresCompressed (sn : Snappy) (compression : CompressionType) (raw : Bytes) : Prop :=
  compression = .kSnappyCompression ∧
    ∃ compressed, sn.compress raw = some compressed ∧
      compressed.length < raw.length - raw.length / 8

theorem compressBlock_of_not {sn : Snappy} {compression : CompressionType} {raw : Bytes}
    (h : ¬ StoresCompressed sn compression raw) :
    compressBlock sn compression raw = (raw, .kNoCompression) := by
  cases compression with
  | kNoCompression => rfl
  | kSnappyCompression =>
    rw [compressBlock]
    split
    · next compressed hcompress =>
      rw [if_neg fun hlt => h ⟨rfl, compressed, hcompress, hlt⟩]
    · rfl

theorem writeBlock_of_ok {sn : Snappy} {r : TableBuilder} (hok : r.status = .success)
    (block : BlockBuilder) :
    r.writeBlock sn block = .ok (r.writeRawBlock
      (compressBlock sn r.options.compression block.finish.1).1
      (compressBlock sn r.options.compression block.finish.1).2) := by
  rw [writeBlock, hok, if_pos Status.ok_success]

/-- What `WriteBlock` puts into the file, and its handle. -/
theorem file_of_writeBlock {sn : Snappy} {r r' : TableBuilder} {block : BlockBuilder}
    {h : BlockHandle} (hf : r.file.Sound) (hok : r.status = .success)
    (hoff : r.offset = r.file.contents.length) (hw : r.writeBlock sn block = .ok (r', h)) :
    r'.file.contents = r.file.contents ++ storedBlock
        (compressBlock sn r.options.compression block.finish.1).1
        (compressBlock sn r.options.compression block.finish.1).2 ∧
      h = ⟨r.file.contents.length,
        (compressBlock sn r.options.compression block.finish.1).1.length⟩ := by
  rw [writeBlock_of_ok hok, writeRawBlock_of_sound hf, hoff] at hw
  cases hw
  exact ⟨rfl, rfl⟩

theorem finish_ne_nil (block : BlockBuilder) : block.finish.1 ≠ [] := by
  intro h
  have hlen := congrArg List.length h
  simp [BlockBuilder.finish, BlockBuilder.trailer] at hlen

/-- **Reading back what `WriteBlock` wrote**, later on and from either kind of file, gives the raw
block exactly if it was not stored compressed. -/
theorem writeBlock_readBlock_iff {sn : Snappy} {r r' : TableBuilder} {block : BlockBuilder}
    {h : BlockHandle} (hf : r.file.Sound) (hok : r.status = .success)
    (hoff : r.offset = r.file.contents.length) (hw : r.writeBlock sn block = .ok (r', h))
    {f : RandomAccessFile} {more : Bytes} (hfile : f.contents = r'.file.contents ++ more)
    (hlen : f.contents.length < 2 ^ 63) (hdel : f.Delivers h.offset (h.size + 5)) (verify : Bool) :
    (∀ junk, ∃ c, readBlock sn junk f verify h = some (.success, c) ∧ c.data = block.finish.1) ↔
      ¬ StoresCompressed sn r.options.compression block.finish.1 := by
  obtain ⟨hcontents, rfl⟩ := file_of_writeBlock hf hok hoff hw
  rw [hcontents, List.append_assoc] at hfile
  constructor
  · rintro hread ⟨hopt, compressed, hcompress, hlt⟩
    have hstored : compressBlock sn r.options.compression block.finish.1
        = (compressed, .kSnappyCompression) := by
      rw [hopt, compressBlock, hcompress]
      exact if_pos hlt
    rw [hstored] at hfile hdel hread
    -- memory that does not hold the first byte of the block
    obtain ⟨x, hx, -⟩ := exists_ne_ne (block.finish.1.getD 0 0) 0
    obtain ⟨c, hc, hdata⟩ := hread fun _ => x
    obtain ⟨ulength, -, hchars⟩ := readBlock_of_stored_snappy hfile hlen hdel hc
    have hpos := List.length_pos_iff.mpr (finish_ne_nil block)
    have hul : 0 < ulength := by
      have hlength := congrArg List.length (hdata.symm.trans hchars)
      rw [newChars, List.length_map, List.length_range] at hlength
      rwa [← hlength]
    have hhead : (newChars (fun _ => x) ulength).getD 0 0 = x := by
      simp [newChars, List.getD_eq_getElem?_getD, hul]
    exact hx (by rw [← hdata, hchars, hhead])
  · intro hnot junk
    rw [compressBlock_of_not hnot] at hfile hdel ⊢
    exact readBlock_of_stored junk verify hfile hlen hdel

/-- A block with one entry, eleven times the letter `a` under `k`. -/
def repetitive : BlockBuilder := ⟨[0, 1, 11, 107] ++ List.replicate 11 97, [0], 1, false, [107]⟩

/-- A new builder with a fresh file. -/
def fresh (compression : CompressionType) : TableBuilder :=
  initial ⟨bytewiseComparator, false, 4096, 16, compression, none⟩ .fresh none

/-- The mapped file that `WriteBlock` leaves behind. -/
theorem delivers_mmap (contents : Bytes) :
    (RandomAccessFile.mmap "t" contents).Delivers 0 contents.length :=
  ⟨_, _, if_neg (Nat.not_lt.mpr (by rw [Nat.zero_add]; exact Nat.mod_le _ _)), rfl⟩

/-- Without compression the block comes back. -/
theorem readBlock_repetitive :
    let f := RandomAccessFile.mmap "t" (storedBlock repetitive.finish.1 .kNoCompression)
    ∀ junk, ∃ c, readBlock .absent junk f true ⟨0, 23⟩ = some (.success, c) ∧
      c.data = repetitive.finish.1 := by
  intro f
  have hlen : repetitive.finish.1.length = 23 := by decide
  have hstored : f.contents.length = 28 := by
    rw [← show repetitive.finish.1.length + 5 = 28 by rw [hlen]]
    exact length_storedBlock _ _
  have hdel : f.Delivers 0 (23 + 5) := by
    rw [show 23 + 5 = f.contents.length by rw [hstored]]
    exact delivers_mmap _
  have hwrite : (fresh .kNoCompression).writeBlock .absent repetitive
      = .ok ((fresh .kNoCompression).writeRawBlock repetitive.finish.1 .kNoCompression) := rfl
  rw [writeRawBlock_of_sound fun _ => rfl, hlen] at hwrite
  have hfile : f.contents = storedBlock repetitive.finish.1 .kNoCompression ++ [] :=
    (List.append_nil _).symm
  refine (writeBlock_readBlock_iff (fun _ => rfl) rfl rfl hwrite hfile ?_ hdel true).mpr ?_
  · rw [hstored]
    norm_num
  · rintro ⟨hopt, -⟩
    cases hopt

/-- A snappy that knows one block: what it writes for it is the literal `00 01 0b 6b 61`, a copy of
10 bytes from one byte before, and the eight bytes of the trailer. -/
def oneBlockSnappy : Snappy where
  compress input :=
    if input = repetitive.finish.1 then
      some [23, 16, 0, 1, 11, 107, 97, 25, 1, 28, 0, 0, 0, 0, 1, 0, 0, 0]
    else none
  getUncompressedLength input :=
    if input = [23, 16, 0, 1, 11, 107, 97, 25, 1, 28, 0, 0, 0, 0, 1, 0, 0, 0] then some 23
    else none
  uncompress inPlace input :=
    if inPlace = false ∧ input = [23, 16, 0, 1, 11, 107, 97, 25, 1, 28, 0, 0, 0, 0, 1, 0, 0, 0] then
      (repetitive.finish.1, true)
    else ([], false)

theorem oneBlockSnappy_roundTrips : oneBlockSnappy.RoundTrips := by
  intro input output h
  simp only [oneBlockSnappy] at h
  split at h
  · next heq =>
    cases h
    subst heq
    exact ⟨by decide, rfl⟩
  · cases h

/-- **With snappy, the same block does not come back**: it is stored in 18 bytes, and what
`ReadBlock` returns for these is a buffer that nothing has been written to. -/
theorem not_writeBlock_readBlock :
    oneBlockSnappy.RoundTrips ∧
    BlockBuilder.reset.add bytewiseComparator.compare 16 [107] (List.replicate 11 97)
      = some repetitive ∧
    ∃ r h, (fresh .kSnappyCompression).writeBlock oneBlockSnappy repetitive = .ok (r, h) ∧
      ¬ ∀ junk, ∃ c, readBlock oneBlockSnappy junk (.mmap "t" r.file.contents) true h
          = some (.success, c) ∧ c.data = repetitive.finish.1 := by
  refine ⟨oneBlockSnappy_roundTrips, rfl, ?_⟩
  obtain ⟨compressed, hcompressed⟩ : ∃ compressed : Bytes, compressed =
    [23, 16, 0, 1, 11, 107, 97, 25, 1, 28, 0, 0, 0, 0, 1, 0, 0, 0] := ⟨_, rfl⟩
  have hlen : compressed.length = 18 := by rw [hcompressed]; rfl
  have hcompress : compressBlock oneBlockSnappy .kSnappyCompression repetitive.finish.1
      = (compressed, .kSnappyCompression) := by
    rw [hcompressed]
    decide
  have hwrite : (fresh .kSnappyCompression).writeBlock oneBlockSnappy repetitive
      = .ok ((fresh .kSnappyCompression).writeRawBlock compressed .kSnappyCompression) := by
    rw [writeBlock_of_ok rfl]
    change Except.ok ((fresh .kSnappyCompression).writeRawBlock
      (compressBlock oneBlockSnappy .kSnappyCompression repetitive.finish.1).1
      (compressBlock oneBlockSnappy .kSnappyCompression repetitive.finish.1).2) = _
    rw [hcompress]
  rw [writeRawBlock_of_sound fun _ => rfl] at hwrite
  refine ⟨_, _, hwrite, fun hread => ?_⟩
  -- memory full of ones, where the block starts with a zero
  obtain ⟨c, hc, hdata⟩ := hread fun _ => 1
  have hstored : (storedBlock compressed .kSnappyCompression).length = compressed.length + 5 :=
    length_storedBlock _ _
  have hdel := delivers_mmap (storedBlock compressed .kSnappyCompression)
  rw [hstored] at hdel
  have hfile : (RandomAccessFile.mmap "t" (storedBlock compressed .kSnappyCompression)).contents
      = [] ++ (storedBlock compressed .kSnappyCompression ++ []) := (List.append_nil _).symm
  have hsmall : (storedBlock compressed .kSnappyCompression).length < 2 ^ 63 := by
    rw [hstored, hlen]
    norm_num
  obtain ⟨ulength, -, hchars⟩ := readBlock_of_stored_snappy hfile hsmall hdel hc
  have hhead := congrArg List.head? (hdata.symm.trans hchars)
  cases ulength with
  | zero => exact absurd hhead (by decide)
  | succ n =>
    rw [newChars, List.range_succ_eq_map, List.map_cons, List.head?_cons] at hhead
    exact absurd hhead (by decide)

end TableBuilder

end Squirrel
