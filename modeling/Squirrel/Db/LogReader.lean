import Squirrel.Util.Env
import Squirrel.Db.LogFormat

/-!
# The log reader

`log::Reader`, with the file it reads and the calls it has made on its reporter. A slice into the
backing store is the bytes it spans. Offsets are natural numbers; the unsigned subtractions that the
code does not guard go through `sub64`, which wraps, and so does the sum that rounds the initial
offset up to a block.

The loops of the source are recursive here, and the proofs that they stop are part of the
definitions. Both rest on `remaining`, the bytes the reader has yet to look at: a physical record
read for anything but end-of-file uses some of them up.

## Main definitions

* `Reader.readPhysicalRecord` — the next physical record, or one of the codes `kEof`, `kBadRecord`
* `Reader.readRecord` — the next logical record
* `Reader.readAll` — all calls of `ReadRecord` up to the first that returns false
-/

namespace Squirrel

namespace Log

open Coding

/-- `kEof`, beyond the record types. -/
def kEof : ℕ := kMaxRecordType + 1

/-- `kBadRecord`, beyond the record types. -/
def kBadRecord : ℕ := kMaxRecordType + 2

/-- Subtraction in `uint64_t`. -/
def sub64 (a b : ℕ) : ℕ := if b ≤ a then a - b else 2 ^ 64 + a - b

theorem sub64_of_le {a b : ℕ} (h : b ≤ a) : sub64 a b = a - b := by rw [sub64, if_pos h]

/-- A `char` converted to `unsigned int`: sign-extended, then taken modulo `2 ^ 32`. -/
def charToUnsigned (c : UInt8) : ℕ := if c.toNat < 128 then c.toNat else 2 ^ 32 - 256 + c.toNat

structure Reader where
  file : SequentialFile
  /-- Whether a reporter was given. -/
  reporter : Bool
  checksum : Bool
  buffer : Bytes
  /-- The last `Read` returned fewer than `kBlockSize` bytes. -/
  eof : Bool
  /-- Offset of the last record returned by `ReadRecord`. -/
  lastRecordOffset : ℕ
  /-- Offset of the first location past the end of `buffer`. -/
  endOfBufferOffset : ℕ
  initialOffset : ℕ
  /-- Resynchronising after a seek: a run of middle and last records is skipped silently. -/
  resyncing : Bool
  /-- The calls of `Reporter::Corruption` so far. -/
  reports : List (ℕ × Status)

namespace Reader

def new (file : SequentialFile) (reporter checksum : Bool) (initialOffset : ℕ) : Reader where
  file := file
  reporter := reporter
  checksum := checksum
  buffer := []
  eof := false
  lastRecordOffset := 0
  endOfBufferOffset := 0
  initialOffset := initialOffset
  resyncing := decide (0 < initialOffset)
  reports := []

def reportDrop (r : Reader) (bytes : ℕ) (reason : Status) : Reader :=
  if r.reporter ∧ r.initialOffset ≤ sub64 (sub64 r.endOfBufferOffset r.buffer.length) bytes then
    { r with reports := r.reports ++ [(bytes, reason)] }
  else r

def reportCorruption (r : Reader) (bytes : ℕ) (reason : String) : Reader :=
  r.reportDrop bytes (Status.corruption reason)

/-- `SkipToInitialBlock`. -/
def skipToInitialBlock (r : Reader) : Bool × Reader :=
  let offsetInBlock := r.initialOffset % kBlockSize
  let blockStartLocation := r.initialOffset - offsetInBlock
  -- Do not search a block if we would be in the trailer.
  let blockStartLocation :=
    if kBlockSize - 6 < offsetInBlock then (blockStartLocation + kBlockSize) % 2 ^ 64
    else blockStartLocation
  let r := { r with endOfBufferOffset := blockStartLocation }
  if 0 < blockStartLocation then
    let (s, file) := r.file.skip blockStartLocation
    let r := { r with file := file }
    if s.ok then (true, r) else (false, r.reportDrop blockStartLocation s)
  else (true, r)

/-! ### Physical records -/

/-- The part of `ReadPhysicalRecord` behind the refill: a header is in the buffer. `result` is the
fragment the caller passed in, returned unchanged where the code does not assign it. -/
def parseRecord (r : Reader) (result : Bytes) : ℕ × Bytes × Reader :=
  let length := byteAt r.buffer 4 ||| (byteAt r.buffer 5 <<< 8)
  let type := charToUnsigned (r.buffer.getD 6 0)
  if r.buffer.length < kHeaderSize + length then
    let dropSize := r.buffer.length
    let r' := { r with buffer := [] }
    -- At the end of the file the writer is assumed to have died in the middle of the record.
    if r.eof then (kEof, result, r')
    else (kBadRecord, result, r'.reportCorruption dropSize "bad record length")
  else if type = 0 ∧ length = 0 then
    -- Preallocated file regions read as such records; no drop is reported.
    (kBadRecord, result, { r with buffer := [] })
  else if r.checksum ∧ Crc32c.value ((r.buffer.drop 6).take (1 + length))
      ≠ Crc32c.unmask (BitVec.ofNat 32 (decodeFixed32 r.buffer)) then
    -- The length itself may be corrupt, so the rest of the buffer goes.
    let dropSize := r.buffer.length
    (kBadRecord, result, { r with buffer := [] }.reportCorruption dropSize "checksum mismatch")
  else
    let r' := { r with buffer := r.buffer.drop (kHeaderSize + length) }
    if sub64 (sub64 (sub64 r'.endOfBufferOffset r'.buffer.length) kHeaderSize) length
        < r'.initialOffset then
      (kBadRecord, [], r')
    else (type, (r.buffer.drop kHeaderSize).take length, r')

/-- `ReadPhysicalRecord`. -/
def readPhysicalRecord (r : Reader) (result : Bytes) : ℕ × Bytes × Reader :=
  if r.buffer.length < kHeaderSize then
    if r.eof then
      -- A truncated header at the end of the file is not an error.
      (kEof, result, { r with buffer := [] })
    else
      match h : r.file.read kBlockSize with
      | (s, buffer, file) =>
        let r' := { r with
          file := file
          buffer := buffer
          endOfBufferOffset := r.endOfBufferOffset + buffer.length }
        if ¬ s.ok then
          (kEof, result,
            { ({ r' with buffer := [] }.reportDrop kBlockSize s) with eof := true })
        else if buffer.length < kBlockSize then
          readPhysicalRecord { r' with eof := true } result
        else readPhysicalRecord r' result
  else r.parseRecord result
termination_by r.file.contents.length + if r.eof then 0 else 1
decreasing_by
  all_goals
    have hlen := SequentialFile.length_add_length_of_read h
    simp_all only [kBlockSize, Bool.false_eq_true, if_true, if_false]
    omega

/-- The bytes the reader has yet to look at, and the discovery of the end of the file. -/
def remaining (r : Reader) : ℕ :=
  r.file.contents.length + r.buffer.length + if r.eof then 0 else 1

@[simp] theorem remaining_reportDrop (r : Reader) (bytes : ℕ) (reason : Status) :
    (r.reportDrop bytes reason).remaining = r.remaining := by
  rw [reportDrop]
  split <;> rfl

@[simp] theorem remaining_reportCorruption (r : Reader) (bytes : ℕ) (reason : String) :
    (r.reportCorruption bytes reason).remaining = r.remaining :=
  remaining_reportDrop _ _ _

/-- Parsing a header uses it up, whatever comes of it. -/
theorem remaining_parseRecord {r : Reader} (h : kHeaderSize ≤ r.buffer.length) (result : Bytes) :
    (r.parseRecord result).2.2.remaining < r.remaining := by
  have hpos : 0 < kHeaderSize := by decide
  simp only [parseRecord]
  split_ifs <;> (try rw [remaining_reportCorruption]) <;>
    simp only [remaining, List.length_drop, List.length_nil] <;> omega

/-- **Progress.** A call that does not say end-of-file has used something up. -/
theorem remaining_readPhysicalRecord (r : Reader) (result : Bytes)
    (h : (r.readPhysicalRecord result).1 ≠ kEof) :
    (r.readPhysicalRecord result).2.2.remaining < r.remaining := by
  fun_induction readPhysicalRecord r result with
  | case1 => exact absurd rfl h
  | case2 => exact absurd rfl h
  | case3 r hbuf heof s buffer file hread r' hs hshort ih =>
    have hlen := SequentialFile.length_add_length_of_read hread
    refine lt_of_lt_of_le (ih h) ?_
    simp only [remaining, r', heof]
    simp
    omega
  | case4 r hbuf heof s buffer file hread r' hs hfull ih =>
    have hlen := SequentialFile.length_add_length_of_read hread
    refine lt_of_lt_of_le (ih h) ?_
    simp only [remaining, r', heof]
    omega
  | case5 r hbuf => exact remaining_parseRecord (Nat.not_lt.mp hbuf) result

/-! ### Logical records -/

/-- What `ReadRecord` keeps between physical records: the record assembled so far, whether there is
one, and the offset it started at. -/
structure Assembly where
  scratch : Bytes
  inFragmentedRecord : Bool
  prospectiveRecordOffset : ℕ

/-- The state of `ReadRecord` before its first physical record. -/
def Assembly.start : Assembly := ⟨[], false, 0⟩

/-- The outcome of one round of the loop of `ReadRecord`: a result, or another round. -/
inductive Round
  | done (record : Option Bytes) (r : Reader)
  | more (asm : Assembly) (r : Reader)

/-- A kept fragment that no last fragment follows. An empty one is forgiven: an earlier version of
the writer could leave one at the tail end of a block. -/
def abandonPartial (r : Reader) (asm : Assembly) (reason : String) : Reader :=
  if asm.inFragmentedRecord ∧ ¬ asm.scratch.isEmpty then
    r.reportCorruption asm.scratch.length reason
  else r

/-- The `switch` of `ReadRecord`. -/
def dispatch (r : Reader) (asm : Assembly) (recordType : ℕ) (fragment : Bytes)
    (physicalRecordOffset : ℕ) : Round :=
  if recordType = RecordType.kFullType.toNat then
    let r := r.abandonPartial asm "partial record without end(1)"
    .done (some fragment) { r with lastRecordOffset := physicalRecordOffset }
  else if recordType = RecordType.kFirstType.toNat then
    let r := r.abandonPartial asm "partial record without end(2)"
    .more ⟨fragment, true, physicalRecordOffset⟩ r
  else if recordType = RecordType.kMiddleType.toNat then
    if asm.inFragmentedRecord then
      .more { asm with scratch := asm.scratch ++ fragment } r
    else
      .more asm (r.reportCorruption fragment.length "missing start of fragmented record(1)")
  else if recordType = RecordType.kLastType.toNat then
    if asm.inFragmentedRecord then
      .done (some (asm.scratch ++ fragment))
        { r with lastRecordOffset := asm.prospectiveRecordOffset }
    else
      .more asm (r.reportCorruption fragment.length "missing start of fragmented record(2)")
  else if recordType = kEof then
    -- The writer may have died between two fragments; the record is ignored.
    .done none r
  else if recordType = kBadRecord then
    if asm.inFragmentedRecord then
      .more { asm with scratch := [], inFragmentedRecord := false }
        (r.reportCorruption asm.scratch.length "error in middle of record")
    else .more asm r
  else
    .more { asm with scratch := [], inFragmentedRecord := false }
      (r.reportCorruption
        (fragment.length + if asm.inFragmentedRecord then asm.scratch.length else 0)
        s!"unknown record type {recordType}")

/-- One round of the loop of `ReadRecord` behind the physical read: the resynchronisation test, then
the `switch`. -/
def round (r : Reader) (asm : Assembly) (recordType : ℕ) (fragment : Bytes) : Round :=
  let physicalRecordOffset := sub64 (sub64 (sub64 r.endOfBufferOffset r.buffer.length) kHeaderSize)
    fragment.length
  if r.resyncing then
    if recordType = RecordType.kMiddleType.toNat then .more asm r
    else if recordType = RecordType.kLastType.toNat then .more asm { r with resyncing := false }
    else { r with resyncing := false }.dispatch asm recordType fragment physicalRecordOffset
  else r.dispatch asm recordType fragment physicalRecordOffset

@[simp] theorem remaining_abandonPartial (r : Reader) (asm : Assembly) (reason : String) :
    (r.abandonPartial asm reason).remaining = r.remaining := by
  rw [abandonPartial]
  split <;> simp

theorem remaining_dispatch_more {r r' : Reader} {asm asm' : Assembly} {t offset : ℕ}
    {fragment : Bytes} (h : r.dispatch asm t fragment offset = .more asm' r') :
    t ≠ kEof ∧ r'.remaining = r.remaining := by
  simp only [dispatch] at h
  split_ifs at h <;> simp only [Round.more.injEq] at h <;> obtain ⟨-, rfl⟩ := h <;>
    simp_all [RecordType.toNat, kEof, kMaxRecordType, kBadRecord]

/-- Another round is only asked for after something other than end-of-file, and looks at the same
bytes. -/
theorem remaining_round_more {r r' : Reader} {asm asm' : Assembly} {t : ℕ} {fragment : Bytes}
    (h : r.round asm t fragment = .more asm' r') : t ≠ kEof ∧ r'.remaining = r.remaining := by
  simp only [round] at h
  split_ifs at h with _ hm hl
  · obtain ⟨-, rfl⟩ := Round.more.inj h
    exact ⟨by rw [hm]; decide, rfl⟩
  · obtain ⟨-, rfl⟩ := Round.more.inj h
    exact ⟨by rw [hl]; decide, rfl⟩
  · have hmore := remaining_dispatch_more h
    exact hmore
  · exact remaining_dispatch_more h

theorem remaining_dispatch_done {r r' : Reader} {asm : Assembly} {t offset : ℕ}
    {fragment record : Bytes} (h : r.dispatch asm t fragment offset = .done (some record) r') :
    t ≠ kEof ∧ r'.remaining = r.remaining := by
  simp only [dispatch] at h
  split_ifs at h with hf _ _ _ hl <;> cases h
  · exact ⟨by rw [hf]; decide, remaining_abandonPartial _ _ _⟩
  · exact ⟨by rw [hl]; decide, rfl⟩

theorem remaining_round_done {r r' : Reader} {asm : Assembly} {t : ℕ} {fragment record : Bytes}
    (h : r.round asm t fragment = .done (some record) r') :
    t ≠ kEof ∧ r'.remaining = r.remaining := by
  simp only [round] at h
  split_ifs at h
  · have hdone := remaining_dispatch_done h
    exact hdone
  · exact remaining_dispatch_done h

/-- The loop of `ReadRecord`. -/
def readLoop (r : Reader) (asm : Assembly) (fragment : Bytes) : Option Bytes × Reader :=
  match _h : (r.readPhysicalRecord fragment).2.2.round asm (r.readPhysicalRecord fragment).1
      (r.readPhysicalRecord fragment).2.1 with
  | .done record r' => (record, r')
  | .more asm' r' => readLoop r' asm' (r.readPhysicalRecord fragment).2.1
termination_by r.remaining
decreasing_by
  obtain ⟨hne, heq⟩ := remaining_round_more _h
  rw [heq]
  exact remaining_readPhysicalRecord r fragment hne

section Loop

variable {r r₁ r₂ : Reader} {asm asm' : Assembly} {fragment fragment' : Bytes} {t : ℕ}

theorem readLoop_done {record : Option Bytes}
    (hphys : r.readPhysicalRecord fragment = (t, fragment', r₁))
    (hround : r₁.round asm t fragment' = .done record r₂) :
    r.readLoop asm fragment = (record, r₂) := by
  rw [readLoop]
  split
  · next h => rw [hphys, hround] at h; cases h; rfl
  · next h => rw [hphys, hround] at h; cases h

theorem readLoop_more (hphys : r.readPhysicalRecord fragment = (t, fragment', r₁))
    (hround : r₁.round asm t fragment' = .more asm' r₂) :
    r.readLoop asm fragment = r₂.readLoop asm' fragment' := by
  rw [readLoop]
  split
  · next h => rw [hphys, hround] at h; cases h
  · next h => rw [hphys, hround] at h; cases h; rw [hphys]

end Loop

/-- `ReadRecord`: the record on `true`, `none` on `false`. -/
def readRecord (r : Reader) : Option Bytes × Reader :=
  if r.lastRecordOffset < r.initialOffset then
    let (ok, r) := r.skipToInitialBlock
    if ok then r.readLoop .start [] else (none, r)
  else r.readLoop .start []

theorem remaining_skipToInitialBlock (r : Reader) :
    r.skipToInitialBlock.2.remaining ≤ r.remaining := by
  simp only [skipToInitialBlock, SequentialFile.skip]
  -- It does not matter where the block starts.
  generalize (if kBlockSize - 6 < r.initialOffset % kBlockSize then
    (r.initialOffset - r.initialOffset % kBlockSize + kBlockSize) % 2 ^ 64
    else r.initialOffset - r.initialOffset % kBlockSize) = start
  split_ifs <;> (try rw [remaining_reportDrop]) <;> simp_all [remaining]

theorem remaining_readLoop {r r' : Reader} {asm : Assembly} {fragment record : Bytes}
    (h : r.readLoop asm fragment = (some record, r')) : r'.remaining < r.remaining := by
  fun_induction readLoop r asm fragment with
  | case1 r asm fragment record' r₂ hround =>
    cases h
    obtain ⟨hne, heq⟩ := remaining_round_done hround
    rw [heq]
    exact remaining_readPhysicalRecord r fragment hne
  | case2 r asm fragment asm₂ r₂ hround ih =>
    obtain ⟨hne, heq⟩ := remaining_round_more hround
    have hlt := remaining_readPhysicalRecord r fragment hne
    exact lt_trans (lt_of_lt_of_eq (ih h) heq) hlt

theorem remaining_readRecord {r r' : Reader} {record : Bytes}
    (h : r.readRecord = (some record, r')) : r'.remaining < r.remaining := by
  simp only [readRecord] at h
  split_ifs at h
  · exact lt_of_lt_of_le (remaining_readLoop h) (remaining_skipToInitialBlock r)
  · exact absurd (congrArg Prod.fst h) (by simp)
  · exact remaining_readLoop h

/-- Calls of `ReadRecord` up to the first that returns false: each record with the value of
`LastRecordOffset()` after it, and the reader at the end. -/
def readAll (r : Reader) : List (Bytes × ℕ) × Reader :=
  match _h : r.readRecord with
  | (none, r') => ([], r')
  | (some record, r') => ((record, r'.lastRecordOffset) :: (readAll r').1, (readAll r').2)
termination_by r.remaining
decreasing_by all_goals exact remaining_readRecord _h

theorem readAll_of_none {r r' : Reader} (h : r.readRecord = (none, r')) : r.readAll = ([], r') := by
  rw [readAll]
  split <;> simp_all

theorem readAll_of_some {r r' : Reader} {record : Bytes} (h : r.readRecord = (some record, r')) :
    r.readAll = ((record, r'.lastRecordOffset) :: r'.readAll.1, r'.readAll.2) := by
  rw [readAll]
  split
  · next h' => rw [h] at h'; cases h'
  · next h' => rw [h] at h'; cases h'; rfl

end Reader

end Log

end Squirrel
