import Squirrel.Util.Env
import Squirrel.Db.LogFormat

/-!
# The log writer

`log::Writer`, with the file it appends to. `blockOffset` is the writer's own idea of where it is in
the current block; nothing in the code keeps it in step with the file when a call on the file
fails, and neither does the model.
-/

namespace Squirrel

namespace Log

structure Writer where
  dest : WritableFile
  /-- Current offset in block. -/
  blockOffset : ℕ

namespace Writer

/-- `Writer(dest, dest_length)`. The other constructor is the one with `dest_length = 0`. -/
def new (dest : WritableFile) (destLength : ℕ) : Writer := ⟨dest, destLength % kBlockSize⟩

/-- `EmitPhysicalRecord` with any type byte. The payload is appended only if the header was, the
flush is made only if the payload was, and `blockOffset` moves in every case. -/
def emitRaw (w : Writer) (b : UInt8) (payload : Bytes) : Status × Writer :=
  let blockOffset := w.blockOffset + kHeaderSize + payload.length
  let (s, dest) := w.dest.append (rawHeader b payload)
  if s.ok then
    let (s, dest) := dest.append payload
    if s.ok then
      let (s, dest) := dest.flush
      (s, ⟨dest, blockOffset⟩)
    else (s, ⟨dest, blockOffset⟩)
  else (s, ⟨dest, blockOffset⟩)

/-- `EmitPhysicalRecord`. -/
def emitPhysicalRecord (w : Writer) (t : RecordType) (payload : Bytes) : Status × Writer :=
  w.emitRaw t.byte payload

/-- The start of a round of `AddRecord`: with less than a header left in the block, fill the trailer
and switch to a new block. The status of the trailer's `Append` is dropped. -/
def switchBlock (w : Writer) : Writer :=
  let leftover := kBlockSize - w.blockOffset
  if leftover < kHeaderSize then
    if 0 < leftover then
      ⟨(w.dest.append (List.replicate leftover 0)).2, 0⟩
    else ⟨w.dest, 0⟩
  else w

/-- The type of a fragment, from whether it begins and whether it ends its record. -/
def fragmentType : Bool → Bool → RecordType
  | true, true => .kFullType
  | true, false => .kFirstType
  | false, true => .kLastType
  | false, false => .kMiddleType

theorem blockOffset_emitPhysicalRecord (w : Writer) (t : RecordType) (payload : Bytes) :
    (w.emitPhysicalRecord t payload).2.blockOffset
      = w.blockOffset + kHeaderSize + payload.length := by
  simp only [emitPhysicalRecord, emitRaw]
  split
  · split <;> rfl
  · rfl

theorem blockOffset_switchBlock (w : Writer) :
    w.switchBlock.blockOffset
      = if kBlockSize - w.blockOffset < kHeaderSize then 0 else w.blockOffset := by
  simp only [switchBlock]
  split
  · split <;> rfl
  · rfl

/-- The loop's invariant: we never leave less than a header in a block. -/
theorem blockOffset_switchBlock_le (w : Writer) :
    w.switchBlock.blockOffset + kHeaderSize ≤ kBlockSize := by
  rw [blockOffset_switchBlock]
  split
  · decide
  · next h => simp only [kBlockSize, kHeaderSize] at *; omega

theorem blockOffset_switchBlock_of_eq {w : Writer} (h : w.blockOffset = kBlockSize) :
    w.switchBlock.blockOffset = 0 := by
  rw [blockOffset_switchBlock, h, if_pos (by decide)]

/-- The loop of `AddRecord`, at the bytes `left` of the record not written yet. -/
def addRecordLoop (w : Writer) (left : Bytes) (begin : Bool) : Status × Writer :=
  let w' := w.switchBlock
  let avail := kBlockSize - w'.blockOffset - kHeaderSize
  let fragmentLength := min left.length avail
  let atEnd := decide (left.length = fragmentLength)
  let r := w'.emitPhysicalRecord (fragmentType begin atEnd) (left.take fragmentLength)
  if r.1.ok ∧ 0 < (left.drop fragmentLength).length then
    addRecordLoop r.2 (left.drop fragmentLength) false
  else r
-- An empty fragment is emitted only when exactly a header fits in the block, and not twice in a
-- row.
termination_by
  (left.length, if w.switchBlock.blockOffset + kHeaderSize = kBlockSize then 1 else 0)
decreasing_by
  rename_i h
  change Prod.Lex _ _ ((left.drop fragmentLength).length, _) _
  have hpos := h.2
  have hle := blockOffset_switchBlock_le w
  rw [List.length_drop] at hpos
  by_cases hf : fragmentLength = 0
  · have hfit : w.switchBlock.blockOffset + kHeaderSize = kBlockSize := by
      simp only [fragmentLength, avail, w'] at hf hpos
      omega
    have hoff : r.2.blockOffset = kBlockSize := by
      simp only [r, w', blockOffset_emitPhysicalRecord, hf, hfit, List.take_zero, List.length_nil,
        Nat.add_zero]
    rw [blockOffset_switchBlock_of_eq hoff, if_pos hfit, if_neg (by decide), hf, List.drop_zero]
    exact Prod.Lex.right _ (by decide)
  · refine Prod.Lex.left _ _ ?_
    rw [List.length_drop]
    omega

/-- `AddRecord`. The loop runs once even for an empty record. -/
def addRecord (w : Writer) (slice : Bytes) : Status × Writer := addRecordLoop w slice true

/-- One writer adding a list of records. -/
def addRecords (w : Writer) (records : List Bytes) : Writer :=
  records.foldl (fun w record => (w.addRecord record).2) w

end Writer

/-- One writer session on a file: a writer constructed with the file's length adds its records. -/
def session (dest : WritableFile) (records : List Bytes) : WritableFile :=
  ((Writer.new dest dest.contents.length).addRecords records).dest

/-- Any number of sessions on one file, each over what the previous ones left. -/
def sessions (dest : WritableFile) (cuts : List (List Bytes)) : WritableFile :=
  cuts.foldl session dest

end Log

end Squirrel
