import Squirrel.Db.LogReader
import Mathlib.Algebra.Order.BigOperators.Group.List

/-!
# What the reader charges for

Every byte that the reader passes is charged at most once: as part of a record that it returns, or
in a call of `ReportDrop`. Drops are reported for different things, the rest of a buffer, a
fragment, the record assembled so far, and a fragment together with that record, so the account that
carries the proof has to say who owns which bytes in between: what is under assembly is paid for by
bytes that have been passed and not charged yet (`held`).

`ReportDrop` subtracts twice without a test. Its calls do not all show in what the reporter is told,
so the second half of the functions of this file lists them, each with its operands.
`reports_readAll` ties the lists to the reader: what it has reported are the calls that passed the
test.

## Main definitions

* `Drop`, `readAllDrops` — the calls of `ReportDrop` with the operands of their subtractions
* `Reader.Intact` — a reader from offset zero on of a file that does not fail

## Main results

* `reports_readAll` — the reports are the calls that pass the test of `ReportDrop`
* `readAll_accounting` — bytes charged and bytes returned are bytes of the file, and no subtraction
  wraps
-/

namespace Squirrel

namespace Log

open Coding

/-- A call of `ReportDrop` that gets to its subtractions, with their operands. -/
structure Drop where
  endOfBufferOffset : ℕ
  bufferSize : ℕ
  bytes : ℕ
  reason : Status

namespace Drop

/-- Neither subtraction of `end_of_buffer_offset_ - buffer_.size() - bytes` wraps. -/
def Fits (d : Drop) : Prop :=
  d.bufferSize ≤ d.endOfBufferOffset ∧ d.bytes ≤ d.endOfBufferOffset - d.bufferSize

/-- What the reporter is told of some calls. -/
def told (initialOffset : ℕ) (drops : List Drop) : List (ℕ × Status) :=
  (drops.filter fun d =>
    initialOffset ≤ sub64 (sub64 d.endOfBufferOffset d.bufferSize) d.bytes).map fun d =>
      (d.bytes, d.reason)

/-- The bytes that some calls charge. -/
def charge (drops : List Drop) : ℕ := (drops.map Drop.bytes).sum

variable (initialOffset : ℕ) (drops drops' : List Drop)

@[simp] theorem told_nil : told initialOffset [] = [] := rfl

@[simp] theorem told_append :
    told initialOffset (drops ++ drops') = told initialOffset drops
      ++ told initialOffset drops' := by
  simp [told]

@[simp] theorem charge_nil : charge [] = 0 := rfl

@[simp] theorem charge_append : charge (drops ++ drops') = charge drops + charge drops' := by
  simp [charge]

/-- The reporter is told of no more than is charged. -/
theorem sum_told_le : ((told initialOffset drops).map Prod.fst).sum ≤ charge drops := by
  rw [told, List.map_map, charge]
  exact (List.filter_sublist.map _).sum_le_sum fun _ _ => Nat.zero_le _

end Drop

namespace Reader

/-! ### The calls of `ReportDrop` -/

/-- `ReportDrop`; without a reporter it subtracts nothing. -/
def dropCall (r : Reader) (bytes : ℕ) (reason : Status) : List Drop :=
  if r.reporter then [⟨r.endOfBufferOffset, r.buffer.length, bytes, reason⟩] else []

/-- The call in `SkipToInitialBlock`. -/
def skipDrops (r : Reader) : List Drop :=
  let offsetInBlock := r.initialOffset % kBlockSize
  let blockStartLocation := r.initialOffset - offsetInBlock
  let blockStartLocation :=
    if kBlockSize - 6 < offsetInBlock then (blockStartLocation + kBlockSize) % 2 ^ 64
    else blockStartLocation
  let r := { r with endOfBufferOffset := blockStartLocation }
  if 0 < blockStartLocation then
    let (s, _) := r.file.skip blockStartLocation
    if s.ok then [] else r.dropCall blockStartLocation s
  else []

/-- The calls in `parseRecord`. -/
def parseDrops (r : Reader) : List Drop :=
  let length := byteAt r.buffer 4 ||| (byteAt r.buffer 5 <<< 8)
  let type := charToUnsigned (r.buffer.getD 6 0)
  let dropSize := r.buffer.length
  let r' := { r with buffer := [] }
  if r.buffer.length < kHeaderSize + length then
    if r.eof then [] else r'.dropCall dropSize (.corruption "bad record length")
  else if type = 0 ∧ length = 0 then []
  else if r.checksum ∧ Crc32c.value ((r.buffer.drop 6).take (1 + length))
      ≠ Crc32c.unmask (BitVec.ofNat 32 (decodeFixed32 r.buffer)) then
    r'.dropCall dropSize (.corruption "checksum mismatch")
  else []

/-- The calls in `ReadPhysicalRecord`. -/
def physicalDrops (r : Reader) : List Drop :=
  if r.buffer.length < kHeaderSize then
    if r.eof then []
    else
      match _h : r.file.read kBlockSize with
      | (s, buffer, file) =>
        let r' := { r with
          file := file
          buffer := buffer
          endOfBufferOffset := r.endOfBufferOffset + buffer.length }
        if ¬ s.ok then { r' with buffer := [] }.dropCall kBlockSize s
        else if buffer.length < kBlockSize then physicalDrops { r' with eof := true }
        else physicalDrops r'
  else r.parseDrops
termination_by r.file.contents.length + if r.eof then 0 else 1
decreasing_by
  all_goals
    have hlen := SequentialFile.length_add_length_of_read _h
    simp_all only [kBlockSize, Bool.false_eq_true, if_true, if_false]
    omega

/-- The call in `abandonPartial`. -/
def abandonDrops (r : Reader) (asm : Assembly) (reason : String) : List Drop :=
  if asm.inFragmentedRecord ∧ ¬ asm.scratch.isEmpty then
    r.dropCall asm.scratch.length (.corruption reason)
  else []

/-- The calls in the `switch`. -/
def dispatchDrops (r : Reader) (asm : Assembly) (recordType : ℕ) (fragment : Bytes) : List Drop :=
  if recordType = RecordType.kFullType.toNat then
    r.abandonDrops asm "partial record without end(1)"
  else if recordType = RecordType.kFirstType.toNat then
    r.abandonDrops asm "partial record without end(2)"
  else if recordType = RecordType.kMiddleType.toNat then
    if asm.inFragmentedRecord then []
    else r.dropCall fragment.length (.corruption "missing start of fragmented record(1)")
  else if recordType = RecordType.kLastType.toNat then
    if asm.inFragmentedRecord then []
    else r.dropCall fragment.length (.corruption "missing start of fragmented record(2)")
  else if recordType = kEof then []
  else if recordType = kBadRecord then
    if asm.inFragmentedRecord then
      r.dropCall asm.scratch.length (.corruption "error in middle of record")
    else []
  else
    r.dropCall (fragment.length + if asm.inFragmentedRecord then asm.scratch.length else 0)
      (.corruption s!"unknown record type {recordType}")

/-- The calls in a round: none while the reader skips silently. -/
def roundDrops (r : Reader) (asm : Assembly) (recordType : ℕ) (fragment : Bytes) : List Drop :=
  if r.resyncing then
    if recordType = RecordType.kMiddleType.toNat then []
    else if recordType = RecordType.kLastType.toNat then []
    else { r with resyncing := false }.dispatchDrops asm recordType fragment
  else r.dispatchDrops asm recordType fragment

/-- The calls in the loop of `ReadRecord`. -/
def readLoopDrops (r : Reader) (asm : Assembly) (fragment : Bytes) : List Drop :=
  match _h : (r.readPhysicalRecord fragment).2.2.round asm (r.readPhysicalRecord fragment).1
      (r.readPhysicalRecord fragment).2.1 with
  | .done _ _ => r.physicalDrops ++ (r.readPhysicalRecord fragment).2.2.roundDrops asm
      (r.readPhysicalRecord fragment).1 (r.readPhysicalRecord fragment).2.1
  | .more asm' r' => r.physicalDrops ++ (r.readPhysicalRecord fragment).2.2.roundDrops asm
      (r.readPhysicalRecord fragment).1 (r.readPhysicalRecord fragment).2.1
      ++ readLoopDrops r' asm' (r.readPhysicalRecord fragment).2.1
termination_by r.remaining
decreasing_by
  obtain ⟨hne, heq⟩ := remaining_round_more _h
  rw [heq]
  exact remaining_readPhysicalRecord r fragment hne

/-- The calls in `ReadRecord`. -/
def readRecordDrops (r : Reader) : List Drop :=
  if r.lastRecordOffset < r.initialOffset then
    let (ok, r') := r.skipToInitialBlock
    r.skipDrops ++ if ok then r'.readLoopDrops .start [] else []
  else r.readLoopDrops .start []

/-- The calls in all calls of `ReadRecord` up to the first that returns false. -/
def readAllDrops (r : Reader) : List Drop :=
  match _h : r.readRecord with
  | (none, _) => r.readRecordDrops
  | (some _, r') => r.readRecordDrops ++ readAllDrops r'
termination_by r.remaining
decreasing_by exact remaining_readRecord _h

/-! ### The calls and the reports -/

variable {r r' : Reader} {asm : Assembly} {result fragment : Bytes} {t offset : ℕ}

/-- From `r` to `r'`, the reports that have been added are some calls that passed the test. -/
def Tells (drops : List Drop) (r r' : Reader) : Prop :=
  r'.initialOffset = r.initialOffset ∧ r'.reports = r.reports ++ Drop.told r.initialOffset drops

theorem Tells.nil (hoffset : r'.initialOffset = r.initialOffset)
    (hreports : r'.reports = r.reports) :
    Tells [] r r' :=
  ⟨hoffset, by rw [Drop.told_nil, List.append_nil, hreports]⟩

theorem Tells.trans {drops drops' : List Drop} {r'' : Reader} (h : Tells drops r r')
    (h' : Tells drops' r' r'') : Tells (drops ++ drops') r r'' := by
  refine ⟨h'.1.trans h.1, ?_⟩
  rw [h'.2, h.2, h.1, Drop.told_append, List.append_assoc]

theorem tells_reportDrop (r : Reader) (bytes : ℕ) (reason : Status) :
    Tells (r.dropCall bytes reason) r (r.reportDrop bytes reason) := by
  rw [dropCall, reportDrop]
  by_cases hr : r.reporter = true
  · rw [if_pos hr]
    by_cases hpass : r.initialOffset ≤ sub64 (sub64 r.endOfBufferOffset r.buffer.length) bytes
    · rw [if_pos ⟨hr, hpass⟩]
      exact ⟨rfl, by simp [Drop.told, hpass]⟩
    · rw [if_neg fun h => hpass h.2]
      exact ⟨rfl, by simp [Drop.told, hpass]⟩
  · rw [if_neg hr, if_neg fun h => hr h.1]
    exact .nil rfl rfl

theorem tells_reportCorruption (r : Reader) (bytes : ℕ) (reason : String) :
    Tells (r.dropCall bytes (.corruption reason)) r (r.reportCorruption bytes reason) :=
  tells_reportDrop r bytes _

theorem tells_parseRecord (r : Reader) (result : Bytes) :
    Tells r.parseDrops r (r.parseRecord result).2.2 := by
  have hdrop : ∀ reason : String, Tells ({ r with buffer := [] }.dropCall r.buffer.length
      (.corruption reason)) r ({ r with buffer := [] }.reportCorruption r.buffer.length reason) :=
    fun reason => tells_reportCorruption { r with buffer := [] } _ reason
  simp only [parseDrops, parseRecord]
  split_ifs
  · exact .nil rfl rfl
  · exact hdrop _
  · exact .nil rfl rfl
  · exact hdrop _
  · exact .nil rfl rfl
  · exact .nil rfl rfl

theorem tells_readPhysicalRecord (r : Reader) (result : Bytes) :
    Tells r.physicalDrops r (r.readPhysicalRecord result).2.2 := by
  fun_induction readPhysicalRecord r result with
  | case1 r hbuf heof =>
    rw [physicalDrops, if_pos hbuf, if_pos heof]
    exact .nil rfl rfl
  | case2 r hbuf heof s buffer file hread r' hs =>
    rw [physicalDrops, if_pos hbuf, if_neg heof, hread]
    simp only [hs]
    have htells := tells_reportDrop { r' with buffer := [] } kBlockSize s
    exact htells
  | case3 r hbuf heof s buffer file hread r' hs hshort ih =>
    rw [physicalDrops, if_pos hbuf, if_neg heof, hread]
    simp only [hs, hshort, if_true]
    exact ih
  | case4 r hbuf heof s buffer file hread r' hs hfull ih =>
    rw [physicalDrops, if_pos hbuf, if_neg heof, hread]
    simp only [hs, hfull]
    exact ih
  | case5 r hbuf =>
    rw [physicalDrops, if_neg hbuf]
    exact tells_parseRecord r _

theorem tells_abandonPartial (r : Reader) (asm : Assembly) (reason : String) :
    Tells (r.abandonDrops asm reason) r (r.abandonPartial asm reason) := by
  rw [abandonDrops, abandonPartial]
  split
  · exact tells_reportCorruption r _ reason
  · exact .nil rfl rfl

/-- The reader a round ends with. -/
def Round.reader : Round → Reader
  | .done _ r => r
  | .more _ r => r

theorem tells_dispatch (r : Reader) (asm : Assembly) (t : ℕ) (fragment : Bytes) (offset : ℕ) :
    Tells (r.dispatchDrops asm t fragment) r (r.dispatch asm t fragment offset).reader := by
  simp only [dispatchDrops, dispatch]
  split_ifs
  · have htells := tells_abandonPartial r asm "partial record without end(1)"
    exact ⟨htells.1, htells.2⟩
  · exact tells_abandonPartial r asm _
  · exact .nil rfl rfl
  · exact tells_reportCorruption r _ _
  · exact .nil rfl rfl
  · exact tells_reportCorruption r _ _
  · exact .nil rfl rfl
  · exact tells_reportCorruption r _ _
  · exact .nil rfl rfl
  · exact tells_reportCorruption r _ _
  · exact tells_reportCorruption r _ _

theorem tells_round (r : Reader) (asm : Assembly) (t : ℕ) (fragment : Bytes) :
    Tells (r.roundDrops asm t fragment) r (r.round asm t fragment).reader := by
  simp only [roundDrops, round]
  split_ifs
  · exact .nil rfl rfl
  · exact .nil rfl rfl
  · have htells := tells_dispatch { r with resyncing := false } asm t fragment
    exact htells _
  · exact tells_dispatch r asm t fragment _

theorem tells_readLoop (r : Reader) (asm : Assembly) (fragment : Bytes) :
    Tells (r.readLoopDrops asm fragment) r (r.readLoop asm fragment).2 := by
  fun_induction readLoop r asm fragment with
  | case1 r asm fragment record r₂ hround =>
    rw [readLoopDrops, hround]
    have htells := tells_round (r.readPhysicalRecord fragment).2.2 asm
      (r.readPhysicalRecord fragment).1 (r.readPhysicalRecord fragment).2.1
    rw [hround] at htells
    exact (tells_readPhysicalRecord r fragment).trans htells
  | case2 r asm fragment asm₂ r₂ hround ih =>
    rw [readLoopDrops, hround]
    have htells := tells_round (r.readPhysicalRecord fragment).2.2 asm
      (r.readPhysicalRecord fragment).1 (r.readPhysicalRecord fragment).2.1
    rw [hround] at htells
    exact ((tells_readPhysicalRecord r fragment).trans htells).trans ih

theorem tells_skipToInitialBlock (r : Reader) :
    Tells r.skipDrops r r.skipToInitialBlock.2 := by
  simp only [skipDrops, skipToInitialBlock, SequentialFile.skip]
  generalize (if kBlockSize - 6 < r.initialOffset % kBlockSize then
    (r.initialOffset - r.initialOffset % kBlockSize + kBlockSize) % 2 ^ 64
    else r.initialOffset - r.initialOffset % kBlockSize) = location
  by_cases hpos : 0 < location
  · rw [if_pos hpos, if_pos hpos]
    cases (r.file.fate r.file.calls).ok with
    | true => exact .nil rfl rfl
    | false => exact tells_reportDrop { r with
        endOfBufferOffset := location, file := { r.file with calls := r.file.calls + 1 } } _ _
  · rw [if_neg hpos, if_neg hpos]
    exact .nil rfl rfl

theorem tells_readRecord (r : Reader) : Tells r.readRecordDrops r r.readRecord.2 := by
  have hskip := tells_skipToInitialBlock r
  simp only [readRecordDrops, readRecord]
  split_ifs with hbefore hok
  · exact hskip.trans (tells_readLoop _ _ _)
  · rwa [List.append_nil]
  · exact tells_readLoop r _ _

/-- **The reports are the calls that pass the test of `ReportDrop`.** -/
theorem reports_readAll (r : Reader) :
    r.readAll.2.reports = r.reports ++ Drop.told r.initialOffset r.readAllDrops := by
  suffices h : Tells r.readAllDrops r r.readAll.2 from h.2
  fun_induction readAll r with
  | case1 r r' hnone =>
    have htells := tells_readRecord r
    rw [hnone] at htells
    rwa [readAllDrops, hnone]
  | case2 r record r' hsome ih =>
    have htells := tells_readRecord r
    rw [hsome] at htells
    rw [readAllDrops, hsome]
    exact htells.trans ih

/-! ### The account -/

/-- The offset of the first byte that has not been passed. -/
def passed (r : Reader) : ℕ := r.endOfBufferOffset - r.buffer.length

/-- A reader from offset zero on of a file of `size` bytes that does not fail. -/
structure Intact (size : ℕ) (r : Reader) : Prop where
  sound : r.file.Sound
  initialOffset : r.initialOffset = 0
  resyncing : r.resyncing = false
  buffer : r.buffer.length ≤ r.endOfBufferOffset
  bytes : r.endOfBufferOffset + r.file.contents.length = size

/-- The bytes of a physical record, if there is one. -/
def payload (t : ℕ) (fragment : Bytes) : ℕ :=
  if t = kEof ∨ t = kBadRecord then 0 else fragment.length

/-- The bytes under assembly. -/
def Assembly.held (asm : Assembly) : ℕ := if asm.inFragmentedRecord then asm.scratch.length else 0

/-- The bytes of a record, if there is one. -/
def Round.recordSize : Option Bytes → ℕ
  | none => 0
  | some record => record.length

variable {size budget : ℕ}

theorem Intact.passed_le (h : Intact size r) : r.passed ≤ size := by
  have hbytes := h.bytes
  rw [passed]
  omega

theorem Intact.clear (h : Intact size r) : Intact size { r with buffer := [] } :=
  ⟨h.sound, h.initialOffset, h.resyncing, Nat.zero_le _, h.bytes⟩

/-- A call charges for what it says, and fits if that has been passed. -/
theorem Intact.reportDrop (h : Intact size r) {bytes : ℕ} (hbytes : bytes ≤ r.passed)
    (reason : Status) :
    Intact size (r.reportDrop bytes reason) ∧ (r.reportDrop bytes reason).passed = r.passed ∧
      (∀ d ∈ r.dropCall bytes reason, d.Fits) ∧ Drop.charge (r.dropCall bytes reason) ≤ bytes := by
  refine ⟨?_, ?_, ?_, ?_⟩
  · rw [Reader.reportDrop]
    split
    · exact ⟨h.sound, h.initialOffset, h.resyncing, h.buffer, h.bytes⟩
    · exact h
  · rw [Reader.reportDrop]
    split <;> rfl
  · intro d hd
    rw [dropCall] at hd
    split at hd
    · obtain rfl := List.mem_singleton.mp hd
      exact ⟨h.buffer, hbytes⟩
    · exact absurd hd List.not_mem_nil
  · rw [dropCall]
    split
    · exact (Nat.add_zero bytes).le
    · exact Nat.zero_le _

/-- What a physical read charges for and what it returns are different bytes it has passed. -/
theorem Intact.parseRecord (h : Intact size r)
    (heq : r.parseRecord result = (t, fragment, r')) :
    Intact size r' ∧ (∀ d ∈ r.parseDrops, d.Fits) ∧
      r.passed + Drop.charge r.parseDrops + payload t fragment ≤ r'.passed := by
  have hsize := h.buffer
  have hclear : ({ r with buffer := [] } : Reader).passed = r.endOfBufferOffset := rfl
  have hbad : ∀ reason : String, Intact size ({ r with buffer := [] }.reportCorruption
      r.buffer.length reason) ∧ (∀ d ∈ ({ r with buffer := [] } : Reader).dropCall r.buffer.length
        (.corruption reason), d.Fits) ∧
      r.passed + Drop.charge (({ r with buffer := [] } : Reader).dropCall r.buffer.length
        (.corruption reason)) + 0
        ≤ (({ r with buffer := [] } : Reader).reportCorruption r.buffer.length reason).passed := by
    intro reason
    obtain ⟨hintact, hpassed, hfits, hcharge⟩ :=
      h.clear.reportDrop (hclear ▸ hsize) (.corruption reason)
    refine ⟨hintact, hfits, ?_⟩
    rw [reportCorruption, hpassed, hclear, passed]
    omega
  simp only [Reader.parseRecord] at heq
  simp only [parseDrops]
  split_ifs at heq ⊢ with hlong heof hzero hcrc hinitial <;> cases heq
  · refine ⟨h.clear, by simp, ?_⟩
    simp only [payload, Drop.charge_nil, passed, List.length_nil, true_or, if_true]
    omega
  · exact hbad _
  · refine ⟨h.clear, by simp, ?_⟩
    simp only [payload, Drop.charge_nil, passed, List.length_nil, or_true, if_true]
    omega
  · exact hbad _
  · have hinit := h.initialOffset
    simp only [hinit] at hinitial
    exact absurd hinitial (Nat.not_lt_zero _)
  · refine ⟨⟨h.sound, h.initialOffset, h.resyncing, ?_, h.bytes⟩, by simp, ?_⟩
    · simp only [List.length_drop]
      omega
    · have hle : payload (charToUnsigned (r.buffer.getD 6 0)) ((r.buffer.drop kHeaderSize).take
          (byteAt r.buffer 4 ||| (byteAt r.buffer 5 <<< 8)))
          ≤ byteAt r.buffer 4 ||| (byteAt r.buffer 5 <<< 8) := by
        rw [payload]
        split
        · exact Nat.zero_le _
        · exact List.length_take_le _ _
      simp only [Drop.charge_nil, passed, List.length_drop]
      omega

theorem Intact.read (h : Intact size r) {s : Status}
    {buffer : Bytes} {file : SequentialFile} (hread : r.file.read kBlockSize = (s, buffer, file))
    (eof : Bool) :
    s = .success ∧
      Intact size { r with
        file := file
        buffer := buffer
        eof := eof
        endOfBufferOffset := r.endOfBufferOffset + buffer.length } ∧
      r.passed ≤ ({ r with
        file := file
        buffer := buffer
        eof := eof
        endOfBufferOffset := r.endOfBufferOffset + buffer.length } : Reader).passed := by
  have hlen := SequentialFile.length_add_length_of_read hread
  rw [SequentialFile.read_of_sound h.sound] at hread
  obtain ⟨rfl, -, rfl⟩ := hread
  have hbytes := h.bytes
  refine ⟨rfl, ⟨h.sound, h.initialOffset, h.resyncing, Nat.le_add_left _ _, ?_⟩, ?_⟩
  · simp only at hlen ⊢
    omega
  · simp only [passed]
    omega

/-- **One physical read**, whatever the file holds. -/
theorem Intact.readPhysicalRecord (h : Intact size r) (result : Bytes) :
    Intact size (r.readPhysicalRecord result).2.2 ∧ (∀ d ∈ r.physicalDrops, d.Fits) ∧
      r.passed + Drop.charge r.physicalDrops
        + payload (r.readPhysicalRecord result).1 (r.readPhysicalRecord result).2.1
        ≤ (r.readPhysicalRecord result).2.2.passed := by
  fun_induction Reader.readPhysicalRecord r result with
  | case1 r hbuf heof =>
    rw [physicalDrops, if_pos hbuf, if_pos heof]
    refine ⟨h.clear, by simp, ?_⟩
    simp only [payload, Drop.charge_nil, passed, List.length_nil, true_or, if_true]
    omega
  | case2 r hbuf heof s buffer file hread r' hs =>
    obtain ⟨rfl, -, -⟩ := h.read hread r.eof
    exact absurd Status.ok_success hs
  | case3 r hbuf heof s buffer file hread r' hs hshort ih =>
    obtain ⟨-, hintact, hpassed⟩ := h.read hread true
    obtain ⟨hintact', hfits, hcharge⟩ := ih hintact
    rw [physicalDrops, if_pos hbuf, if_neg heof, hread]
    simp only [hs, hshort, if_true]
    refine ⟨hintact', hfits, le_trans ?_ hcharge⟩
    exact Nat.add_le_add_right (Nat.add_le_add_right hpassed _) _
  | case4 r hbuf heof s buffer file hread r' hs hfull ih =>
    obtain ⟨-, hintact, hpassed⟩ := h.read hread r.eof
    obtain ⟨hintact', hfits, hcharge⟩ := ih hintact
    rw [physicalDrops, if_pos hbuf, if_neg heof, hread]
    simp only [hs, hfull]
    refine ⟨hintact', hfits, le_trans ?_ hcharge⟩
    exact Nat.add_le_add_right (Nat.add_le_add_right hpassed _) _
  | case5 r hbuf =>
    rw [physicalDrops, if_neg hbuf]
    exact h.parseRecord rfl

theorem Intact.abandonPartial (h : Intact size r) (hheld : asm.held ≤ r.passed) (reason : String) :
    Intact size (r.abandonPartial asm reason) ∧ (r.abandonPartial asm reason).passed = r.passed ∧
      (∀ d ∈ r.abandonDrops asm reason, d.Fits) ∧
      Drop.charge (r.abandonDrops asm reason) ≤ asm.held := by
  rw [Reader.abandonPartial, abandonDrops]
  split
  · next hin =>
    have heq : asm.held = asm.scratch.length := if_pos hin.1
    rw [heq] at hheld ⊢
    exact h.reportDrop hheld _
  · exact ⟨h, rfl, by simp, Nat.zero_le _⟩

/-- After a round with some calls, what has been passed pays for everything from before, what they
charge, and what is returned or stays under assembly. -/
def Settles (size budget : ℕ) (drops : List Drop) : Round → Prop
  | .done record r => Intact size r ∧ budget + Drop.charge drops + Round.recordSize record
    ≤ r.passed
  | .more asm r => Intact size r ∧ budget + Drop.charge drops + asm.held ≤ r.passed

/-- **One `switch`.** Each branch charges for other bytes than it returns or keeps. -/
theorem Intact.dispatch (h : Intact size r)
    (hpaid : budget + asm.held + payload t fragment ≤ r.passed) :
    (∀ d ∈ r.dispatchDrops asm t fragment, d.Fits) ∧
      Settles size budget (r.dispatchDrops asm t fragment) (r.dispatch asm t fragment offset) := by
  have hheld : asm.held ≤ r.passed := by omega
  have hfrag : t ≠ kEof → t ≠ kBadRecord → payload t fragment = fragment.length :=
    fun h₁ h₂ => if_neg fun h => h.elim h₁ h₂
  have hfold : (if asm.inFragmentedRecord = true then asm.scratch.length else 0) = asm.held := rfl
  simp only [dispatchDrops, Reader.dispatch, hfold]
  split_ifs with hfull hfirst hmiddle hin hlast hin heof hbad hin
  · obtain ⟨hintact, hpassed, hfits, hcharge⟩ :=
      h.abandonPartial hheld "partial record without end(1)"
    have := hfrag (by rw [hfull]; decide) (by rw [hfull]; decide)
    refine ⟨hfits, ⟨hintact.1, hintact.2, hintact.3, hintact.4, hintact.5⟩, ?_⟩
    show _ ≤ (r.abandonPartial asm "partial record without end(1)").passed
    rw [hpassed, Round.recordSize]
    omega
  · obtain ⟨hintact, hpassed, hfits, hcharge⟩ :=
      h.abandonPartial hheld "partial record without end(2)"
    have := hfrag (by rw [hfirst]; decide) (by rw [hfirst]; decide)
    refine ⟨hfits, hintact, ?_⟩
    have hnew : Assembly.held ⟨fragment, true, offset⟩ = fragment.length := if_pos rfl
    rw [hpassed, hnew]
    omega
  · have := hfrag (by rw [hmiddle]; decide) (by rw [hmiddle]; decide)
    refine ⟨by simp, h, ?_⟩
    rw [Assembly.held, if_pos hin] at hpaid ⊢
    rw [Drop.charge_nil, List.length_append]
    omega
  · have hone : fragment.length ≤ r.passed := by
      rw [← hfrag (by rw [hmiddle]; decide) (by rw [hmiddle]; decide)]
      omega
    have := hfrag (by rw [hmiddle]; decide) (by rw [hmiddle]; decide)
    obtain ⟨hintact, hpassed, hfits, hcharge⟩ :=
      h.reportDrop hone (.corruption "missing start of fragmented record(1)")
    exact ⟨hfits, hintact, by rw [reportCorruption, hpassed]; omega⟩
  · have := hfrag (by rw [hlast]; decide) (by rw [hlast]; decide)
    refine ⟨by simp, ⟨h.1, h.2, h.3, h.4, h.5⟩, ?_⟩
    show _ ≤ r.passed
    rw [Assembly.held, if_pos hin] at hpaid
    rw [Drop.charge_nil, Round.recordSize, List.length_append]
    omega
  · have hone : fragment.length ≤ r.passed := by
      rw [← hfrag (by rw [hlast]; decide) (by rw [hlast]; decide)]
      omega
    have := hfrag (by rw [hlast]; decide) (by rw [hlast]; decide)
    obtain ⟨hintact, hpassed, hfits, hcharge⟩ :=
      h.reportDrop hone (.corruption "missing start of fragmented record(2)")
    exact ⟨hfits, hintact, by rw [reportCorruption, hpassed]; omega⟩
  · exact ⟨by simp, h, by rw [Drop.charge_nil, Round.recordSize]; omega⟩
  · rw [Assembly.held, if_pos hin] at hpaid hheld
    obtain ⟨hintact, hpassed, hfits, hcharge⟩ := h.reportDrop hheld
      (.corruption "error in middle of record")
    refine ⟨hfits, hintact, ?_⟩
    rw [reportCorruption, hpassed, Assembly.held, if_neg (by simp)]
    omega
  · exact ⟨by simp, h, by rw [Drop.charge_nil]; omega⟩
  · have := hfrag heof hbad
    have hboth : fragment.length + asm.held ≤ r.passed := by omega
    obtain ⟨hintact, hpassed, hfits, hcharge⟩ := h.reportDrop hboth
      (.corruption s!"unknown record type {t}")
    refine ⟨hfits, hintact, ?_⟩
    rw [reportCorruption, hpassed]
    simp only [Assembly.held, Bool.false_eq_true, if_false] at hcharge hpaid ⊢
    omega

theorem Intact.round (h : Intact size r)
    (hpaid : budget + asm.held + payload t fragment ≤ r.passed) :
    (∀ d ∈ r.roundDrops asm t fragment, d.Fits) ∧
      Settles size budget (r.roundDrops asm t fragment) (r.round asm t fragment) := by
  have hres : ¬ r.resyncing = true := by simp [h.resyncing]
  rw [roundDrops, if_neg hres, Reader.round, if_neg hres]
  exact h.dispatch hpaid

/-- **One call of `ReadRecord`**, from its loop on. -/
theorem Intact.readLoop (h : Intact size r) (hpaid : budget + asm.held ≤ r.passed) :
    (∀ d ∈ r.readLoopDrops asm fragment, d.Fits) ∧ Intact size (r.readLoop asm fragment).2 ∧
      budget + Drop.charge (r.readLoopDrops asm fragment)
        + Round.recordSize (r.readLoop asm fragment).1 ≤ (r.readLoop asm fragment).2.passed := by
  fun_induction Reader.readLoop r asm fragment generalizing budget with
  | case1 r asm fragment record r₂ hround =>
    obtain ⟨hintact, hfits, hcharge⟩ := h.readPhysicalRecord fragment
    have hpaid' : budget + Drop.charge r.physicalDrops + asm.held
        + payload (r.readPhysicalRecord fragment).1 (r.readPhysicalRecord fragment).2.1
        ≤ (r.readPhysicalRecord fragment).2.2.passed := by omega
    obtain ⟨hfits', hsettles⟩ := hintact.round hpaid'
    rw [hround] at hsettles
    rw [readLoopDrops, hround]
    refine ⟨fun d hd => (List.mem_append.mp hd).elim (hfits d) (hfits' d), hsettles.1, ?_⟩
    rw [Drop.charge_append, ← Nat.add_assoc]
    exact hsettles.2
  | case2 r asm fragment asm₂ r₂ hround ih =>
    obtain ⟨hintact, hfits, hcharge⟩ := h.readPhysicalRecord fragment
    have hpaid' : budget + Drop.charge r.physicalDrops + asm.held
        + payload (r.readPhysicalRecord fragment).1 (r.readPhysicalRecord fragment).2.1
        ≤ (r.readPhysicalRecord fragment).2.2.passed := by omega
    obtain ⟨hfits', hsettles⟩ := hintact.round hpaid'
    rw [hround] at hsettles
    rw [readLoopDrops, hround]
    obtain ⟨hrest, hintact₂, hend⟩ := ih hsettles.1 hsettles.2
    refine ⟨?_, hintact₂, ?_⟩
    · intro d hd
      rcases List.mem_append.mp hd with hd | hd
      · exact (List.mem_append.mp hd).elim (hfits d) (hfits' d)
      · exact hrest d hd
    · simpa only [Drop.charge_append, ← Nat.add_assoc] using hend

/-- Calls of `ReadRecord`, with what is charged and returned in all of them. -/
theorem Intact.readAll (h : Intact size r) (hpaid : budget ≤ r.passed) :
    (∀ d ∈ r.readAllDrops, d.Fits) ∧
      budget + Drop.charge r.readAllDrops + (r.readAll.1.map fun record => record.1.length).sum
        ≤ size := by
  fun_induction Reader.readAll r generalizing budget with
  | case1 r r' hnone =>
    have hskip : ¬ r.lastRecordOffset < r.initialOffset := by simp [h.initialOffset]
    obtain ⟨hfits, hintact, hcharge⟩ := @Intact.readLoop r .start [] size budget h hpaid
    rw [Reader.readRecord, if_neg hskip] at hnone
    rw [readAllDrops, Reader.readRecord, if_neg hskip, hnone, readRecordDrops, if_neg hskip]
    rw [hnone] at hintact hcharge
    exact ⟨hfits, hcharge.trans hintact.passed_le⟩
  | case2 r record r' hsome ih =>
    have hskip : ¬ r.lastRecordOffset < r.initialOffset := by simp [h.initialOffset]
    obtain ⟨hfits, hintact, hcharge⟩ := @Intact.readLoop r .start [] size budget h hpaid
    rw [Reader.readRecord, if_neg hskip] at hsome
    rw [readAllDrops, Reader.readRecord, if_neg hskip, hsome, readRecordDrops, if_neg hskip]
    rw [hsome] at hintact hcharge
    obtain ⟨hrest, hsum⟩ := ih hintact hcharge
    refine ⟨fun d hd => (List.mem_append.mp hd).elim (hfits d) (hrest d), ?_⟩
    rw [Drop.charge_append, List.map_cons, List.sum_cons]
    simp only [Round.recordSize] at hsum
    show budget + (_ + _) + (record.length + _) ≤ size
    omega

end Reader

/-- **Dropped bytes are bytes of the file.** Over any contents that can be read without an error,
with or without a reporter and checksums, from offset zero on: the bytes reported as dropped and the
bytes of the records returned are together no more than the file has, and no subtraction of
`ReportDrop` wraps. -/
theorem readAll_accounting {file : SequentialFile} (hfile : file.Sound) (reporter checksum : Bool) :
    ((Reader.new file reporter checksum 0).readAll.2.reports.map Prod.fst).sum
        + ((Reader.new file reporter checksum 0).readAll.1.map fun record => record.1.length).sum
      ≤ file.contents.length ∧
    ∀ d ∈ (Reader.new file reporter checksum 0).readAllDrops, d.Fits := by
  set r := Reader.new file reporter checksum 0 with hr
  have hintact : r.Intact file.contents.length :=
    ⟨hfile, rfl, rfl, le_rfl, Nat.zero_add _⟩
  obtain ⟨hfits, hcharge⟩ := hintact.readAll (Nat.zero_le _)
  refine ⟨?_, hfits⟩
  have htold := Drop.sum_told_le r.initialOffset r.readAllDrops
  rw [Reader.reports_readAll, show r.reports = [] from rfl, List.nil_append]
  omega

/-- A middle record of one byte that nothing starts. -/
theorem readAll_accounting_middle :
    ((Reader.new ⟨[0, 0, 0, 0, 1, 0, 3, 65], 0, fun _ => .success⟩ true false 0
        ).readAll.2.reports.map Prod.fst).sum
      + ((Reader.new ⟨[0, 0, 0, 0, 1, 0, 3, 65], 0, fun _ => .success⟩ true false 0).readAll.1.map
        fun record => record.1.length).sum ≤ 8 ∧
    ∀ d ∈ (Reader.new ⟨[0, 0, 0, 0, 1, 0, 3, 65], 0, fun _ => .success⟩ true false 0).readAllDrops,
      d.Fits :=
  @readAll_accounting ⟨[0, 0, 0, 0, 1, 0, 3, 65], 0, fun _ => .success⟩ (fun _ => rfl) true false

end Log

end Squirrel
