import Squirrel.Db.LogRoundTrip

/-!
# The log writer on any file

`log::Writer` calls `Append` and `Flush` of a `WritableFile`, whatever that is. Here it is given
these two calls, and the writer of `LogWriter` is the one for a file whose bytes are in place once
appended.

The files of an environment buffer what is appended. What the writer asks of them is `Buffered`: an
`Append` that fits into the buffer goes there and does not fail, and a `Flush` writes what is in the
buffer, or a part of it and fails. Every physical record is flushed, so there is never more than a
trailer and a physical record in the buffer, and the `Append` whose status `AddRecord` drops cannot
fail.

## Main definitions

* `FileWriter` — the writer
* `Buffered` — the contract

## Main results

* `FileWriter.addRecord_eq` — on a file that does not buffer, it is the writer of `LogWriter`
* `Buffered.readAll_acked` — what a reader gets, up to the first call that fails
-/

namespace Squirrel

/-- The calls of a `WritableFile` that the writer makes. A call that does not return is `none`. -/
structure FileOps (F : Type) where
  append : F → Bytes → Option (Status × F)
  flush : F → Option (Status × F)

/-- A file that does not buffer. -/
def WritableFile.ops : FileOps WritableFile :=
  ⟨fun f data => some (f.append data), fun f => some f.flush⟩

namespace Log

structure FileWriter (F : Type) where
  dest : F
  /-- Current offset in block. -/
  blockOffset : ℕ

namespace FileWriter

/-! ### The writer -/

section

variable {F : Type} (ops : FileOps F)

/-- `Writer(dest, dest_length)`. -/
def new (dest : F) (destLength : ℕ) : FileWriter F := ⟨dest, destLength % kBlockSize⟩

/-- `EmitPhysicalRecord`. -/
def emitPhysicalRecord (w : FileWriter F) (t : RecordType) (payload : Bytes) :
    Option (Status × FileWriter F) := do
  let blockOffset := w.blockOffset + kHeaderSize + payload.length
  let (s, dest) ← ops.append w.dest (header t payload)
  if s.ok then
    let (s, dest) ← ops.append dest payload
    if s.ok then
      let (s, dest) ← ops.flush dest
      some (s, ⟨dest, blockOffset⟩)
    else some (s, ⟨dest, blockOffset⟩)
  else some (s, ⟨dest, blockOffset⟩)

/-- The start of a round of `AddRecord`. The status of the trailer's `Append` is dropped. -/
def switchBlock (w : FileWriter F) : Option (FileWriter F) :=
  let leftover := kBlockSize - w.blockOffset
  if leftover < kHeaderSize then
    if 0 < leftover then
      (ops.append w.dest (List.replicate leftover 0)).map fun r => ⟨r.2, 0⟩
    else some ⟨w.dest, 0⟩
  else some w

/-- The offset in the block at which a round puts its header. -/
def headerOffset (blockOffset : ℕ) : ℕ :=
  if kBlockSize - blockOffset < kHeaderSize then 0 else blockOffset

theorem headerOffset_le (blockOffset : ℕ) :
    headerOffset blockOffset + kHeaderSize ≤ kBlockSize := by
  rw [headerOffset]
  split
  · decide
  · next h => simp only [kBlockSize, kHeaderSize] at *; omega

theorem headerOffset_kBlockSize : headerOffset kBlockSize = 0 := by
  rw [headerOffset, if_pos (by decide)]

theorem blockOffset_switchBlock {w w' : FileWriter F} (h : w.switchBlock ops = some w') :
    w'.blockOffset = headerOffset w.blockOffset := by
  simp only [switchBlock] at h
  rw [headerOffset]
  split at h
  · next hlt =>
    rw [if_pos hlt]
    split at h
    · obtain ⟨r, -, rfl⟩ := Option.map_eq_some_iff.mp h
      rfl
    · cases h
      rfl
  · next hle =>
    cases h
    rw [if_neg hle]

theorem blockOffset_emitPhysicalRecord {w w' : FileWriter F} {t : RecordType} {payload : Bytes}
    {s : Status} (h : w.emitPhysicalRecord ops t payload = some (s, w')) :
    w'.blockOffset = w.blockOffset + kHeaderSize + payload.length := by
  obtain ⟨⟨s₁, dest₁⟩, -, h⟩ := Option.bind_eq_some_iff.mp h
  dsimp only at h
  split at h
  · obtain ⟨⟨s₂, dest₂⟩, -, h⟩ := Option.bind_eq_some_iff.mp h
    dsimp only at h
    split at h
    · obtain ⟨⟨s₃, dest₃⟩, -, h⟩ := Option.bind_eq_some_iff.mp h
      cases h
      rfl
    · cases h
      rfl
  · cases h
    rfl

/-- One round of the loop of `AddRecord`, with the length of the fragment that it has emitted. -/
def emitRound (w : FileWriter F) (left : Bytes) (begin : Bool) :
    Option (Status × FileWriter F × ℕ) := do
  let w' ← w.switchBlock ops
  let avail := kBlockSize - w'.blockOffset - kHeaderSize
  let fragmentLength := min left.length avail
  let atEnd := decide (left.length = fragmentLength)
  let (s, w'') ← w'.emitPhysicalRecord ops (Writer.fragmentType begin atEnd)
    (left.take fragmentLength)
  some (s, w'', fragmentLength)

theorem emitRound_offset {w w' : FileWriter F} {left : Bytes} {begin : Bool} {s : Status} {n : ℕ}
    (h : w.emitRound ops left begin = some (s, w', n)) :
    n = min left.length (kBlockSize - headerOffset w.blockOffset - kHeaderSize) ∧
      w'.blockOffset = headerOffset w.blockOffset + kHeaderSize + n := by
  obtain ⟨w₁, hswitch, h⟩ := Option.bind_eq_some_iff.mp h
  obtain ⟨⟨s₂, w₂⟩, hemit, h⟩ := Option.bind_eq_some_iff.mp h
  cases h
  have hlen : ∀ m, (left.take (min left.length m)).length = min left.length m := fun m => by simp
  rw [blockOffset_emitPhysicalRecord ops hemit, hlen, blockOffset_switchBlock ops hswitch]
  exact ⟨rfl, rfl⟩

/-- The loop of `AddRecord`, at the bytes `left` of the record not written yet. -/
def addRecordLoop (w : FileWriter F) (left : Bytes) (begin : Bool) :
    Option (Status × FileWriter F) :=
  match _hround : w.emitRound ops left begin with
  | none => none
  | some (s, w', n) =>
    if s.ok ∧ 0 < (left.drop n).length then addRecordLoop w' (left.drop n) false else some (s, w')
termination_by
  (left.length, if headerOffset w.blockOffset + kHeaderSize = kBlockSize then 1 else 0)
decreasing_by
  rename_i h
  obtain ⟨hn, hoff⟩ := emitRound_offset ops _hround
  have hpos := h.2
  have hle := headerOffset_le w.blockOffset
  rw [List.length_drop] at hpos
  by_cases hzero : n = 0
  · have hfit : headerOffset w.blockOffset + kHeaderSize = kBlockSize := by omega
    rw [hoff, hzero, Nat.add_zero, hfit, headerOffset_kBlockSize, if_pos rfl, if_neg (by decide),
      List.drop_zero]
    exact Prod.Lex.right _ (by decide)
  · refine Prod.Lex.left _ _ ?_
    rw [List.length_drop]
    omega

/-- `AddRecord`. -/
def addRecord (w : FileWriter F) (slice : Bytes) : Option (Status × FileWriter F) :=
  w.addRecordLoop ops slice true

/-- Calls of `AddRecord` one after another, up to the first that fails: the records that have been
acknowledged, and the last status. -/
def addRecords (w : FileWriter F) : List Bytes → Option (List Bytes × Status × FileWriter F)
  | [] => some ([], .success, w)
  | record :: records => do
    let (s, w) ← w.addRecord ops record
    if s.ok then
      let (acked, s, w) ← w.addRecords records
      some (record :: acked, s, w)
    else some ([], s, w)

end

/-! ### A file that does not buffer -/

/-- The writer of `LogWriter`. -/
def ofWriter (w : Writer) : FileWriter WritableFile := ⟨w.dest, w.blockOffset⟩

theorem emitPhysicalRecord_eq (w : Writer) (t : RecordType) (payload : Bytes) :
    (ofWriter w).emitPhysicalRecord WritableFile.ops t payload
      = some ((w.emitPhysicalRecord t payload).1, ofWriter (w.emitPhysicalRecord t payload).2) := by
  simp only [emitPhysicalRecord, Writer.emitPhysicalRecord, Writer.emitRaw, header,
    WritableFile.ops, ofWriter, Option.bind_eq_bind, Option.bind_some]
  split
  · split <;> rfl
  · rfl

theorem switchBlock_eq (w : Writer) :
    (ofWriter w).switchBlock WritableFile.ops = some (ofWriter w.switchBlock) := by
  have hoffset : (ofWriter w).blockOffset = w.blockOffset := rfl
  simp only [switchBlock, Writer.switchBlock, hoffset]
  by_cases hlt : kBlockSize - w.blockOffset < kHeaderSize
  · rw [if_pos hlt, if_pos hlt]
    by_cases hpos : 0 < kBlockSize - w.blockOffset
    · rw [if_pos hpos, if_pos hpos]
      rfl
    · rw [if_neg hpos, if_neg hpos]
      rfl
  · rw [if_neg hlt, if_neg hlt]

theorem addRecordLoop_eq (w : Writer) (left : Bytes) (begin : Bool) :
    (ofWriter w).addRecordLoop WritableFile.ops left begin
      = some ((w.addRecordLoop left begin).1, ofWriter (w.addRecordLoop left begin).2) := by
  have hround : ∀ (w : Writer) (left : Bytes) (begin : Bool),
      (ofWriter w).emitRound WritableFile.ops left begin
        = let n := min left.length (kBlockSize - w.switchBlock.blockOffset - kHeaderSize)
          let r := w.switchBlock.emitPhysicalRecord (Writer.fragmentType begin (left.length = n))
            (left.take n)
          some (r.1, ofWriter r.2, n) := by
    intro w left begin
    rw [emitRound, switchBlock_eq]
    simp only [Option.bind_eq_bind, Option.bind_some]
    rw [emitPhysicalRecord_eq]
    rfl
  fun_induction Writer.addRecordLoop w left begin with
  | case1 w left begin w' avail n atEnd r hmore ih =>
    rw [addRecordLoop]
    split
    · next hnone =>
      rw [hround] at hnone
      cases hnone
    · next s w'' m hsome =>
      rw [hround] at hsome
      cases hsome
      rw [if_pos hmore]
      exact ih
  | case2 w left begin w' avail n atEnd r hstop =>
    rw [addRecordLoop]
    split
    · next hnone =>
      rw [hround] at hnone
      cases hnone
    · next s w'' m hsome =>
      rw [hround] at hsome
      cases hsome
      rw [if_neg hstop]

/-- On a file that does not buffer, this is the writer of `LogWriter`. -/
theorem addRecord_eq (w : Writer) (slice : Bytes) :
    (ofWriter w).addRecord WritableFile.ops slice
      = some ((w.addRecord slice).1, ofWriter (w.addRecord slice).2) :=
  addRecordLoop_eq w slice true

end FileWriter

/-! ### Files that buffer -/

/-- What the writer asks of a file. `disk` is what has been written, `pending` what is in the
buffer, and `answers` bounds how much can still be written before a call does not return. -/
structure Buffered {F : Type} (ops : FileOps F) where
  Ready : F → Prop
  disk : F → Bytes
  pending : F → Bytes
  answers : F → ℕ
  capacity : ℕ
  append : ∀ f data, Ready f → (pending f).length + data.length ≤ capacity →
    ∃ f', ops.append f data = some (.success, f') ∧ Ready f' ∧ disk f' = disk f ∧
      pending f' = pending f ++ data ∧ answers f' = answers f
  flush : ∀ f s f', Ready f → ops.flush f = some (s, f') → Ready f' ∧ pending f' = [] ∧
    (s.ok = true → disk f' = disk f ++ pending f) ∧
    (s.ok = false → pending f ≠ [] → ∃ k < (pending f).length, disk f' = disk f
      ++ (pending f).take k)
  flush_returns : ∀ f, Ready f → pending f ≠ [] → (pending f).length ≤ answers f →
    ∃ s f', ops.flush f = some (s, f') ∧ answers f ≤ answers f' + (pending f).length

/-- The trailer that a round fills. -/
def trailer (blockOffset : ℕ) : Bytes :=
  if kBlockSize - blockOffset < kHeaderSize then List.replicate (kBlockSize - blockOffset) 0 else []

theorem length_trailer_lt (blockOffset : ℕ) : (trailer blockOffset).length < kHeaderSize := by
  rw [trailer]
  split
  · next h => rwa [List.length_replicate]
  · decide

/-- How much of the record a round writes. -/
def fragmentLength (blockOffset : ℕ) (left : Bytes) : ℕ :=
  min left.length (kBlockSize - FileWriter.headerOffset blockOffset - kHeaderSize)

/-- What a round writes. -/
def roundBytes (blockOffset : ℕ) (left : Bytes) (begin : Bool) : Bytes :=
  trailer blockOffset ++ physicalRecord
    (Writer.fragmentType begin (left.length = fragmentLength blockOffset left))
    (left.take (fragmentLength blockOffset left))

theorem roundBytes_ne_nil (blockOffset : ℕ) (left : Bytes) (begin : Bool) :
    roundBytes blockOffset left begin ≠ [] := by
  intro h
  have hlen := congrArg List.length h
  rw [roundBytes, List.length_append, length_physicalRecord, List.length_nil, kHeaderSize] at hlen
  omega

theorem length_roundBytes_le (blockOffset : ℕ) (left : Bytes) (begin : Bool) :
    (roundBytes blockOffset left begin).length ≤ kBlockSize + kHeaderSize := by
  have htrailer := length_trailer_lt blockOffset
  have hle := FileWriter.headerOffset_le blockOffset
  rw [roundBytes, List.length_append, length_physicalRecord, List.length_take, fragmentLength]
  omega

/-- A round on a file that does not buffer. -/
theorem round_of_sound {a : Writer} (h : a.dest.Sound) (left : Bytes) (begin : Bool) {n : ℕ}
    (hn : n = fragmentLength a.blockOffset left) :
    let r := a.switchBlock.emitPhysicalRecord (Writer.fragmentType begin (left.length = n))
      (left.take n)
    r.1.ok = true ∧ r.2.dest.Sound ∧ r.2.dest.contents = a.dest.contents
      ++ roundBytes a.blockOffset left begin ∧
      r.2.blockOffset = FileWriter.headerOffset a.blockOffset + kHeaderSize + n := by
  have hsound : a.switchBlock.dest.Sound := fun k => by
    rw [Writer.fate_switchBlock]
    exact h k
  have hcontents : a.switchBlock.dest.contents = a.dest.contents ++ trailer a.blockOffset := by
    simp only [Writer.switchBlock, trailer]
    split
    · split
      · rw [WritableFile.append_of_sound h]
      · next hzero =>
        rw [Nat.eq_zero_of_not_pos hzero, List.replicate_zero, List.append_nil]
    · rw [List.append_nil]
  have htake : (left.take n).length = n := by
    rw [List.length_take, hn, fragmentLength]
    omega
  intro r
  obtain ⟨hfate, hcases⟩ := a.switchBlock.emitPhysicalRecord_cases
    (Writer.fragmentType begin (left.length = n)) (left.take n)
  have hok := Writer.ok_emitPhysicalRecord hsound (Writer.fragmentType begin (left.length = n))
    (left.take n)
  refine ⟨hok, fun k => ?_, ?_, ?_⟩
  · rw [hfate]
    exact hsound k
  · rcases hcases with ⟨hnot, -⟩ | ⟨hnot, -⟩ | hdone
    · exact absurd hok (by rw [hnot]; decide)
    · exact absurd hok (by rw [hnot]; decide)
    · rw [hdone, hcontents, roundBytes, ← hn, List.append_assoc]
  · rw [Writer.blockOffset_emitPhysicalRecord, Writer.blockOffset_switchBlock, htake]
    rfl

namespace Buffered

variable {F : Type} {ops : FileOps F} (B : Buffered ops)

/-- The writer has done what the writer on a file that does not buffer has done. -/
structure Follows (w : FileWriter F) (a : Writer) : Prop where
  ready : B.Ready w.dest
  pending : B.pending w.dest = []
  disk : B.disk w.dest = a.dest.contents
  blockOffset : w.blockOffset = a.blockOffset
  sound : a.dest.Sound

/-- **A round flushes once**, with the trailer and the physical record in the buffer. -/
theorem emitRound_eq (hcap : kBlockSize + kHeaderSize ≤ B.capacity) {w : FileWriter F}
    (hready : B.Ready w.dest) (hpending : B.pending w.dest = []) (left : Bytes) (begin : Bool) :
    ∃ f, B.Ready f ∧ B.disk f = B.disk w.dest ∧ B.pending f = roundBytes w.blockOffset left begin ∧
      B.answers f = B.answers w.dest ∧
      w.emitRound ops left begin = (ops.flush f).map fun r =>
        (r.1, ⟨r.2, FileWriter.headerOffset w.blockOffset + kHeaderSize
          + fragmentLength w.blockOffset left⟩,
          fragmentLength w.blockOffset left) := by
  obtain ⟨n, hn⟩ : ∃ n, n = fragmentLength w.blockOffset left := ⟨_, rfl⟩
  obtain ⟨t, ht⟩ : ∃ t, t = Writer.fragmentType begin (decide (left.length = n)) := ⟨_, rfl⟩
  have htake : (left.take n).length = n := by
    rw [List.length_take, hn, fragmentLength]
    omega
  have hbytes : roundBytes w.blockOffset left begin
      = trailer w.blockOffset ++ header t (left.take n) ++ left.take n := by
    rw [roundBytes, ← hn, ← ht, physicalRecord, List.append_assoc]
  have hle := length_roundBytes_le w.blockOffset left begin
  rw [hbytes, List.length_append, List.length_append, htake] at hle
  -- the trailer
  obtain ⟨f₁, hswitch, hready₁, hdisk₁, hpending₁, hanswers₁⟩ : ∃ f₁,
      w.switchBlock ops = some ⟨f₁, FileWriter.headerOffset w.blockOffset⟩ ∧ B.Ready f₁ ∧
      B.disk f₁ = B.disk w.dest ∧ B.pending f₁ = trailer w.blockOffset ∧
        B.answers f₁ = B.answers w.dest := by
    simp only [FileWriter.switchBlock, FileWriter.headerOffset]
    by_cases hlt : kBlockSize - w.blockOffset < kHeaderSize
    · by_cases hpos : 0 < kBlockSize - w.blockOffset
      · have htrailer : trailer w.blockOffset = List.replicate (kBlockSize - w.blockOffset) 0 := by
          rw [trailer, if_pos hlt]
        rw [htrailer] at hle
        obtain ⟨f₁, happend, hready₁, hdisk₁, hpending₁, hanswers₁⟩ := B.append w.dest
          (List.replicate (kBlockSize - w.blockOffset) 0) hready
            (by rw [hpending, List.length_nil]; omega)
        rw [if_pos hlt, if_pos hpos, if_pos hlt, happend, htrailer]
        exact ⟨f₁, rfl, hready₁, hdisk₁, hpending₁.trans (by rw [hpending]; rfl), hanswers₁⟩
      · rw [if_pos hlt, if_neg hpos, if_pos hlt]
        refine ⟨w.dest, rfl, hready, rfl, ?_, rfl⟩
        rw [hpending, trailer, if_pos hlt, Nat.eq_zero_of_not_pos hpos]
        rfl
    · rw [if_neg hlt, if_neg hlt]
      refine ⟨w.dest, rfl, hready, rfl, ?_, rfl⟩
      rw [hpending, trailer, if_neg hlt]
  -- the header and the payload
  obtain ⟨f₂, happend₂, hready₂, hdisk₂, hpending₂, hanswers₂⟩ :=
    B.append f₁ (header t (left.take n)) hready₁
    (by rw [hpending₁]; omega)
  obtain ⟨f₃, happend₃, hready₃, hdisk₃, hpending₃, hanswers₃⟩ := B.append f₂ (left.take n) hready₂
    (by rw [hpending₂, hpending₁, List.length_append, htake]; omega)
  refine ⟨f₃, hready₃, hdisk₃.trans (hdisk₂.trans hdisk₁), ?_,
    hanswers₃.trans (hanswers₂.trans hanswers₁), ?_⟩
  · rw [hpending₃, hpending₂, hpending₁, hbytes]
  · have hemit : FileWriter.emitPhysicalRecord ops ⟨f₁, FileWriter.headerOffset w.blockOffset⟩ t
        (left.take n) = (ops.flush f₃).map fun r =>
          (r.1, ⟨r.2, FileWriter.headerOffset w.blockOffset + kHeaderSize + n⟩) := by
      have hok : Status.success.ok = true := rfl
      simp only [FileWriter.emitPhysicalRecord, happend₂, happend₃, hok, htake, Option.bind_eq_bind,
        Option.bind_some, if_true, Option.map_eq_bind]
      rfl
    rw [FileWriter.emitRound, hswitch]
    simp only [Option.bind_eq_bind, Option.bind_some]
    have hfragment :
        min left.length (kBlockSize - FileWriter.headerOffset w.blockOffset - kHeaderSize) = n := by
      rw [hn, fragmentLength]
    rw [hfragment, ← ht, hemit, ← hn]
    cases ops.flush f₃ with
    | none => rfl
    | some r => rfl

/-- A round returns if there are answers for its bytes. -/
theorem emitRound_returns (hcap : kBlockSize + kHeaderSize ≤ B.capacity) {w : FileWriter F}
    (hready : B.Ready w.dest) (hpending : B.pending w.dest = []) (left : Bytes) (begin : Bool)
    (henough : (roundBytes w.blockOffset left begin).length ≤ B.answers w.dest) :
    ∃ s w' n, w.emitRound ops left begin = some (s, w', n) ∧
      B.answers w.dest ≤ B.answers w'.dest + (roundBytes w.blockOffset left begin).length := by
  obtain ⟨f, hready', -, hpending', hanswers, hround⟩ :=
    B.emitRound_eq hcap hready hpending left begin
  obtain ⟨s, f', hflush, hle⟩ := B.flush_returns f hready' (hpending' ▸ roundBytes_ne_nil _ _ _)
    (by rw [hpending', hanswers]; exact henough)
  rw [hflush] at hround
  refine ⟨s, _, _, hround, ?_⟩
  rw [← hanswers, ← hpending']
  exact hle

/-- **One round**: it does what it does on a file that does not buffer, or only a part of its bytes
are written. -/
theorem Follows.emitRound (hcap : kBlockSize + kHeaderSize ≤ B.capacity) {w w' : FileWriter F}
    {a : Writer} (h : B.Follows w a) {left : Bytes} {begin : Bool} {s : Status} {m n : ℕ}
    (hn : n = fragmentLength a.blockOffset left)
    (hround : w.emitRound ops left begin = some (s, w', m)) :
    m = n ∧
      (s.ok = true → B.Follows w' (a.switchBlock.emitPhysicalRecord
        (Writer.fragmentType begin (left.length = n)) (left.take n)).2) ∧
      (s.ok = false → ∃ k < (roundBytes a.blockOffset left begin).length,
        B.disk w'.dest = a.dest.contents ++ (roundBytes a.blockOffset left begin).take k) := by
  obtain ⟨f, hready, hdisk, hpending, -, heq⟩ := B.emitRound_eq hcap h.ready h.pending left begin
  obtain ⟨-, hsound, hcontents, hoffset⟩ := round_of_sound h.sound left begin hn
  rw [hround, h.blockOffset, ← hn] at heq
  rw [h.blockOffset] at hpending
  obtain ⟨⟨s', f'⟩, hflush, hsame⟩ := Option.map_eq_some_iff.mp heq.symm
  cases hsame
  obtain ⟨hready', hempty, hok, hfailed⟩ := B.flush f s' f' hready hflush
  rw [hpending, hdisk, h.disk] at hok hfailed
  refine ⟨rfl, fun hs => ⟨hready', hempty, (hok hs).trans hcontents.symm, hoffset.symm, hsound⟩,
    fun hs => ?_⟩
  exact hfailed hs (roundBytes_ne_nil _ _ _)

end Buffered

/-- On a file that does not buffer, nothing that has been written is lost. -/
theorem prefix_addRecordLoop {a : Writer} (h : a.dest.Sound) (left : Bytes) (begin : Bool) :
    (a.addRecordLoop left begin).2.dest.Sound ∧
      a.dest.contents <+: (a.addRecordLoop left begin).2.dest.contents := by
  fun_induction Writer.addRecordLoop a left begin with
  | case1 a left begin a' avail n atEnd r hmore ih =>
    have hn : n = fragmentLength a.blockOffset left := by
      simp only [n, avail, a', fragmentLength, Writer.blockOffset_switchBlock,
        FileWriter.headerOffset]
    obtain ⟨-, hsound, hcontents, -⟩ := round_of_sound h left begin hn
    obtain ⟨hsound', hprefix⟩ := ih hsound
    exact ⟨hsound', List.IsPrefix.trans ⟨_, hcontents.symm⟩ hprefix⟩
  | case2 a left begin a' avail n atEnd r hstop =>
    have hn : n = fragmentLength a.blockOffset left := by
      simp only [n, avail, a', fragmentLength, Writer.blockOffset_switchBlock,
        FileWriter.headerOffset]
    obtain ⟨-, hsound, hcontents, -⟩ := round_of_sound h left begin hn
    exact ⟨hsound, ⟨_, hcontents.symm⟩⟩

namespace Buffered

variable {F : Type} {ops : FileOps F} (B : Buffered ops)

/-- The outcome of a call on a file, where `a` and `a'` are the writer on a file that does not
buffer, before and after it. -/
structure Outcome (w : FileWriter F) (a a' : Writer) (s : Status) (w' : FileWriter F) : Prop where
  done : s.ok = true → B.Follows w' a'
  torn : s.ok = false → ∃ k, a.dest.contents.length ≤ k ∧ k < a'.dest.contents.length ∧
    B.disk w'.dest = a'.dest.contents.take k

/-- One round, in which `final` is what the writer will have written in the end on a file that does
not buffer. -/
theorem Follows.emitRound_final (hcap : kBlockSize + kHeaderSize ≤ B.capacity) {a : Writer}
    {w : FileWriter F} {left : Bytes} {begin : Bool} {n : ℕ} {r : Status × Writer} {final : Bytes}
    (h : B.Follows w a) (hn : n = fragmentLength a.blockOffset left)
    (hr : r = a.switchBlock.emitPhysicalRecord (Writer.fragmentType begin (left.length = n))
      (left.take n)) (hfinal : r.2.dest.contents <+: final) :
    (∀ s w' m, w.emitRound ops left begin = some (s, w', m) →
      m = n ∧ (s.ok = true → B.Follows w' r.2) ∧
      (s.ok = false → ∃ k, a.dest.contents.length ≤ k ∧ k < final.length ∧
        B.disk w'.dest = final.take k)) ∧
    (final.length ≤ a.dest.contents.length + B.answers w.dest →
      ∃ s w', w.emitRound ops left begin = some (s, w', n) ∧
        a.dest.contents.length + B.answers w.dest
          ≤ r.2.dest.contents.length + B.answers w'.dest) := by
  subst hr
  obtain ⟨rest, rfl⟩ := hfinal
  obtain ⟨-, hsound, hcontents, -⟩ := round_of_sound h.sound left begin hn
  rw [hcontents, List.append_assoc, List.length_append, List.length_append, List.length_append]
  constructor
  · intro s w' m hround
    obtain ⟨hm, hdone, htorn⟩ := h.emitRound B hcap hn hround
    refine ⟨hm, hdone, fun hs => ?_⟩
    obtain ⟨k, hk, hdisk⟩ := htorn hs
    refine ⟨a.dest.contents.length + k, by omega, by omega, ?_⟩
    rw [hdisk, List.take_length_add_append, List.take_append_of_le_length hk.le]
  · intro henough
    obtain ⟨s, w', m, hround, hle⟩ := B.emitRound_returns hcap h.ready h.pending left begin
      (by rw [h.blockOffset]; omega)
    obtain ⟨rfl, -, -⟩ := h.emitRound B hcap hn hround
    rw [h.blockOffset] at hle
    exact ⟨s, w', hround, by omega⟩

/-- **One call.** The induction is on the rounds. -/
theorem Follows.addRecordLoop (hcap : kBlockSize + kHeaderSize ≤ B.capacity) {w : FileWriter F}
    {a : Writer} (h : B.Follows w a) (left : Bytes) (begin : Bool) :
    (∀ s w', w.addRecordLoop ops left begin = some (s, w') →
      B.Outcome w a (a.addRecordLoop left begin).2 s w') ∧
    ((a.addRecordLoop left begin).2.dest.contents.length ≤ a.dest.contents.length
      + B.answers w.dest → ∃ s w', w.addRecordLoop ops left begin = some (s, w') ∧ (s.ok = true →
        a.dest.contents.length + B.answers w.dest
          ≤ (a.addRecordLoop left begin).2.dest.contents.length + B.answers w'.dest)) := by
  fun_induction Writer.addRecordLoop a left begin generalizing w with
  | case1 a left begin a' avail n atEnd r hmore =>
    rename_i ih
    have hn : n = fragmentLength a.blockOffset left := by
      simp only [n, avail, a', fragmentLength, Writer.blockOffset_switchBlock,
        FileWriter.headerOffset]
    have hsound : r.2.dest.Sound := (round_of_sound h.sound left begin hn).2.1
    have hgrows : a.dest.contents.length ≤ r.2.dest.contents.length := by
      have hcontents : r.2.dest.contents = _ := (round_of_sound h.sound left begin hn).2.2.1
      rw [hcontents, List.length_append]
      exact Nat.le_add_right _ _
    obtain ⟨hround, hreturns⟩ :=
      h.emitRound_final B (r := r) hcap hn rfl (prefix_addRecordLoop hsound (left.drop n) false).2
    constructor
    · intro s w' hloop
      rw [FileWriter.addRecordLoop] at hloop
      split at hloop
      · cases hloop
      · next s₁ w₁ m hemit =>
        obtain ⟨rfl, hdone, htorn⟩ := hround s₁ w₁ m hemit
        split at hloop
        · next hon =>
          obtain ⟨hdone', htorn'⟩ := (ih (hdone hon.1)).1 s w' hloop
          refine ⟨hdone', fun hs => ?_⟩
          obtain ⟨k, hk, hk', hdisk⟩ := htorn' hs
          exact ⟨k, hgrows.trans hk, hk', hdisk⟩
        · next hoff =>
          cases hloop
          have hs : s.ok = false := Bool.eq_false_iff.mpr fun hs => hoff ⟨hs, hmore.2⟩
          exact ⟨fun hs' => absurd (hs'.symm.trans hs) (by decide), htorn⟩
    · intro henough
      obtain ⟨s₁, w₁, hemit, hle⟩ := hreturns henough
      rw [FileWriter.addRecordLoop]
      split
      · next hnone => exact absurd (hnone.symm.trans hemit) (by simp)
      · next s₁' w₁' m hsome =>
        cases hsome.symm.trans hemit
        split
        · next hon =>
          obtain ⟨s, w', hloop, hle'⟩ := (ih ((hround _ _ _ hemit).2.1 hon.1)).2 (by omega)
          exact ⟨s, w', hloop, fun hs => by have := hle' hs; omega⟩
        · next hoff =>
          exact ⟨s₁, w₁, rfl, fun hs => absurd ⟨hs, hmore.2⟩ hoff⟩
  | case2 a left begin a' avail n atEnd r =>
    rename_i hstop
    have hn : n = fragmentLength a.blockOffset left := by
      simp only [n, avail, a', fragmentLength, Writer.blockOffset_switchBlock,
        FileWriter.headerOffset]
    have hok : r.1.ok = true := (round_of_sound h.sound left begin hn).1
    obtain ⟨hround, hreturns⟩ := h.emitRound_final B (r := r) hcap hn rfl List.prefix_rfl
    have hlast : ∀ s : Status, ¬ (s.ok = true ∧ 0 < (left.drop n).length) :=
      fun s hmore => hstop ⟨hok, hmore.2⟩
    constructor
    · intro s w' hloop
      rw [FileWriter.addRecordLoop] at hloop
      split at hloop
      · cases hloop
      · next s₁ w₁ m hemit =>
        obtain ⟨rfl, hdone, htorn⟩ := hround s₁ w₁ m hemit
        rw [if_neg (hlast s₁)] at hloop
        cases hloop
        exact ⟨hdone, htorn⟩
    · intro henough
      obtain ⟨s₁, w₁, hemit, hle⟩ := hreturns henough
      rw [FileWriter.addRecordLoop]
      split
      · next hnone => exact absurd (hnone.symm.trans hemit) (by simp)
      · next s₁' w₁' m hsome =>
        cases hsome.symm.trans hemit
        rw [if_neg (hlast s₁)]
        exact ⟨s₁, w₁, rfl, fun _ => hle⟩

/-- **Calls up to the first that fails.** -/
theorem Follows.addRecords (hcap : kBlockSize + kHeaderSize ≤ B.capacity) {w : FileWriter F}
    {a : Writer} (h : B.Follows w a) (records : List Bytes) :
    (∀ acked s w', w.addRecords ops records = some (acked, s, w') →
      (s.ok = true → acked = records ∧ B.Follows w' (a.addRecords acked)) ∧
      (s.ok = false → ∃ record, acked ++ [record] <+: records ∧
        ∃ k, (a.addRecords acked).dest.contents.length ≤ k ∧
          k < (a.addRecords (acked ++ [record])).dest.contents.length ∧
          B.disk w'.dest = (a.addRecords (acked ++ [record])).dest.contents.take k)) ∧
    ((a.addRecords records).dest.contents.length ≤ a.dest.contents.length + B.answers w.dest →
      ∃ acked s w', w.addRecords ops records = some (acked, s, w')) := by
  induction records generalizing w a with
  | nil =>
    refine ⟨fun acked s w' hrun => ?_, fun _ => ⟨_, _, _, rfl⟩⟩
    cases hrun
    exact ⟨fun _ => ⟨rfl, h⟩, fun hs => absurd hs (by decide)⟩
  | cons record records ih =>
    obtain ⟨hcall, hreturns⟩ := h.addRecordLoop B hcap record true
    have hgrows : ∀ {a : Writer}, a.dest.Sound → ∀ records,
        a.dest.contents.length ≤ (a.addRecords records).dest.contents.length := by
      intro a ha records
      induction records generalizing a with
      | nil => exact le_rfl
      | cons record records ih =>
        obtain ⟨hsound, hprefix⟩ := prefix_addRecordLoop ha record true
        exact hprefix.length_le.trans (ih hsound)
    have hsound := (prefix_addRecordLoop h.sound record true).1
    have hrest : ∀ records, (a.addRecord record).2.addRecords records
        = a.addRecords (record :: records) :=
      fun _ => rfl
    constructor
    · intro acked s w' hrun
      obtain ⟨⟨s₁, w₁⟩, hadd, hrun⟩ := Option.bind_eq_some_iff.mp hrun
      dsimp only at hrun
      obtain ⟨hdone, htorn⟩ := hcall s₁ w₁ hadd
      split at hrun
      · next hs₁ =>
        obtain ⟨⟨acked₂, s₂, w₂⟩, hmore, hrun⟩ := Option.bind_eq_some_iff.mp hrun
        cases hrun
        obtain ⟨hdone', htorn'⟩ := (ih (hdone hs₁)).1 acked₂ s₂ w₂ hmore
        refine ⟨fun hs => ?_, fun hs => ?_⟩
        · obtain ⟨rfl, hfollows⟩ := hdone' hs
          exact ⟨rfl, hfollows⟩
        · obtain ⟨record', hprefix, k, hk, hk', hdisk⟩ := htorn' hs
          exact ⟨record', (List.prefix_cons_inj record).mpr hprefix, k, hk, hk', hdisk⟩
      · next hs₁ =>
        cases hrun
        refine ⟨fun hs => absurd hs hs₁, fun hs => ?_⟩
        obtain ⟨k, hk, hk', hdisk⟩ := htorn hs
        exact ⟨record, by simp, k, hk, hk', hdisk⟩
    · intro henough
      have hmore := hgrows hsound records
      obtain ⟨s₁, w₁, hadd, hle⟩ := hreturns (le_trans hmore henough)
      have hadd' : w.addRecord ops record = some (s₁, w₁) := hadd
      rw [FileWriter.addRecords, hadd']
      simp only [Option.bind_eq_bind, Option.bind_some]
      split
      · next hs₁ =>
        obtain ⟨acked, s, w', hrun⟩ := (ih ((hcall s₁ w₁ hadd).done hs₁)).2 (by
          have hleft := hle hs₁
          rw [← hrest] at henough
          show ((a.addRecord record).2.addRecords records).dest.contents.length
            ≤ (a.addRecord record).2.dest.contents.length + _
          change _ ≤ (a.addRecord record).2.dest.contents.length + _ at hleft
          omega)
        rw [hrun]
        exact ⟨_, _, _, rfl⟩
      · exact ⟨_, _, _, rfl⟩

end Buffered

/-! ### What a reader gets -/

theorem sound_sessions {dest : WritableFile} (h : dest.Sound) (cuts : List (List Bytes)) :
    (sessions dest cuts).Sound := by
  induction cuts generalizing dest with
  | nil => exact h
  | cons records cuts ih =>
    exact ih (Writer.addRecords_of_sound (Writer.inSync_new dest) h records).2.1

/-- A log that is cut off inside its last record. -/
theorem readAll_torn {dest : WritableFile} (hdest : dest.Sound) (hempty : dest.contents = [])
    (cuts : List (List Bytes)) (acked : List Bytes) (record : Bytes) {k : ℕ}
    (hk : (sessions dest (cuts ++ [acked])).contents.length ≤ k)
    (hk' : k < (sessions dest (cuts ++ [acked ++ [record]])).contents.length)
    {source : SequentialFile} (hsource : source.Sound)
    (hcontents : source.contents = (sessions dest (cuts ++ [acked ++ [record]])).contents.take k)
    (reporter : Bool) :
    (Reader.new source reporter true 0).readAll.1.map Prod.fst = cuts.flatten ++ acked ∧
      (Reader.new source reporter true 0).readAll.2.reports = [] := by
  obtain ⟨hstream, hread, hreports⟩ :=
    readAll_take_sessions dest hdest hempty (cuts ++ [acked ++ [record]])
    k hk'.le source hsource hcontents reporter
  have hend := (stream_sessions hdest (cuts ++ [acked])).2.eq_limitOf
  have hflat : (cuts ++ [acked]).flatten = cuts.flatten ++ acked := by simp
  have hflat' : (cuts ++ [acked ++ [record]]).flatten = (cuts.flatten ++ acked) ++ [record] := by
    simp
  rw [hempty, List.length_nil, hflat] at hend
  rw [hflat'] at hstream hread
  refine ⟨?_, hreports⟩
  generalize cuts.flatten ++ acked = records at hend hstream hread ⊢
  have hlast : layout (limitOf 0 (layout 0 records).flatten) [record]
      = [fragments (limitOf 0 (layout 0 records).flatten) true record] := rfl
  rw [layout_append, hlast, List.flatten_append, List.flatten_singleton] at hstream
  obtain ⟨q, hfront, hback⟩ := hstream.split
  have hall : ∀ x ∈ records.zip (layout 0 records), Within k x.2 = true := by
    intro x hx
    refine List.all_eq_true.mpr fun f hf => ?_
    have hle := (hfront.limit_mem (List.mem_flatten.mpr ⟨x.2, (List.of_mem_zip hx).2, hf⟩)).2
    rw [hfront.eq_limitOf, ← hend] at hle
    exact decide_eq_true (hle.trans hk)
  have hnone : Within k (fragments (limitOf 0 (layout 0 records).flatten) true record) = false := by
    rw [← Bool.not_eq_true]
    intro hwithin
    have hle := hback.limit_le (c := k) (by rw [hfront.eq_limitOf, ← hend]; exact hk) fun f hf => by
      simpa using List.all_eq_true.mp hwithin f hf
    omega
  rw [hread, layout_append, hlast, List.zip_append (length_layout 0 records).symm,
    List.filter_append, List.filter_eq_self.mpr hall, List.zip_cons_cons, List.zip_nil_left,
    List.filter_cons_of_neg (by simpa using hnone), List.filter_nil, List.append_nil]
  exact List.map_fst_zip (length_layout 0 records).ge

/-- **Durability.** A client adds records to a log up to the first call that fails. Then a reader
gets exactly the records that have been acknowledged, those of earlier sessions included, and no
report, whatever part of the last record has reached the file. -/
theorem Buffered.readAll_acked {F : Type} {ops : FileOps F} (B : Buffered ops)
    (hcap : kBlockSize + kHeaderSize ≤ B.capacity) (cuts : List (List Bytes)) {f : F}
    (hready : B.Ready f) (hpending : B.pending f = [])
    (hdisk : B.disk f = (sessions .fresh cuts).contents) (records : List Bytes) :
    (∀ acked s w', (FileWriter.new f (B.disk f).length).addRecords ops records
      = some (acked, s, w') → acked <+: records ∧ (s.ok = true → acked = records) ∧
      ∀ source : SequentialFile, source.Sound → source.contents = B.disk w'.dest → ∀ reporter,
        (Reader.new source reporter true 0).readAll.1.map Prod.fst = cuts.flatten ++ acked ∧
        (Reader.new source reporter true 0).readAll.2.reports = []) ∧
    ((sessions .fresh (cuts ++ [records])).contents.length ≤ (B.disk f).length + B.answers f →
      ∃ acked s w', (FileWriter.new f (B.disk f).length).addRecords ops records
        = some (acked, s, w')) := by
  have hfresh : WritableFile.fresh.Sound := fun _ => rfl
  have hsessions : ∀ records, (sessions .fresh (cuts ++ [records]))
      = ((Writer.new (sessions .fresh cuts) (B.disk f).length).addRecords records).dest := by
    intro records
    rw [sessions, List.foldl_append, hdisk]
    rfl
  have hfollows : B.Follows (FileWriter.new f (B.disk f).length)
      (Writer.new (sessions .fresh cuts) (B.disk f).length) :=
    ⟨hready, hpending, hdisk, rfl, sound_sessions hfresh cuts⟩
  obtain ⟨hrun, hreturns⟩ := hfollows.addRecords B hcap records
  refine ⟨fun acked s w' haddRecords => ?_, fun henough => hreturns ?_⟩
  · obtain ⟨hdone, htorn⟩ := hrun acked s w' haddRecords
    cases hs : s.ok with
    | true =>
      obtain ⟨rfl, hfollows'⟩ := hdone hs
      refine ⟨List.prefix_rfl, fun _ => rfl, fun source hsource hcontents reporter => ?_⟩
      rw [hfollows'.disk, ← hsessions] at hcontents
      obtain ⟨-, hread, hreports⟩ :=
        readAll_sessions .fresh hfresh rfl (cuts ++ [acked]) 0 source hsource
        (by rw [hcontents, List.replicate_zero, List.append_nil]) reporter
      rw [hread, map_fst_zip_layout]
      exact ⟨by simp, hreports⟩
    | false =>
      obtain ⟨record, hprefix, k, hk, hk', hdisk'⟩ := htorn hs
      refine ⟨(List.prefix_append _ _).trans hprefix, fun hok => absurd hok (by decide),
        fun source hsource hcontents reporter => ?_⟩
      rw [← hsessions] at hk hk' hdisk'
      exact readAll_torn hfresh rfl cuts acked record hk hk' hsource (hcontents.trans hdisk')
        reporter
  · rw [← hsessions]
    refine henough.trans (le_of_eq ?_)
    rw [hdisk]
    rfl

end Log

end Squirrel
