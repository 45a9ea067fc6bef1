import Squirrel.Db.LogFile
import Squirrel.Util.PosixWritableFile
import Squirrel.Util.WindowsWritableFile

/-!
# Logs on the files of the environments

The writer of `LogFile` on a `PosixWritableFile` and on a `WindowsWritableFile`. What the system
calls will do is a part of the file here.

A process that dies leaves in the file what has been written until then, which is what a call that
fails at that moment leaves.

## Main results

* `PosixWritableFile.readAll_addRecords`, `WindowsWritableFile.readAll_acked` — a reader gets what
  has been acknowledged
-/

namespace Squirrel

open Log

namespace PosixWritableFile

/-- The calls of a file, with what the next calls of `write` will do. -/
def ops : FileOps (PosixWritableFile × List WriteResult) where
  append f data := f.1.append data f.2
  flush f := f.1.flush f.2

/-- The file is one that buffers. -/
def buffered : Buffered ops where
  Ready f := f.1.Bounded
  disk f := f.1.written
  pending f := f.1.pending
  answers f := answers f.2
  capacity := kWritableFileBufferSize
  append := by
    rintro ⟨f, results⟩ data hb hfit
    rw [hb.length_pending] at hfit
    obtain ⟨f', happend, hb', hwritten, hpending, -⟩ := hb.append_small data hfit results
    exact ⟨(f', results), happend, hb', hwritten, hpending, rfl⟩
  flush := by
    rintro ⟨f, results⟩ s ⟨f', rest⟩ hb hflush
    obtain ⟨consumed, -, hok, hb', hpos, -, hwritten, -⟩ := hb.flushBuffer_spec hflush
    refine ⟨hb', pending_of_pos_eq_zero hpos, fun hs => hwritten (hok.mp hs), fun hs _ => ?_⟩
    have hflush' : f.flushBuffer results = some (s, f', rest) := hflush
    rw [hb.flushBuffer_eq] at hflush'
    obtain ⟨⟨s₁, f₁, rest₁⟩, hwrite, heq⟩ := Option.map_eq_some_iff.mp hflush'
    cases heq
    obtain ⟨k, hk, hf₁⟩ := writeUnbuffered_short hwrite hs
    exact ⟨k, hk, by rw [hf₁]⟩
  flush_returns := by
    rintro ⟨f, results⟩ hb - henough
    rw [hb.length_pending] at henough
    obtain ⟨s, f', rest, hflush, hle⟩ := hb.flushBuffer_returns henough
    exact ⟨s, (f', rest), hflush, hb.length_pending.symm ▸ hle⟩

/-- A file that has been opened for appending. -/
def appending (filename : String) (buf contents : Bytes) : PosixWritableFile :=
  { new filename buf with written := contents }

/-- **Logs on POSIX.** Any sessions have written a log, and a client adds records to it up to the
first call of `AddRecord` that fails, whatever calls of `write` do. Then a reader gets exactly the
records that have been acknowledged. The calls return if `write` is not interrupted for ever. -/
theorem readAll_addRecords {filename : String} {buf : Bytes}
    (hbuf : buf.length = kWritableFileBufferSize) (cuts : List (List Bytes))
    (results : List WriteResult) (records : List Bytes) :
    let contents := (sessions .fresh cuts).contents
    let w := FileWriter.new (appending filename buf contents, results) contents.length
    (∀ acked s w', w.addRecords ops records = some (acked, s, w') →
      acked <+: records ∧ (s.ok = true → acked = records) ∧
      ∀ source : SequentialFile, source.Sound → source.contents = w'.dest.1.written → ∀ reporter,
        (Reader.new source reporter true 0).readAll.1.map Prod.fst = cuts.flatten ++ acked ∧
        (Reader.new source reporter true 0).readAll.2.reports = []) ∧
    ((sessions .fresh (cuts ++ [records])).contents.length ≤ contents.length + answers results →
      ∃ acked s w', w.addRecords ops records = some (acked, s, w')) := by
  intro contents w
  have hready : (appending filename buf contents).Bounded := ⟨hbuf, Nat.zero_le _⟩
  exact buffered.readAll_acked (f := (appending filename buf contents, results))
    (by decide) cuts hready
    rfl rfl records

/-- A record that fits into the block. -/
theorem fragments_of_le {p : ℕ} {begin : Bool} {left : Bytes} (h : left.length ≤ avail p) :
    fragments p begin left = [⟨nextHeader p, Writer.fragmentType begin true, left⟩] := by
  rw [fragments, Nat.min_eq_left h, if_pos rfl, List.take_length, decide_eq_true rfl]

/-- Two records, and a disk that is full before the second one. -/
theorem readAll_addRecords_full : ∃ acked s w',
    (FileWriter.new (appending "f" (List.replicate kWritableFileBufferSize 0) [],
      .wrote 7 :: List.replicate 20 (.failed ⟨28, "No space left on device"⟩)) 0).addRecords ops
        [[1], [2]]
        = some (acked, s, w') ∧
      (Reader.new ⟨w'.dest.1.written, 0, fun _ => .success⟩ true true 0).readAll.1.map Prod.fst
        = acked := by
  obtain ⟨hrun, hreturns⟩ := @readAll_addRecords "f" (List.replicate kWritableFileBufferSize 0)
    List.length_replicate []
    (.wrote 7 :: List.replicate 20 (.failed ⟨28, "No space left on device"⟩)) [[1], [2]]
  have hend := (@stream_sessions .fresh (fun _ => rfl) [[[1], [2]]]).2.eq_limitOf
  have hlimit : limitOf 0 (layout 0 [[1], [2]]).flatten = 16 := by
    rw [layout, fragments_of_le (by decide), layout, fragments_of_le (by decide), layout]
    decide
  have hroom : (sessions .fresh [[[1], [2]]]).contents.length
      ≤ 0 + answers (.wrote 7 :: List.replicate 20 (.failed ⟨28, "No space left on device"⟩)) := by
    rw [hend.trans hlimit]
    decide
  obtain ⟨acked, s, w', h⟩ := hreturns hroom
  exact ⟨acked, s, w', h,
    ((hrun acked s w' h).2.2 ⟨w'.dest.1.written, 0, fun _ => .success⟩ (fun _ => rfl) rfl true).1⟩

end PosixWritableFile

namespace WindowsWritableFile

/-- The calls of a file, with what the next calls of `WriteFile` will do. -/
def ops : FileOps (WindowsWritableFile × List WriteFileResult) where
  append f data := f.1.append data f.2
  flush f := f.1.flush f.2

/-- The file is one that buffers. -/
def buffered : Buffered ops where
  Ready f := f.1.Bounded
  disk f := f.1.written
  pending f := f.1.pending
  answers f := f.2.length
  capacity := kWritableFileBufferSize
  append := by
    rintro ⟨f, results⟩ data hb hfit
    rw [hb.length_pending] at hfit
    obtain ⟨f', happend, hb', hwritten, hpending⟩ := hb.append_small data hfit results
    exact ⟨(f', results), happend, hb', hwritten, hpending, rfl⟩
  flush := by
    rintro ⟨f, results⟩ s ⟨f', rest⟩ hb hflush
    obtain ⟨r, -, hok, hb', hpos, hdone, k, hwritten, hk⟩ := hb.flushBuffered_spec hflush
    have hpending : f'.pending = [] := by rw [pending, hpos, List.take_zero]
    refine ⟨hb', hpending, fun hs => hdone (hok.mp hs), fun hs hne =>
      ⟨k, hk (fun hr => ?_) hne, hwritten⟩⟩
    exact absurd (hs.symm.trans (hok.mpr hr)) (by decide)
  flush_returns := by
    rintro ⟨f, results⟩ hb hne henough
    have hpos := List.length_pos_iff.mpr hne
    obtain ⟨r, rest, rfl⟩ := List.exists_cons_of_length_pos (hpos.trans_le henough)
    obtain ⟨s, f', hflush⟩ := hb.flushBuffered_returns r rest
    exact ⟨s, (f', rest), hflush, Nat.add_le_add_left hpos rest.length⟩

/-- **Logs on Windows.** The same of a new file. -/
theorem readAll_acked {filename : String} {buf : Bytes}
    (hbuf : buf.length = kWritableFileBufferSize) (results : List WriteFileResult)
    (records : List Bytes) :
    (∀ acked s w', (FileWriter.new (new filename buf, results) 0).addRecords ops records
      = some (acked, s, w') → acked <+: records ∧ (s.ok = true → acked = records) ∧
      ∀ source : SequentialFile, source.Sound → source.contents = w'.dest.1.written → ∀ reporter,
        (Reader.new source reporter true 0).readAll.1.map Prod.fst = acked ∧
        (Reader.new source reporter true 0).readAll.2.reports = []) ∧
    ((session .fresh records).contents.length ≤ results.length →
      ∃ acked s w', (FileWriter.new (new filename buf, results) 0).addRecords ops records
        = some (acked, s, w')) := by
  have hready : (new filename buf).Bounded := ⟨hbuf, Nat.zero_le _⟩
  obtain ⟨hrun, hreturns⟩ := buffered.readAll_acked (f := (new filename buf, results)) (by decide)
    []
    hready rfl rfl records
  refine ⟨hrun, fun henough => hreturns (henough.trans ?_)⟩
  exact Nat.le_add_left _ _

end WindowsWritableFile

end Squirrel
