import Squirrel.Db.LogRoundTrip

/-!
# Logs on a failing disk

`AddRecord` drops the status of the `Append` that fills a trailer, and moves the block offset
whether or not the bytes reached the file. As long as neither has bitten, that is, as long as every
call finds the writer in step with its file and gets its trailer written, what was acknowledged is
read back: failed calls leave incomplete runs of fragments behind, which the reader passes over.
Afterwards all is lost: see `lost_record`.

## Main results

* `Writer.Logged.addRecord` — what one call preserves
* `readAll_run` — over a whole run, acknowledged records are read back
-/

namespace Squirrel

namespace Log

open Reader (Assembly)

namespace Writer

/-- Calls of `AddRecord` on one writer: the records that were acknowledged, and the writer at the
end. -/
def run : Writer → List Bytes → List Bytes × Writer
  | w, [] => ([], w)
  | w, record :: records =>
    let (s, w') := w.addRecord record
    let (acked, w'') := run w' records
    (if s.ok then record :: acked else acked, w'')

/-- Every call of the run finds the writer in step with its file, and gets its trailer written. -/
def Undamaged : Writer → List Bytes → Prop
  | _, [] => True
  | w, record :: records => w.InSync ∧ w.TrailerSaved ∧ Undamaged (w.addRecord record).2 records

/-- The file starts with a run of fragments that holds the acknowledged records, and a writer in
step with the file would go on right behind it. -/
def Logged (w : Writer) (acked : List Bytes) : Prop :=
  ∃ fs p, Stream w.dest.contents 0 fs p ∧
    (w.InSync → nextHeader w.dest.contents.length = nextHeader p) ∧
    acked.Sublist ((assemble .start fs).1.map Prod.fst)

theorem logged_new {dest : WritableFile} (h : dest.contents = []) :
    (Writer.new dest 0).Logged [] := by
  refine ⟨[], 0, rfl, fun _ => ?_, List.nil_sublist _⟩
  change nextHeader dest.contents.length = nextHeader 0
  rw [h, List.length_nil]

/-- **One call.** An acknowledged record joins the run; an incomplete one leaves a piece of itself,
which the records behind it survive. -/
theorem Logged.addRecord {w : Writer} {acked : List Bytes} (h : w.Logged acked) (hsync : w.InSync)
    (ht : w.TrailerSaved) (record : Bytes) :
    (w.addRecord record).2.Logged
      (acked ++ if (w.addRecord record).1.ok then [record] else []) := by
  obtain ⟨fs, p, hstream, hnext, hacked⟩ := h
  obtain ⟨done, -, hdone, hpre, -, hok, hsync'⟩ := addRecordLoop_spec w record true hsync ht
  have hp := hnext hsync
  -- The piece that reached the file, seen from the end of the run in front of it.
  obtain ⟨q, hdone', hq⟩ : ∃ q, Stream (w.addRecord record).2.dest.contents p done q ∧
      nextHeader q = nextHeader (limitOf w.dest.contents.length done) := by
    cases done with
    | nil => exact ⟨p, rfl, hp.symm⟩
    | cons f done => exact ⟨_, hdone.restart hp.symm, rfl⟩
  refine ⟨fs ++ done, q, (hstream.mono hpre).append hdone', fun hs => (hsync' hs).trans hq.symm, ?_⟩
  rw [assemble_append, List.map_append]
  refine hacked.append ?_
  split
  · next hs =>
    have hexpects : Assembly.Expects (assemble .start fs).2 true := fun hf => absurd hf (by simp)
    rw [(hok hs).1, assemble_fragments _ true record _ hexpects]
    exact List.Sublist.refl _
  · exact List.nil_sublist _

theorem Logged.run {w : Writer} {acked records : List Bytes} (h : w.Logged acked)
    (hu : w.Undamaged records) : (w.run records).2.Logged (acked ++ (w.run records).1) := by
  induction records generalizing w acked with
  | nil =>
    rw [Writer.run, List.append_nil]
    exact h
  | cons record records ih =>
    obtain ⟨hsync, ht, hu'⟩ := hu
    have hrest := ih (h.addRecord hsync ht record) hu'
    rw [Writer.run]
    split at hrest
    · next hs => simpa [hs] using hrest
    · next hs => simpa [hs] using hrest

end Writer

/-- A reader over a file that holds a run returns at least what the run completes. -/
theorem Writer.Logged.sublist_readAll {w : Writer} {acked : List Bytes} (h : w.Logged acked)
    {source : SequentialFile} (hsource : source.Sound)
    (hcontents : source.contents = w.dest.contents) (reporter : Bool) :
    acked.Sublist ((Reader.new source reporter true 0).readAll.1.map Prod.fst) := by
  obtain ⟨fs, p, hstream, -, hacked⟩ := h
  have hsteady := Reader.steady_new hsource reporter true
  rw [← hcontents] at hstream
  obtain ⟨r', fragment, -, -, -, hread⟩ := hsteady.readFrom_stream hstream .start []
  rw [hsteady.readAll_eq, hread, List.map_append]
  exact hacked.trans (List.sublist_append_left _ _)

/-- **Acknowledged records survive**, in every run each of whose calls finds the writer in step with
its file and gets its trailer written. Calls on the file may fail otherwise as they like. -/
theorem readAll_run (dest : WritableFile) (hempty : dest.contents = []) (records : List Bytes)
    (hu : (Writer.new dest 0).Undamaged records) (source : SequentialFile) (hsource : source.Sound)
    (hcontents : source.contents = ((Writer.new dest 0).run records).2.dest.contents)
    (reporter : Bool) :
    ((Writer.new dest 0).run records).1.Sublist
      ((Reader.new source reporter true 0).readAll.1.map Prod.fst) :=
  ((Writer.logged_new hempty).run hu).sublist_readAll hsource hcontents reporter

/-- A failed flush does no harm: the record before it is in the file, though not acknowledged. -/
theorem readAll_run_failed_flush :
    ((Writer.new (.failingAt 2) 0).run [[1], [2]]).1 = [[2]] ∧
      ((Writer.new (.failingAt 2) 0).run [[1], [2]]).1.Sublist
        ((Reader.new ⟨((Writer.new (.failingAt 2) 0).run [[1], [2]]).2.dest.contents, 0,
          fun _ => .success⟩ true true 0).readAll.1.map Prod.fst) := by
  refine ⟨?_, readAll_run _ rfl _ ?_ _ (fun _ => rfl) rfl _⟩
  · simp [Writer.run, Writer.new, Writer.addRecord, Writer.addRecordLoop, Writer.switchBlock,
      Writer.emitPhysicalRecord, Writer.emitRaw, WritableFile.append, WritableFile.flush,
      WritableFile.failingAt, kBlockSize, kHeaderSize]
  · simp [Writer.Undamaged, Writer.InSync, Writer.TrailerSaved, Writer.new, Writer.addRecord,
      Writer.addRecordLoop, Writer.switchBlock, Writer.emitPhysicalRecord, Writer.emitRaw,
      WritableFile.append, WritableFile.flush, WritableFile.failingAt, kBlockSize, kHeaderSize]

/-- **A lost record.** The header of an eight-byte record reaches the file and its payload does not;
the empty record behind it is acknowledged, and lies where the payload should be. -/
theorem lost_record :
    ((Writer.new (.failingAt 1) 0).run [List.replicate 8 0, []]).1 = [[]] ∧
      ¬ ((Writer.new (.failingAt 1) 0).run [List.replicate 8 0, []]).1.Sublist
        ((Reader.new ⟨((Writer.new (.failingAt 1) 0).run [List.replicate 8 0, []]).2.dest.contents,
          0, fun _ => .success⟩ true true 0).readAll.1.map Prod.fst) := by
  have hrun : (Writer.new (.failingAt 1) 0).run [List.replicate 8 0, []]
      = ([[]], ⟨⟨header .kFullType (List.replicate 8 0) ++ physicalRecord .kFullType [], 5,
          (WritableFile.failingAt 1).fate⟩, 22⟩) := by
    simp [Writer.run, Writer.new, Writer.addRecord, Writer.addRecordLoop, Writer.switchBlock,
      Writer.emitPhysicalRecord, Writer.emitRaw, WritableFile.append, WritableFile.flush,
      WritableFile.failingAt, kBlockSize, kHeaderSize, Writer.fragmentType, physicalRecord, header]
  rw [hrun]
  refine ⟨rfl, ?_⟩
  set source : SequentialFile :=
    ⟨header .kFullType (List.replicate 8 0) ++ physicalRecord .kFullType [], 0, fun _ => .success⟩
  have hsteady := @Reader.steady_new source (fun _ => rfl) true true
  obtain ⟨r₀, hload, hm, hphys⟩ := hsteady.refill []
  have hskip : skipTrailer source.contents.length 0 = 0 := by decide
  rw [hskip] at hload
  have hbuf : r₀.buffer = source.contents := by
    rw [hload.buffer_eq, List.drop_zero, List.take_of_length_le (by decide)]
  rw [if_neg (by rw [hbuf]; decide), Reader.parseRecord_of_eof (hload.eof_iff.mpr (by decide))
    (by rw [hbuf]; decide)] at hphys
  rw [hsteady.readAll_eq, Reader.readFrom_eof _ hphys]
  exact fun h => absurd (List.sublist_nil.mp h) (by simp)

end Log

end Squirrel
