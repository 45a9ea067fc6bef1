import Squirrel.Db.LogSoundness

/-!
# Damaged logs

Two kinds of damage to a log that the writer wrote: a physical record of a type the reader does not
know, and a block overwritten with arbitrary bytes.

The type byte of a physical record and the reader's own codes for end-of-file and for a bad record
come back through the same return value, so that a record whose type byte is 5 ends the reading, and
one whose type byte is 6 is dropped without a report. All other unknown types are reported and
skipped.

Damage to a block stays in the block: the writer starts every block with a header, and the reader
looks for one there whatever it found before.

## Main results

* `readAll_unknown_type` — an unknown type is reported and skipped unless it is 5 or 6
* `readAll_replaced_block` — records with no fragment in an overwritten block are returned
-/

namespace Squirrel

namespace Log

open Reader (Assembly)

/-! ### Unknown types -/

/-- A record that fits in the current block is put right behind the file. -/
theorem Writer.emitRaw_of_sound {w : Writer} (h : w.InSync) (hs : w.dest.Sound) {b : UInt8}
    {payload : Bytes} (hfit : w.blockOffset + kHeaderSize + payload.length ≤ kBlockSize) :
    (w.emitRaw b payload).2.dest.contents = w.dest.contents ++ rawRecord b payload ∧
      (w.emitRaw b payload).2.dest.Sound ∧ (w.emitRaw b payload).2.InSync ∧
      Valid (w.emitRaw b payload).2.dest.contents w.dest.contents.length b payload := by
  have hcontents : (w.emitRaw b payload).2.dest.contents
      = w.dest.contents ++ rawRecord b payload := by
    simp [emitRaw, WritableFile.append, WritableFile.flush, hs _, rawRecord]
  have hfate : (w.emitRaw b payload).2.dest.fate = w.dest.fate := by
    simp [emitRaw, WritableFile.append, WritableFile.flush, hs _]
  have hoffset : (w.emitRaw b payload).2.blockOffset
      = w.blockOffset + kHeaderSize + payload.length := by
    simp [emitRaw, WritableFile.append, WritableFile.flush, hs _]
  refine ⟨hcontents, fun k => hfate ▸ hs k, ⟨hoffset ▸ hfit, ?_⟩, ⟨?_, ?_⟩⟩
  · rw [hoffset, hcontents, List.length_append, length_rawRecord, Nat.add_assoc, Nat.add_mod, h.2,
      ← Nat.add_mod]
  · have hdrop : (w.emitRaw b payload).2.dest.contents.drop w.dest.contents.length
        = rawRecord b payload := by rw [hcontents, List.drop_left]
    exact hdrop ▸ List.prefix_rfl
  · have hmod := h.2
    simp only [blockLimit, kBlockSize, kHeaderSize] at *
    omega

theorem charToUnsigned_eq_iff {b c : UInt8} (hc : c.toNat < 128) :
    charToUnsigned b = c.toNat ↔ b = c := by
  rw [charToUnsigned]
  constructor
  · intro h
    apply UInt8.toNat_inj.mp
    split at h <;> omega
  · rintro rfl
    rw [if_pos hc]

/-- With nothing under assembly, a record of a type the reader does not know is reported. -/
theorem Reader.Steady.round_unknown {data : Bytes} {p t : ℕ} {r : Reader} (h : r.Steady data p)
    (hreporter : r.reporter = true) (ht : 4 < t) (heof : t ≠ kEof) (hbad : t ≠ kBadRecord)
    (payload : Bytes) :
    r.round .start t payload = .more .start { r with
      reports := r.reports ++ [(payload.length, .corruption s!"unknown record type {t}")] } := by
  have hne : ∀ t' : RecordType, t ≠ t'.toNat := by
    intro t'
    have hle := t'.toNat_le
    omega
  simp only [round]
  rw [if_neg (by rw [h.resyncing]; exact Bool.false_ne_true)]
  simp only [dispatch]
  rw [if_neg (hne _), if_neg (hne _), if_neg (hne _), if_neg (hne _), if_neg heof, if_neg hbad,
    reportCorruption, reportDrop, if_pos ⟨hreporter, by rw [h.initialOffset]; omega⟩]
  rfl

/-- A layout that reaches to the end of the file is read back, silently. -/
theorem Reader.Steady.readFrom_layout {data : Bytes} {p : ℕ} {r : Reader} {records : List Bytes}
    (h : r.Steady data p) (hs : Stream data p (layout p records).flatten data.length)
    (fragment : Bytes) :
    (r.readFrom .start fragment).1.map Prod.fst = records ∧
      (r.readFrom .start fragment).2.reports = r.reports := by
  obtain ⟨r₁, fragment₁, hs₁, -, hreports₁, heq⟩ := h.readFrom_stream hs .start fragment
  obtain ⟨r₂, hread, hreports₂⟩ := hs₁.toAt.readFrom_end le_rfl
    (assemble .start (layout p records).flatten).2 fragment₁
  rw [heq, hread, assemble_layout, List.append_nil]
  exact ⟨map_fst_zip_layout p records, hreports₂.trans (hreports₁ (orderly_layout p records))⟩

/-- A run of records, a record of an unknown type, and a run of records. -/
theorem readAll_unknown {source : SequentialFile} (hsource : source.Sound)
    {before after : List Bytes} {b : UInt8} {payload : Bytes} {p : ℕ} (hb : 4 < b.toNat)
    (hbefore : Stream source.contents 0 (layout 0 before).flatten p)
    (hv : Valid source.contents p b payload)
    (hafter : Stream source.contents (p + kHeaderSize + payload.length)
      (layout (p + kHeaderSize + payload.length) after).flatten source.contents.length) :
    ((∃ reason, (Reader.new source true true 0).readAll.2.reports
        = [(payload.length, .corruption reason)]) ∧
      (Reader.new source true true 0).readAll.1.map Prod.fst = before ++ after) ↔
      b ≠ 5 ∧ b ≠ 6 := by
  have hsteady := Reader.steady_new hsource true true
  obtain ⟨r₁, fragment, hs₁, hadv₁, hreports₁, heq₁⟩ := hsteady.readFrom_stream hbefore .start []
  have hquiet : r₁.reports = [] := hreports₁ (orderly_layout 0 before)
  rw [assemble_layout, ← hsteady.readAll_eq] at heq₁
  -- The reader stands at the unknown record.
  have hfound : skipTrailer source.contents.length p = p := by
    have hin := hv.inBlock
    rw [skipTrailer, if_neg (by omega)]
  obtain ⟨r₂, hphys, hat, hmoved⟩ := hs₁.toAt.readPhysicalRecord_valid (hfound.symm ▸ hv)
    (fun hc => by rw [hc.1] at hb; exact absurd hb (by decide)) fragment
  rw [hfound, hs₁.initialOffset, if_neg (Nat.not_lt_zero p)] at hphys
  rw [hfound] at hat
  have hs₂ := hs₁.moved hat hmoved
  have hreports₂ : r₂.reports = [] := hmoved.reports.trans hquiet
  rw [heq₁]
  by_cases hb5 : b = 5
  · -- Taken for the end of the file.
    rw [(charToUnsigned_eq_iff (c := 5) (by decide)).mpr hb5] at hphys
    rw [Reader.readFrom_eof .start hphys]
    constructor
    · rintro ⟨⟨reason, hreason⟩, -⟩
      rw [hreports₂] at hreason
      exact absurd hreason (by simp)
    · intro hne
      exact absurd hb5 hne.1
  by_cases hb6 : b = 6
  · -- Taken for a bad record.
    rw [(charToUnsigned_eq_iff (c := 6) (by decide)).mpr hb6] at hphys
    have hs₃ : Reader.Steady source.contents (p + kHeaderSize + payload.length)
        { r₂ with resyncing := false } :=
      ⟨⟨hat.sound, hat.bytes, hat.offset, hat.block⟩, hs₂.initialOffset, rfl⟩
    have hskip : r₁.readFrom .start fragment
        = { r₂ with resyncing := false }.readFrom .start payload := by
      rw [Reader.readFrom, Reader.readLoop_more hphys (Reader.round_kBadRecord r₂ payload)]
      rfl
    obtain ⟨-, hrep⟩ := hs₃.readFrom_layout hafter payload
    constructor
    · rintro ⟨⟨reason, hreason⟩, -⟩
      rw [hskip, hrep, hreports₂] at hreason
      exact absurd hreason (by simp)
    · intro hne
      exact absurd hb6 hne.2
  · have hcode : ∀ c : UInt8, c.toNat < 128 → b ≠ c → charToUnsigned b ≠ c.toNat :=
      fun c hc hne heq => hne ((charToUnsigned_eq_iff hc).mp heq)
    have hlarge : 4 < charToUnsigned b := by
      rw [charToUnsigned]
      split <;> omega
    have hround := hs₂.round_unknown (hmoved.reporter.trans hadv₁.reporter) hlarge
      (hcode 5 (by decide) hb5) (hcode 6 (by decide) hb6) payload
    have hskip : r₁.readFrom .start fragment = Reader.readFrom { r₂ with
        reports := r₂.reports
          ++ [(payload.length, .corruption s!"unknown record type {charToUnsigned b}")] }
        .start payload := by
      rw [Reader.readFrom, Reader.readLoop_more hphys hround]
      rfl
    have hs₃ : Reader.Steady source.contents (p + kHeaderSize + payload.length) { r₂ with
        reports := r₂.reports
          ++ [(payload.length, .corruption s!"unknown record type {charToUnsigned b}")] } :=
      ⟨⟨hat.sound, hat.bytes, hat.offset, hat.block⟩, hs₂.initialOffset, hs₂.resyncing⟩
    obtain ⟨hrecords, hrep⟩ := hs₃.readFrom_layout hafter payload
    refine ⟨fun _ => ⟨hb5, hb6⟩, fun _ =>
      ⟨⟨s!"unknown record type {charToUnsigned b}", ?_⟩, ?_⟩⟩
    · rw [hskip, hrep, hreports₂]
      rfl
    · rw [hskip, List.map_append, hrecords, map_fst_zip_layout]

/-- The file that a writer leaves when a record of another type is put between two of its calls. -/
theorem stream_emitRaw {dest : WritableFile} (hdest : dest.Sound) (hempty : dest.contents = [])
    (before after : List Bytes) (b : UInt8) {payload : Bytes}
    (hfit : ((Writer.new dest 0).addRecords before).blockOffset + kHeaderSize + payload.length
      ≤ kBlockSize) {contents : Bytes}
    (hcontents : contents = ((((Writer.new dest 0).addRecords before).emitRaw b
      payload).2.addRecords after).dest.contents) :
    ∃ p, Stream contents 0 (layout 0 before).flatten p ∧ Valid contents p b payload ∧
      Stream contents (p + kHeaderSize + payload.length)
        (layout (p + kHeaderSize + payload.length) after).flatten contents.length := by
  have hnew : (Writer.new dest 0).InSync := by
    have hsync := Writer.inSync_new dest
    rwa [hempty] at hsync
  obtain ⟨hsync₁, hs₁, -, hstream₁⟩ := Writer.addRecords_of_sound hnew hdest before
  set w := (Writer.new dest 0).addRecords before
  obtain ⟨hcontents₂, hs₂, hsync₂, hv⟩ := w.emitRaw_of_sound hsync₁ hs₁ (b := b) hfit
  obtain ⟨-, -, hpre, hstream₃⟩ := Writer.addRecords_of_sound hsync₂ hs₂ after
  have hlen : (w.emitRaw b payload).2.dest.contents.length
      = w.dest.contents.length + kHeaderSize + payload.length := by
    rw [hcontents₂, List.length_append, length_rawRecord, Nat.add_assoc]
  have hwhole : w.dest.contents <+: (w.emitRaw b payload).2.dest.contents := by
    rw [hcontents₂]
    exact List.prefix_append _ _
  change Stream w.dest.contents dest.contents.length (layout dest.contents.length before).flatten _
    at hstream₁
  rw [hempty, List.length_nil] at hstream₁
  rw [hlen, ← hcontents] at hstream₃
  rw [← hcontents] at hpre
  exact ⟨_, hstream₁.mono (hwhole.trans hpre), hv.mono hpre, hstream₃⟩

/-- **Unknown types.** Between two calls of `AddRecord`, a physical record with a correct checksum
and a type byte outside those of the writer is put into the log. It is reported, with the size of
its payload, and all records are returned, if and only if the type byte is neither 5 nor 6. -/
theorem readAll_unknown_type (dest : WritableFile) (hdest : dest.Sound)
    (hempty : dest.contents = []) (before after : List Bytes) (b : UInt8) (hb : 4 < b.toNat)
    (payload : Bytes)
    (hfit : ((Writer.new dest 0).addRecords before).blockOffset + kHeaderSize + payload.length
      ≤ kBlockSize) (source : SequentialFile) (hsource : source.Sound)
    (hcontents : source.contents = ((((Writer.new dest 0).addRecords before).emitRaw b
      payload).2.addRecords after).dest.contents) :
    ((∃ reason, (Reader.new source true true 0).readAll.2.reports
        = [(payload.length, .corruption reason)]) ∧
      (Reader.new source true true 0).readAll.1.map Prod.fst = before ++ after) ↔
      b ≠ 5 ∧ b ≠ 6 := by
  obtain ⟨p, hbefore, hv, hafter⟩ := stream_emitRaw hdest hempty before after b hfit hcontents
  exact readAll_unknown hsource hb hbefore hv hafter

/-- A record of type 101 in front of an empty one. -/
theorem readAll_type_101 :
    (Reader.new
      ⟨(((Writer.new WritableFile.fresh 0).emitRaw 101 [1, 2]).2.addRecords [[]]).dest.contents, 0,
        fun _ => .success⟩ true true 0).readAll.1.map Prod.fst = [[]] :=
  ((readAll_unknown_type WritableFile.fresh (fun _ => rfl) rfl [] [[]] 101 (by decide) [1, 2]
    (by decide) ⟨_, 0, fun _ => .success⟩ (fun _ => rfl) rfl).mpr ⟨by decide, by decide⟩).2

/-- **A type byte that ends the reading.** Behind a record of type 5, nothing is read, and nothing
is reported. -/
theorem type_five_not_reported :
    ¬ ((∃ reason, (Reader.new ⟨(((Writer.new WritableFile.fresh 0).emitRaw 5 []).2.addRecords
          [[]]).dest.contents, 0, fun _ => .success⟩ true true 0).readAll.2.reports
        = [(0, .corruption reason)]) ∧
      (Reader.new ⟨(((Writer.new WritableFile.fresh 0).emitRaw 5 []).2.addRecords
          [[]]).dest.contents, 0, fun _ => .success⟩ true true 0).readAll.1.map Prod.fst
        = [[]]) := by
  intro h
  obtain ⟨p, hbefore, hv, hafter⟩ := @stream_emitRaw WritableFile.fresh (fun _ => rfl) rfl [] [[]] 5
    [] (by decide) _ rfl
  exact ((@readAll_unknown ⟨_, 0, fun _ => .success⟩ (fun _ => rfl) [] [[]] 5 [] p (by decide)
    hbefore hv hafter).mp h).1 rfl

/-! ### An overwritten block: the bytes outside it -/

theorem Stream.of_take {data data' : Bytes} {p q c : ℕ} {fs : List Fragment}
    (h : Stream data p fs q) (hlimit : ∀ f ∈ fs, f.limit ≤ c) (hd : data.take c <+: data') :
    Stream data' p fs q := by
  induction fs generalizing p with
  | nil => exact h
  | cons f fs ih =>
    exact ⟨(h.1.take (hlimit f List.mem_cons_self)).mono hd,
      ih h.2 fun g hg => hlimit g (List.mem_cons_of_mem f hg)⟩

theorem Stream.of_drop {data data' : Bytes} {p q c : ℕ} {fs : List Fragment}
    (h : Stream data p fs q) (hoff : ∀ f ∈ fs, c ≤ f.offset) (hd : data'.drop c = data.drop c) :
    Stream data' p fs q := by
  induction fs generalizing p with
  | nil => exact h
  | cons f fs ih =>
    have hdrop : data'.drop f.offset = data.drop f.offset := by
      rw [← Nat.add_sub_of_le (hoff f List.mem_cons_self), ← List.drop_drop, hd, List.drop_drop]
    exact ⟨⟨h.1.next, h.1.inBlock, hdrop ▸ h.1.stored, h.1.kind⟩,
      ih h.2 fun g hg => hoff g (List.mem_cons_of_mem f hg)⟩

/-! ### An overwritten block: through the block -/

namespace Reader

variable {data : Bytes} {p : ℕ} {r : Reader}

/-- Nothing but end-of-file ends a call without a record. -/
theorem dispatch_none {asm : Assembly} {t offset : ℕ} {fragment : Bytes} {r' : Reader}
    (h : r.dispatch asm t fragment offset = .done none r') : t = kEof := by
  simp only [dispatch] at h
  split_ifs at h <;> cases h
  assumption

/-- A round that does not meet the end of the file leaves the reader where it is. -/
theorem Steady.round_cases (h : Steady data p r) {t : ℕ} (ht : t ≠ kEof) (asm : Assembly)
    (fragment : Bytes) :
    (∃ record r', r.round asm t fragment = .done (some record) r' ∧ Steady data p r' ∧
        r'.checksum = r.checksum) ∨
      ∃ asm' r', r.round asm t fragment = .more asm' r' ∧ Steady data p r' ∧
        r'.checksum = r.checksum := by
  have hkeep : ∀ {r' : Reader}, Noted r r' → r'.resyncing = r.resyncing →
      Steady data p r' ∧ r'.checksum = r.checksum := by
    rintro r' ⟨reports, resyncing, offset, rfl⟩ hres
    exact ⟨⟨⟨h.sound, h.bytes, h.offset, h.block⟩, h.initialOffset, hres.trans h.resyncing⟩, rfl⟩
  have hround : r.round asm t fragment
      = r.dispatch asm t fragment (physicalRecordOffset r fragment) := by
    simp only [round]
    rw [if_neg (by rw [h.resyncing]; exact Bool.false_ne_true)]
    rfl
  rw [hround]
  cases hd : r.dispatch asm t fragment (physicalRecordOffset r fragment) with
  | done record r' =>
    cases record with
    | none => exact absurd (dispatch_none hd) ht
    | some record =>
      obtain ⟨hnoted, hres, -⟩ := dispatch_done hd
      exact Or.inl ⟨record, r', rfl, hkeep hnoted hres⟩
  | more asm' r' =>
    obtain ⟨hnoted, hres, -⟩ := dispatch_more hd
    exact Or.inr ⟨asm', r', rfl, hkeep hnoted hres⟩

/-- A bad record clears the assembly. -/
theorem Steady.round_bad (h : Steady data p r) (asm : Assembly) (fragment : Bytes) :
    ∃ asm' r', r.round asm kBadRecord fragment = .more asm' r' ∧ Steady data p r' ∧
      r'.checksum = r.checksum ∧ asm'.inFragmentedRecord = false := by
  rcases h.round_cases (t := kBadRecord) (by decide) asm fragment with
    ⟨record, r', hround, -⟩ | ⟨asm', r', hround, hs, hck⟩
  · obtain ⟨-, hcases⟩ := round_done hround
    rcases hcases with ⟨ht, -⟩ | ⟨ht, -⟩ <;> exact absurd ht (by decide)
  · obtain ⟨-, -, hcases⟩ := round_more hround
      fun hr => absurd (h.resyncing.symm.trans hr) Bool.false_ne_true
    rcases hcases with hout | ⟨ht, -⟩ | ⟨ht, -⟩
    · exact ⟨asm', r', hround, hs, hck, hout⟩
    · exact absurd ht (by decide)
    · exact absurd ht (by decide)

/-- What reading from `r` on comes to: some records, and then what reading from `r'` on comes to. -/
def Continues (r : Reader) (asm : Assembly) (fragment : Bytes) (extra : List (Bytes × ℕ))
    (r' : Reader) (asm' : Assembly) (fragment' : Bytes) : Prop :=
  r.readFrom asm fragment
    = (extra ++ (r'.readFrom asm' fragment').1, (r'.readFrom asm' fragment').2)

theorem Continues.refl (r : Reader) (asm : Assembly) (fragment : Bytes) :
    Continues r asm fragment [] r asm fragment := rfl

/-- A round that completes a record. -/
theorem Continues.done {r₁ r₂ r' : Reader} {asm asm' : Assembly}
    {fragment fragment₁ fragment' record : Bytes} {t : ℕ} {extra : List (Bytes × ℕ)}
    (hphys : r.readPhysicalRecord fragment = (t, fragment₁, r₁))
    (hround : r₁.round asm t fragment₁ = .done (some record) r₂) (hs : Steady data p r₂)
    (h : Continues r₂ .start [] extra r' asm' fragment') :
    Continues r asm fragment ((record, r₂.lastRecordOffset) :: extra) r' asm' fragment' := by
  rw [Continues, readFrom, readLoop_done hphys hround]
  simp only [hs.readAll_eq]
  rw [h]
  rfl

/-- Any other round. -/
theorem readFrom_more {r₁ r₂ : Reader} {asm asm' : Assembly} {fragment fragment₁ : Bytes} {t : ℕ}
    (hphys : r.readPhysicalRecord fragment = (t, fragment₁, r₁))
    (hround : r₁.round asm t fragment₁ = .more asm' r₂) :
    r.readFrom asm fragment = r₂.readFrom asm' fragment₁ := by
  rw [readFrom, readLoop_more hphys hround]
  rfl

/-- The outcome of reading through a block that ends at `limit`: the file ends in the block, or the
reader looks for its next header at the end of the block. -/
def Leaves (data : Bytes) (limit : ℕ) (r : Reader) (asm : Assembly) (fragment : Bytes)
    (extra : List (Bytes × ℕ)) : Prop :=
  (data.length < limit ∧ ∃ r', r.readFrom asm fragment = (extra, r')) ∨
    ∃ p' r' asm' fragment', Steady data p' r' ∧ skipTrailer data.length p' = limit ∧
      Continues r asm fragment extra r' asm' fragment'

theorem Leaves.congr {limit : ℕ} {r₁ : Reader} {asm asm₁ : Assembly} {fragment fragment₁ : Bytes}
    {extra : List (Bytes × ℕ)} (h : Leaves data limit r₁ asm₁ fragment₁ extra)
    (heq : r.readFrom asm fragment = r₁.readFrom asm₁ fragment₁) :
    Leaves data limit r asm fragment extra := by
  simp only [Leaves, Continues, heq] at h ⊢
  exact h

/-- **Through a block of arbitrary bytes.** Whatever the records in it, as long as none has an
unknown type, the reader comes to the start of the next block, or to the end of the file within the
block. -/
theorem Steady.readFrom_block {limit : ℕ} (h : Steady data p r) (hcheck : r.checksum = true)
    (hblock : limit % kBlockSize = 0) (hp : p ≤ limit)
    (hq : limit ≤ skipTrailer data.length p + kBlockSize)
    (hknown : ∀ q b payload, limit ≤ q + kBlockSize → q < limit → Valid data q b payload →
      b.toNat ≤ 4) (asm : Assembly) (fragment : Bytes) :
    ∃ extra, Leaves data limit r asm fragment extra := by
  induction hn : limit - p using Nat.strong_induction_on generalizing p r asm fragment with
  | _ n ih =>
    set q := skipTrailer data.length p with hqdef
    have hle : p ≤ q := le_skipTrailer _ _
    rcases Nat.lt_or_ge q limit with hlt | hge
    · have hlimit : blockLimit q = limit := by
        simp only [blockLimit, kBlockSize] at *
        omega
      -- One step further, the argument repeats itself.
      have hnext : ∀ {p' : ℕ} {r' : Reader}, Steady data p' r' → r'.checksum = true → q < p' →
          p' ≤ limit → ∀ (asm : Assembly) (fragment : Bytes),
            ∃ extra, Leaves data limit r' asm fragment extra := by
        intro p' r' hs hck hlt' hle' asm fragment
        have hskip := le_skipTrailer data.length p'
        exact ih (limit - p') (by omega) hs hck hle' (by omega) asm fragment rfl
      rcases h.toAt.readPhysicalRecord_cases hcheck fragment with
        ⟨b, payload, hv, hzero⟩ | ⟨hend, r₁, hphys, -⟩ | ⟨r₁, reports, hphys, hat, hm, hbefore⟩
      · obtain ⟨r₁, hphys, hat, hm⟩ := h.toAt.readPhysicalRecord_valid hv hzero fragment
        rw [h.initialOffset, if_neg (Nat.not_lt_zero _)] at hphys
        have hb := hknown q b payload hq hlt hv
        have ht : charToUnsigned b ≠ kEof := by
          rw [charToUnsigned, if_pos (by omega), kEof, kMaxRecordType, RecordType.toNat]
          omega
        have hin : q + kHeaderSize + payload.length ≤ blockLimit q := hv.inBlock
        have hpos : 0 < kHeaderSize := by decide
        rcases (h.moved hat hm).round_cases ht asm payload with
          ⟨record, r₂, hround, hs, hck⟩ | ⟨asm', r₂, hround, hs, hck⟩
        · obtain ⟨extra, hleaves⟩ := hnext hs (hck.trans (hm.checksum.trans hcheck)) (by omega)
            (by omega) .start []
          refine ⟨(record, r₂.lastRecordOffset) :: extra, ?_⟩
          rcases hleaves with ⟨hend, r', hread⟩ | ⟨p', r', asm', fragment', hs', hskip, hcont⟩
          · refine Or.inl ⟨hend, r', ?_⟩
            rw [readFrom, readLoop_done hphys hround]
            simp only [hs.readAll_eq, hread]
          · exact Or.inr ⟨p', r', asm', fragment', hs', hskip, hcont.done hphys hround hs⟩
        · obtain ⟨extra, hleaves⟩ := hnext hs (hck.trans (hm.checksum.trans hcheck)) (by omega)
            (by omega) asm' payload
          exact ⟨extra, hleaves.congr (readFrom_more hphys hround)⟩
      · exact ⟨[], Or.inl ⟨hlimit ▸ hend, _, readFrom_eof asm hphys⟩⟩
      · have hs₁ : Steady data (min (blockLimit q) data.length) r₁ :=
          ⟨hat, hm.initialOffset.trans h.initialOffset, hm.resyncing.trans h.resyncing⟩
        obtain ⟨asm', r₂, hround, hs, hck, -⟩ := hs₁.round_bad asm fragment
        obtain ⟨extra, hleaves⟩ := hnext hs (hck.trans (hm.checksum.trans hcheck)) (by omega)
          (by omega) asm' fragment
        exact ⟨extra, hleaves.congr (readFrom_more hphys hround)⟩
    · -- The next header is looked for at the end of the block.
      have hreach : q = limit := by
        rw [hqdef, skipTrailer] at hge ⊢
        split at hge
        · next hc =>
          rw [if_pos hc]
          simp only [blockLimit, kBlockSize, kHeaderSize] at *
          omega
        · next hc =>
          rw [if_neg hc]
          omega
      exact ⟨[], Or.inr ⟨p, r, asm, fragment, h, hreach, .refl r asm fragment⟩⟩

/-- **A block that does not begin with a record** is dropped, and so is what was under assembly. -/
theorem Steady.readFrom_bad_block {limit : ℕ} (h : Steady data p r) (hcheck : r.checksum = true)
    (hblock : limit % kBlockSize = 0) (hq : skipTrailer data.length p + kBlockSize = limit)
    (hnone : ∀ b payload, ¬ Valid data (skipTrailer data.length p) b payload) (asm : Assembly)
    (fragment : Bytes) :
    (data.length < limit ∧ ∃ r', r.readFrom asm fragment = ([], r')) ∨
      ∃ r' asm', Steady data limit r' ∧ asm'.inFragmentedRecord = false ∧
        r.readFrom asm fragment = r'.readFrom asm' fragment := by
  set q := skipTrailer data.length p
  have hlimit : blockLimit q = limit := by
    simp only [blockLimit, kBlockSize] at *
    omega
  rcases h.toAt.readPhysicalRecord_cases hcheck fragment with
    ⟨b, payload, hv, -⟩ | ⟨hend, r₁, hphys, -⟩ | ⟨r₁, reports, hphys, hat, hm, -⟩
  · exact absurd hv (hnone b payload)
  · exact Or.inl ⟨hlimit ▸ hend, _, readFrom_eof asm hphys⟩
  · have hs₁ : Steady data (min (blockLimit q) data.length) r₁ :=
      ⟨hat, hm.initialOffset.trans h.initialOffset, hm.resyncing.trans h.resyncing⟩
    obtain ⟨asm', r₂, hround, hs, -, hout⟩ := hs₁.round_bad asm fragment
    rw [readFrom_more hphys hround]
    rcases Nat.lt_or_ge data.length limit with hlt | hge
    · rw [hlimit, min_eq_right hlt.le] at hs
      obtain ⟨r', hread, -⟩ := hs.toAt.readFrom_end le_rfl asm' fragment
      exact Or.inl ⟨hlt, r', hread⟩
    · rw [hlimit, min_eq_left hge] at hs
      exact Or.inr ⟨r₂, asm', hs, hout, rfl⟩

end Reader

/-! ### An overwritten block: the records outside it -/

/-- None of the fragments is in block `b`. -/
def Avoids (b : ℕ) (fs : List Fragment) : Bool := fs.all fun f => f.offset / kBlockSize ≠ b

theorem avoids_iff {b : ℕ} {fs : List Fragment} :
    Avoids b fs = true ↔ ∀ f ∈ fs, f.offset / kBlockSize ≠ b := by
  simp [Avoids]

theorem lt_block_of_ne {offset b : ℕ} (hlt : offset < (b + 1) * kBlockSize)
    (hne : offset / kBlockSize ≠ b) : offset < b * kBlockSize := by
  have hpos : 0 < kBlockSize := by decide
  have hdiv : offset / kBlockSize < b + 1 := (Nat.div_lt_iff_lt_mul hpos).mpr hlt
  exact (Nat.div_lt_iff_lt_mul hpos).mp (by omega)

/-- What is in front of a block and starts in another ends in front of it. -/
theorem le_block_of_ne {offset limit b : ℕ} (hle : offset ≤ b * kBlockSize)
    (hne : offset / kBlockSize ≠ b) (hin : limit ≤ blockLimit offset) : limit ≤ b * kBlockSize := by
  have hpos : 0 < kBlockSize := by decide
  have hlt : offset < (b + 1) * kBlockSize := by
    rw [Nat.succ_mul]
    omega
  have hdiv : offset / kBlockSize + 1 ≤ b :=
    (Nat.div_lt_iff_lt_mul hpos).mpr (lt_block_of_ne hlt hne)
  exact hin.trans (Nat.mul_le_mul_right _ hdiv)

theorem div_ne_of_block_le {offset b : ℕ} (h : (b + 1) * kBlockSize ≤ offset) :
    offset / kBlockSize ≠ b := by
  have hdiv : b + 1 ≤ offset / kBlockSize := (Nat.le_div_iff_mul_le (by decide)).mpr h
  omega

theorem block_lt_of_le_nextHeader {p b : ℕ} (h : (b + 1) * kBlockSize ≤ nextHeader p) :
    b * kBlockSize < p := by
  have hle : kHeaderSize ≤ kBlockSize := by decide
  have hlt : nextHeader p < p + kHeaderSize := by
    have hpos : 0 < kHeaderSize := by decide
    rw [nextHeader]
    split <;> omega
  rw [Nat.succ_mul] at h
  omega

/-- A run of fragments cannot jump over a block. -/
theorem Stream.limit_le_of_avoids {data : Bytes} {p q b : ℕ} {fs : List Fragment}
    (h : Stream data p fs q) (hp : p ≤ b * kBlockSize) (havoid : Avoids b fs = true) :
    ∀ f ∈ fs, f.limit ≤ b * kBlockSize := by
  induction fs generalizing p with
  | nil => exact fun _ hf => absurd hf List.not_mem_nil
  | cons f fs ih =>
    rw [avoids_iff] at havoid
    have hne := havoid f List.mem_cons_self
    have hle : f.offset ≤ b * kBlockSize := by
      have hmono := nextHeader_mono hp
      rwa [h.1.next, nextHeader_of_mod_eq_zero (Nat.mul_mod_left b kBlockSize)] at hmono
    have hin := h.1.inBlock
    have hf : f.limit ≤ b * kBlockSize := le_block_of_ne hle hne hin
    intro g hg
    rcases List.mem_cons.mp hg with rfl | hg'
    · exact hf
    · exact ih h.2 hf (avoids_iff.mpr fun f' hf' => havoid f' (List.mem_cons_of_mem f hf')) g hg'

/-- A layout behind a block avoids it. -/
theorem filter_avoids_behind {data : Bytes} {p q b : ℕ} {records : List Bytes}
    (h : Stream data p (layout p records).flatten q) (hp : (b + 1) * kBlockSize ≤ nextHeader p) :
    (records.zip (layout p records)).filter (fun x => Avoids b x.2)
    = records.zip (layout p records) ∧
      (records.zip (layout p records)).filter (fun x => (b + 1) * kBlockSize ≤ recordOffset x.2)
        = records.zip (layout p records) := by
  have hall : ∀ f ∈ (layout p records).flatten, (b + 1) * kBlockSize ≤ f.offset := by
    intro f hf
    exact of_decide_eq_true (List.filter_eq_self.mp (h.filter_eq_self hp) f hf)
  constructor
  · refine List.filter_eq_self.mpr fun x hx => avoids_iff.mpr fun f hf => ?_
    exact div_ne_of_block_le (hall f (List.mem_flatten.mpr ⟨x.2, (List.of_mem_zip hx).2, hf⟩))
  · refine List.filter_eq_self.mpr fun x hx => ?_
    obtain ⟨f, -, hf, hoff⟩ := exists_first_of_mem_zip hx
    rw [hoff]
    exact decide_eq_true (hall f hf)

/-- **The records that avoid a block** are those that end in front of it and those that start behind
it. -/
theorem filter_avoids {data : Bytes} {p q : ℕ} (b : ℕ) {records : List Bytes}
    (h : Stream data p (layout p records).flatten q) :
    (records.zip (layout p records)).filter (fun x => Avoids b x.2)
      = (records.zip (layout p records)).filter (fun x => Within (b * kBlockSize) x.2)
        ++ (records.zip (layout p records)).filter
          (fun x => (b + 1) * kBlockSize ≤ recordOffset x.2) := by
  induction records generalizing p with
  | nil => rfl
  | cons record records ih =>
    by_cases hp : (b + 1) * kBlockSize ≤ nextHeader p
    · obtain ⟨havoid, hbehind⟩ := filter_avoids_behind h hp
      rw [not_within_of_lt (block_lt_of_le_nextHeader hp) h, havoid, hbehind, List.nil_append]
    · rw [layout, List.flatten_cons] at h
      obtain ⟨q', hhead, hrest⟩ := h.split
      have hq := hhead.eq_limitOf
      subst hq
      have hlt : nextHeader p < (b + 1) * kBlockSize := Nat.not_le.mp hp
      rw [layout, List.zip_cons_cons]
      set fs := fragments p true record with hfs
      have hoff : recordOffset fs = nextHeader p := recordOffset_fragments p true record
      have hbehind : ((record, fs) :: records.zip (layout (limitOf p fs) records)).filter
          (fun x => (b + 1) * kBlockSize ≤ recordOffset x.2)
          = (records.zip (layout (limitOf p fs) records)).filter
            (fun x => (b + 1) * kBlockSize ≤ recordOffset x.2) :=
        List.filter_cons_of_neg (by simpa [hoff] using hlt)
      rw [hbehind]
      by_cases havoid : Avoids b fs = true
      · -- The record starts in front of the block, so it ends in front of it.
        have hfirst : nextHeader p / kBlockSize ≠ b := by
          have hmem : ∃ f ∈ fs, f.offset = nextHeader p := by
            rw [hfs, fragments]
            exact ⟨_, List.mem_cons_self, rfl⟩
          obtain ⟨f, hf, heq⟩ := hmem
          exact heq ▸ avoids_iff.mp havoid f hf
        have hle : p ≤ b * kBlockSize :=
          (le_nextHeader p).trans (lt_block_of_ne hlt hfirst).le
        have hwithin : Within (b * kBlockSize) fs = true := by
          have hlimit := hhead.limit_le_of_avoids hle havoid
          simpa [Within] using hlimit
        rw [List.filter_cons_of_pos (by simpa using havoid),
          List.filter_cons_of_pos (by simpa using hwithin), ih hrest, List.cons_append]
      · have hwithin : ¬ Within (b * kBlockSize) fs = true := by
          intro hw
          refine havoid (avoids_iff.mpr fun f hf heq => ?_)
          have hlimit : f.limit ≤ b * kBlockSize := by
            have hle := List.all_eq_true.mp hw f hf
            exact of_decide_eq_true hle
          rw [Fragment.limit] at hlimit
          have hpos : 0 < kHeaderSize := by decide
          have hge : b * kBlockSize ≤ f.offset := heq ▸ Nat.div_mul_le_self f.offset kBlockSize
          omega
        rw [List.filter_cons_of_neg (by simpa using havoid),
          List.filter_cons_of_neg (by simpa using hwithin), ih hrest]

/-- A layout assembles to its records whatever was under assembly before it. -/
theorem map_fst_assemble_layout (asm : Assembly) (p : ℕ) (records : List Bytes) :
    (assemble asm (layout p records).flatten).1.map Prod.fst = records := by
  cases records with
  | nil => rfl
  | cons record records =>
    have hexpects : Assembly.Expects asm true := fun hf => absurd hf (by simp)
    rw [layout, List.flatten_cons, assemble_append, assemble_fragments p true record asm hexpects,
      assemble_layout, List.map_append, map_fst_zip_layout]
    rfl

theorem skipTrailer_of_mod_eq_zero {len p : ℕ} (h : p % kBlockSize = 0) :
    skipTrailer len p = p := by
  rw [skipTrailer, if_neg]
  rw [blockLimit_of_mod_eq_zero h]
  simp only [kBlockSize, kHeaderSize]
  omega

theorem nextHeader_of_skipTrailer {len p q : ℕ} (h : skipTrailer len p = q)
    (hq : q % kBlockSize = 0) : nextHeader p = q := by
  rw [skipTrailer] at h
  split at h
  · next hc => rw [nextHeader, if_pos hc.2, h]
  · rw [h, nextHeader_of_mod_eq_zero hq]

/-- From the start of a block on, what is left of a log is assembled, whatever was under
assembly. -/
theorem Reader.Steady.readFrom_rest {data : Bytes} {p limit : ℕ} {r : Reader} {fs : List Fragment}
    (h : r.Steady data p) (hp : skipTrailer data.length p = limit)
    (hlimit : limit % kBlockSize = 0)
    (hs : fs = [] ∧ data.length ≤ limit ∨ Stream data limit fs data.length) (asm : Assembly)
    (fragment : Bytes) : (r.readFrom asm fragment).1 = (assemble asm fs).1 := by
  cases fs with
  | nil =>
    have hend : data.length ≤ limit := by
      rcases hs with ⟨-, hle⟩ | hs
      · exact hle
      · exact Nat.le_of_eq (Eq.symm hs)
    have hpos : 0 < kHeaderSize := by decide
    obtain ⟨r', hread, -⟩ := h.toAt.readFrom_short (Or.inl (by omega)) asm fragment
    rw [hread]
    rfl
  | cons f fs =>
    rcases hs with ⟨hnil, -⟩ | hs
    · exact absurd hnil (by simp)
    · have hnext : nextHeader p = nextHeader limit := by
        rw [nextHeader_of_skipTrailer hp hlimit, nextHeader_of_mod_eq_zero hlimit]
      obtain ⟨r₁, fragment₁, hs₁, -, -, heq⟩ := h.readFrom_stream (hs.restart hnext) asm fragment
      obtain ⟨r₂, hread, -⟩ := hs₁.toAt.readFrom_end le_rfl (assemble asm (f :: fs)).2 fragment₁
      rw [heq, hread, List.append_nil]

/-- A record in a block that was overwritten is in the bytes it was overwritten with. -/
theorem Valid.prefix_drop {front repl back payload : Bytes} {q : ℕ} {b : UInt8}
    (hv : Valid (front ++ repl ++ back) q b payload) (hq : front.length ≤ q)
    (hfit : q + kHeaderSize + payload.length ≤ front.length + repl.length) :
    rawRecord b payload <+: repl.drop (q - front.length) := by
  have hdrop : (front ++ repl ++ back).drop q = repl.drop (q - front.length) ++ back := by
    rw [List.append_assoc, List.drop_append, List.drop_of_length_le hq, List.nil_append,
      List.drop_append_of_le_length (by omega)]
  have hstored := hv.stored
  rw [hdrop] at hstored
  refine List.prefix_of_prefix_length_le hstored (List.prefix_append _ _) ?_
  rw [length_rawRecord, List.length_drop]
  omega

/-- **A log around one of its blocks.** A run of fragments ends right in front of the block; behind
the block there is at most a remainder, and then a layout. The records that avoid the block are
those the run completes and those of that layout. -/
theorem layout_around {data : Bytes} {records : List Bytes} {b : ℕ}
    (hs : Stream data 0 (layout 0 records).flatten data.length)
    (hb : b * kBlockSize < data.length) :
    ∃ fs q tail p rest, Stream data 0 fs q ∧ (∀ f ∈ fs, f.limit ≤ b * kBlockSize) ∧
      nextHeader q = b * kBlockSize ∧ (tail = [] ∨ Remainder tail) ∧
      (layout 0 records).flatten.filter (fun f => (b + 1) * kBlockSize ≤ f.offset)
        = tail ++ (layout p rest).flatten ∧
      ((records.zip (layout 0 records)).filter fun x => Avoids b x.2).map Prod.fst
        = (assemble .start fs).1.map Prod.fst ++ rest := by
  have hpos : 0 < kBlockSize := by decide
  obtain ⟨fs, hsplit, hbefore⟩ := hs.split_offset (b * kBlockSize)
  have hwhole := hs
  rw [hsplit] at hwhole
  obtain ⟨q, hfs, hrest⟩ := hwhole.split
  have hlimit : ∀ f ∈ fs, f.limit ≤ b * kBlockSize := by
    intro f hf
    have hlt := hbefore f hf
    exact le_block_of_ne hlt.le ((Nat.div_lt_iff_lt_mul hpos).mpr hlt).ne (hfs.inBlock hf)
  have hq : q ≤ b * kBlockSize := hfs.limit_le (Nat.zero_le _) hlimit
  -- The file goes on with a fragment at the start of the block.
  obtain ⟨g, gs, hgs⟩ : ∃ g gs,
      (layout 0 records).flatten.filter (fun f => b * kBlockSize ≤ f.offset) = g :: gs := by
    cases hnil : (layout 0 records).flatten.filter (fun f => b * kBlockSize ≤ f.offset) with
    | nil =>
      rw [hnil] at hrest
      have hend : q = data.length := hrest
      omega
    | cons g gs => exact ⟨g, gs, rfl⟩
  have hg : b * kBlockSize ≤ g.offset := by
    have hmem : g ∈ (layout 0 records).flatten.filter (fun f => b * kBlockSize ≤ f.offset) :=
      hgs ▸ List.mem_cons_self
    exact of_decide_eq_true (List.mem_filter.mp hmem).2
  rw [hgs] at hrest hsplit
  have hnext : nextHeader q = b * kBlockSize := by
    have hmono := nextHeader_mono hq
    rw [nextHeader_of_mod_eq_zero (Nat.mul_mod_left _ _)] at hmono
    have hfirst := hrest.1.next
    omega
  have htake : (layout 0 records).flatten.takeWhile (fun f => f.limit ≤ b * kBlockSize) = fs := by
    rw [hsplit, List.takeWhile_append_of_pos fun f hf => decide_eq_true (hlimit f hf),
      List.takeWhile_cons_of_neg, List.append_nil]
    have hheader : 0 < kHeaderSize := by decide
    rw [decide_eq_true_iff, Fragment.limit]
    omega
  obtain ⟨hwithin, -⟩ := assemble_takeWhile_layout (b * kBlockSize) hs
  rw [htake] at hwithin
  obtain ⟨tail, p, rest, hleft, hfilter, hzip⟩ := layout_filter ((b + 1) * kBlockSize) hs
  refine ⟨fs, q, tail, p, rest, hfs, hlimit, hnext, hleft.imp_right And.left, hfilter, ?_⟩
  have hbehind : ((records.zip (layout 0 records)).filter
      fun x => (b + 1) * kBlockSize ≤ recordOffset x.2).map Prod.fst = rest := by
    rw [List.zip_map_right, List.filter_map] at hzip
    have hmap := congrArg (List.map Prod.fst) hzip
    rw [List.map_map, map_fst_zip_layout] at hmap
    exact hmap
  rw [filter_avoids b hs, List.map_append, hbehind, hwithin]

/-- `contents` is `data` with block `b` overwritten with `repl`. -/
structure Replaced (data repl contents : Bytes) (b : ℕ) : Prop where
  start_lt : b * kBlockSize < data.length
  length_eq : repl.length = min kBlockSize (data.length - b * kBlockSize)
  contents_eq : contents = data.take (b * kBlockSize) ++ repl ++ data.drop ((b + 1) * kBlockSize)

namespace Replaced

variable {data repl contents : Bytes} {b q : ℕ} {fs : List Fragment}

theorem length_front (h : Replaced data repl contents b) :
    (data.take (b * kBlockSize)).length = b * kBlockSize := by
  rw [List.length_take, min_eq_left h.start_lt.le]

theorem length_contents (h : Replaced data repl contents b) : contents.length = data.length := by
  have hsucc : (b + 1) * kBlockSize = b * kBlockSize + kBlockSize := Nat.succ_mul _ _
  have hstart := h.start_lt
  rw [h.contents_eq, List.length_append, List.length_append, h.length_front, h.length_eq,
    List.length_drop]
  omega

/-- What is in front of the block is still there. -/
theorem stream_before (h : Replaced data repl contents b) (hs : Stream data 0 fs q)
    (hlimit : ∀ f ∈ fs, f.limit ≤ b * kBlockSize) : Stream contents 0 fs q := by
  refine hs.of_take hlimit ?_
  rw [h.contents_eq, List.append_assoc]
  exact List.prefix_append _ _

/-- What is behind the block is still there. -/
theorem stream_behind (h : Replaced data repl contents b) (hs : Stream data 0 fs data.length) :
    fs.filter (fun f => (b + 1) * kBlockSize ≤ f.offset) = [] ∧
        contents.length ≤ (b + 1) * kBlockSize ∨
      Stream contents ((b + 1) * kBlockSize)
        (fs.filter fun f => (b + 1) * kBlockSize ≤ f.offset) contents.length := by
  have hblock := hs.from_block (Nat.mul_mod_left (b + 1) kBlockSize) (Nat.zero_le _)
  rw [← h.length_contents] at hblock
  refine hblock.imp_right fun hs => hs.of_drop (c := (b + 1) * kBlockSize) ?_ ?_
  · exact fun f hf => of_decide_eq_true (List.mem_filter.mp hf).2
  · have hsucc : (b + 1) * kBlockSize = b * kBlockSize + kBlockSize := Nat.succ_mul _ _
    have hlen := h.length_contents
    rcases Nat.lt_or_ge data.length ((b + 1) * kBlockSize) with hlt | hge
    · rw [List.drop_of_length_le (by omega), List.drop_of_length_le hlt.le]
    · rw [h.contents_eq]
      refine List.drop_left' ?_
      rw [List.length_append, h.length_front, h.length_eq]
      omega

/-- Records in the block are records in the bytes it was overwritten with. -/
theorem prefix_drop (h : Replaced data repl contents b) {t : UInt8} {payload : Bytes}
    (hge : b * kBlockSize ≤ q) (hlt : q < (b + 1) * kBlockSize) (hv : Valid contents q t payload) :
    rawRecord t payload <+: repl.drop (q - b * kBlockSize) := by
  have hsucc : (b + 1) * kBlockSize = b * kBlockSize + kBlockSize := Nat.succ_mul _ _
  have hend : q + kHeaderSize + payload.length ≤ (b + 1) * kBlockSize := by
    refine hv.inBlock.trans (Nat.mul_le_mul_right _ ?_)
    exact (Nat.div_lt_iff_lt_mul (by decide)).mpr hlt
  have hle := hv.limit_le
  have hlen := h.length_contents
  rw [h.contents_eq] at hv
  have hpre := hv.prefix_drop (by rw [h.length_front]; exact hge)
    (by rw [h.length_front, h.length_eq]; omega)
  rwa [h.length_front] at hpre

end Replaced

/-- Behind a block stands at most a remainder, which is assembled with what was there before, and
then a layout. -/
theorem map_fst_assemble_behind (asm : Assembly) (tail : List Fragment) (p : ℕ)
    (records : List Bytes) :
    (assemble asm (tail ++ (layout p records).flatten)).1.map Prod.fst
      = (assemble asm tail).1.map Prod.fst ++ records := by
  rw [assemble_append, List.map_append, map_fst_assemble_layout]

section

variable {data : Bytes} {p q b : ℕ} {r : Reader} {tail : List Fragment} {rest : List Bytes}

/-- If the file ends in the block, there is nothing behind it. -/
theorem eq_nil_of_length_lt
    (hbehind : tail ++ (layout p rest).flatten = [] ∧ data.length ≤ (b + 1) * kBlockSize ∨
      Stream data ((b + 1) * kBlockSize) (tail ++ (layout p rest).flatten) data.length)
    (hlt : data.length < (b + 1) * kBlockSize) : rest = [] := by
  rcases hbehind with ⟨hnil, -⟩ | hs
  · exact eq_nil_of_layout (List.append_eq_nil_iff.mp hnil).2
  · exact absurd hs.le (Nat.not_le.mpr hlt)

/-- **Over a block of arbitrary bytes**, none of them a record of an unknown type: what is behind it
is returned. -/
theorem Reader.Steady.readFrom_over_block (h : r.Steady data q) (hcheck : r.checksum = true)
    (hq : q ≤ b * kBlockSize) (hskip : skipTrailer data.length q = b * kBlockSize)
    (hbehind : tail ++ (layout p rest).flatten = [] ∧ data.length ≤ (b + 1) * kBlockSize ∨
      Stream data ((b + 1) * kBlockSize) (tail ++ (layout p rest).flatten) data.length)
    (hknown : ∀ q' t payload, b * kBlockSize ≤ q' → q' < (b + 1) * kBlockSize →
      Valid data q' t payload → t.toNat ≤ 4) (asm : Assembly) (fragment : Bytes) :
    rest.Sublist ((r.readFrom asm fragment).1.map Prod.fst) := by
  have hmod : (b + 1) * kBlockSize % kBlockSize = 0 := Nat.mul_mod_left _ _
  have hsucc : (b + 1) * kBlockSize = b * kBlockSize + kBlockSize := Nat.succ_mul _ _
  obtain ⟨extra, hleaves⟩ := h.readFrom_block hcheck hmod (by omega) (by omega)
    (fun q' t payload hge hlt hv => hknown q' t payload (by omega) hlt hv) asm fragment
  rcases hleaves with ⟨hlt, -⟩ | ⟨p', r', asm', fragment', hs', hskip', hcont⟩
  · rw [eq_nil_of_length_lt hbehind hlt]
    exact List.nil_sublist _
  · rw [hcont, hs'.readFrom_rest hskip' hmod hbehind asm' fragment', List.map_append,
      map_fst_assemble_behind]
    exact (List.sublist_append_right _ _).trans (List.sublist_append_right _ _)

/-- **Over a block that does not begin with a record**: only what is behind it is returned. -/
theorem Reader.Steady.readFrom_over_bad_block (h : r.Steady data q) (hcheck : r.checksum = true)
    (hskip : skipTrailer data.length q = b * kBlockSize) (htail : tail = [] ∨ Remainder tail)
    (hbehind : tail ++ (layout p rest).flatten = [] ∧ data.length ≤ (b + 1) * kBlockSize ∨
      Stream data ((b + 1) * kBlockSize) (tail ++ (layout p rest).flatten) data.length)
    (hbad : ∀ t payload, ¬ Valid data (b * kBlockSize) t payload) (asm : Assembly)
    (fragment : Bytes) : (r.readFrom asm fragment).1.map Prod.fst = rest := by
  have hmod : (b + 1) * kBlockSize % kBlockSize = 0 := Nat.mul_mod_left _ _
  have hsucc : (b + 1) * kBlockSize = b * kBlockSize + kBlockSize := Nat.succ_mul _ _
  rcases h.readFrom_bad_block hcheck hmod (by omega) (by rwa [hskip]) asm fragment with
    ⟨hlt, r', hread⟩ | ⟨r', asm', hs', hout, hread⟩
  · rw [hread, eq_nil_of_length_lt hbehind hlt]
    rfl
  · have hnothing : (assemble asm' tail).1 = [] := by
      rcases htail with rfl | hrem
      · rfl
      · rw [hrem.assemble hout]
    rw [hread, hs'.readFrom_rest (skipTrailer_of_mod_eq_zero hmod) hmod hbehind asm' fragment,
      map_fst_assemble_behind, hnothing]
    rfl

end

/-- **Damage stays in its block.** In a log, block `b` is overwritten with arbitrary bytes that hold
no record of an unknown type. The reader returns, in their order, at least the records that have no
fragment in the block, and exactly these if the block does not begin with a record of the format.
The first conjunct says where the fragments were. -/
theorem readAll_replaced_block (dest : WritableFile) (hdest : dest.Sound)
    (hempty : dest.contents = []) (cuts : List (List Bytes)) (b : ℕ)
    (hb : b * kBlockSize < (sessions dest cuts).contents.length) (repl : Bytes)
    (hlen : repl.length
      = min kBlockSize ((sessions dest cuts).contents.length - b * kBlockSize))
    (hknown : ∀ i t payload, rawRecord t payload <+: repl.drop i → t.toNat ≤ 4)
    (source : SequentialFile) (hsource : source.Sound)
    (hcontents : source.contents = (sessions dest cuts).contents.take (b * kBlockSize) ++ repl
      ++ (sessions dest cuts).contents.drop ((b + 1) * kBlockSize)) (reporter : Bool) :
    Stream (sessions dest cuts).contents 0 (layout 0 cuts.flatten).flatten
        (sessions dest cuts).contents.length ∧
      (((cuts.flatten.zip (layout 0 cuts.flatten)).filter fun x => Avoids b x.2).map
        Prod.fst).Sublist ((Reader.new source reporter true 0).readAll.1.map Prod.fst) ∧
      ((∀ t payload, ¬ rawRecord t payload <+: repl) →
        (Reader.new source reporter true 0).readAll.1.map Prod.fst
          = ((cuts.flatten.zip (layout 0 cuts.flatten)).filter fun x => Avoids b x.2).map
            Prod.fst) := by
  have hstream := (stream_sessions hdest cuts).2
  rw [hempty, List.length_nil] at hstream
  refine ⟨hstream, ?_⟩
  set data := (sessions dest cuts).contents
  set records := cuts.flatten
  have hrepl : Replaced data repl source.contents b := ⟨hb, hlen, hcontents⟩
  obtain ⟨fs, q, tail, p, rest, hfs, hlimit, hnext, htail, hfilter, hkept⟩ :=
    layout_around hstream hb
  have hbehind := hrepl.stream_behind hstream
  rw [hfilter] at hbehind
  have hsteady := Reader.steady_new hsource reporter true
  obtain ⟨r₁, fragment, hs₁, hadv₁, -, heq₁⟩ :=
    hsteady.readFrom_stream (hrepl.stream_before hfs hlimit) .start []
  have hskip : skipTrailer source.contents.length q = b * kBlockSize := by
    rw [skipTrailer_eq_nextHeader (by rw [hnext, hrepl.length_contents]; exact hb.le), hnext]
  rw [hkept, hsteady.readAll_eq, heq₁, List.map_append]
  constructor
  · have hknown' : ∀ q' t payload, b * kBlockSize ≤ q' → q' < (b + 1) * kBlockSize →
        Valid source.contents q' t payload → t.toNat ≤ 4 :=
      fun q' t payload hge hlt hv => hknown _ t payload (hrepl.prefix_drop hge hlt hv)
    exact (List.Sublist.refl _).append (hs₁.readFrom_over_block hadv₁.checksum
      (hnext ▸ le_nextHeader q) hskip hbehind hknown' (assemble .start fs).2 fragment)
  · intro hbegin
    have hbad : ∀ t payload, ¬ Valid source.contents (b * kBlockSize) t payload := by
      intro t payload hv
      have hlt : b * kBlockSize < (b + 1) * kBlockSize :=
        Nat.mul_lt_mul_of_pos_right (Nat.lt_succ_self b) (by decide)
      have hpre := hrepl.prefix_drop le_rfl hlt hv
      rw [Nat.sub_self, List.drop_zero] at hpre
      exact hbegin t payload hpre
    rw [hs₁.readFrom_over_bad_block hadv₁.checksum hskip htail hbehind hbad (assemble .start fs).2
      fragment]

/-- In a region of zeros there is no type byte but zero. -/
theorem eq_zero_of_prefix_zeros {n i : ℕ} {t : UInt8} {payload : Bytes}
    (h : rawRecord t payload <+: (List.replicate n 0).drop i) : t = 0 := by
  have hmem : t ∈ rawRecord t payload := by simp [rawRecord, rawHeader]
  rw [List.drop_replicate] at h
  exact List.eq_of_mem_replicate (h.subset hmem)

/-- The first block of a log is overwritten with zeros. It held the start of a record of 40000
bytes; the record behind that one is still returned. -/
theorem readAll_zero_first_block :
    [[7]].Sublist ((Reader.new ⟨(sessions WritableFile.fresh [[longRecord, [7]]]).contents.take 0
        ++ List.replicate 32768 0
        ++ (sessions WritableFile.fresh [[longRecord, [7]]]).contents.drop 32768, 0,
        fun _ => .success⟩ true true 0).readAll.1.map Prod.fst) := by
  have hlen : longRecord.length = 40000 := List.length_replicate
  have hlong : fragments 0 true longRecord = [⟨0, .kFirstType, longRecord.take 32761⟩,
      ⟨32768, .kLastType, longRecord.drop 32761⟩] := by
    have hlayout := layout_longRecord
    rwa [layout, layout, List.flatten_cons, List.flatten_nil, List.append_nil] at hlayout
  have hend : limitOf 0 (fragments 0 true longRecord) = 40014 := by
    rw [hlong, limitOf_longRecord hlen]
  have hshort : fragments 40014 true [7] = [⟨40014, .kFullType, [7]⟩] := by
    rw [fragments]
    simp [avail, nextHeader, blockLimit, kBlockSize, kHeaderSize, Writer.fragmentType]
  have hlayout : layout 0 [longRecord, [7]] = [[⟨0, .kFirstType, longRecord.take 32761⟩,
      ⟨32768, .kLastType, longRecord.drop 32761⟩], [⟨40014, .kFullType, [7]⟩]] := by
    rw [layout, layout, layout, hend, hshort, hlong]
  have hfile : (sessions WritableFile.fresh [[longRecord, [7]]]).contents.length = 40022 := by
    have h := (@stream_sessions WritableFile.fresh (fun _ => rfl) [[longRecord, [7]]]).2.eq_limitOf
    rw [h]
    change limitOf 0 (layout 0 [longRecord, [7]]).flatten = 40022
    rw [hlayout]
    rfl
  have h := (readAll_replaced_block WritableFile.fresh (fun _ => rfl) rfl [[longRecord, [7]]] 0
    (by rw [hfile]; decide) (List.replicate 32768 0)
    (by rw [hfile, List.length_replicate]; decide)
    (fun i t payload hp => by rw [eq_zero_of_prefix_zeros hp]; decide) ⟨_, 0, fun _ => .success⟩
    (fun _ => rfl) rfl true).2.1
  change List.Sublist (((List.zip [longRecord, [7]] (layout 0 [longRecord, [7]])).filter
    fun x => Avoids 0 x.2).map Prod.fst) _ at h
  rw [hlayout] at h
  exact h

end Log

end Squirrel
