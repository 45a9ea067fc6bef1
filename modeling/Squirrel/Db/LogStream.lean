import Squirrel.Db.LogLayout

/-!
# Reading a run of fragments

`assemble` is what the reader makes of a run of fragments, as a function of the fragments alone: the
logical records it completes, and the record it is in the middle of. The reader over a file that
holds the run does exactly that and then goes on from behind it (`Reader.At.readFrom_stream`), so
every question about what a file reads back as becomes a question about `assemble`.

A run is orderly if no fragment in it is dropped; then nothing is reported. The layout of a record
is orderly, and so is every initial piece of it.

## Main results

* `Reader.At.readFrom_stream` — the reader refines `assemble`
* `assemble_fragments` — the layout of a record assembles to the record
* `assemble_incomplete` — an incomplete layout assembles to nothing
-/

namespace Squirrel

namespace Log

open Reader (Assembly)

/-! ### Assembling -/

/-- What a fragment does to the record under assembly: the record it completes, if any, with the
offset it started at, and what is under assembly afterwards. -/
def absorb (asm : Assembly) (f : Fragment) : Option (Bytes × ℕ) × Assembly :=
  match f.type with
  | .kFullType => (some (f.payload, f.offset), .start)
  | .kFirstType => (none, ⟨f.payload, true, f.offset⟩)
  | .kMiddleType =>
    (none, if asm.inFragmentedRecord then { asm with scratch := asm.scratch ++ f.payload } else asm)
  | .kLastType =>
    if asm.inFragmentedRecord then
      (some (asm.scratch ++ f.payload, asm.prospectiveRecordOffset), .start)
    else (none, asm)
  | .kZeroType => (none, asm)

/-- The fragment is used, and abandons nothing. -/
def Fits (asm : Assembly) (f : Fragment) : Prop :=
  match f.type with
  | .kFullType | .kFirstType => asm.inFragmentedRecord = false ∨ asm.scratch = []
  | .kMiddleType | .kLastType => asm.inFragmentedRecord = true
  | .kZeroType => False

/-- The records that a run of fragments completes, and what is under assembly behind it. -/
def assemble : Assembly → List Fragment → List (Bytes × ℕ) × Assembly
  | asm, [] => ([], asm)
  | asm, f :: fs =>
    ((absorb asm f).1.toList ++ (assemble (absorb asm f).2 fs).1, (assemble (absorb asm f).2 fs).2)

/-- Every fragment of the run fits. -/
def Orderly : Assembly → List Fragment → Prop
  | _, [] => True
  | asm, f :: fs => Fits asm f ∧ Orderly (absorb asm f).2 fs

theorem assemble_append (asm : Assembly) (fs gs : List Fragment) :
    assemble asm (fs ++ gs) =
      ((assemble asm fs).1 ++ (assemble (assemble asm fs).2 gs).1,
        (assemble (assemble asm fs).2 gs).2) := by
  induction fs generalizing asm with
  | nil => rfl
  | cons f fs ih => rw [List.cons_append, assemble, ih, assemble, List.append_assoc]

theorem Orderly.append {asm : Assembly} {fs gs : List Fragment} (h : Orderly asm fs)
    (h' : Orderly (assemble asm fs).2 gs) : Orderly asm (fs ++ gs) := by
  induction fs generalizing asm with
  | nil => exact h'
  | cons f fs ih => exact ⟨h.1, ih h.2 h'⟩

/-! ### The layout of a record -/

/-- What is under assembly when the fragments `fragments p begin left` come: nothing that matters,
or the part of the record in front of `left`. -/
def Assembly.Expects (asm : Assembly) (begin : Bool) : Prop :=
  begin = false → asm.inFragmentedRecord = true

/-- The record that the fragments `fragments p begin left` complete. -/
def Assembly.complete (asm : Assembly) (p : ℕ) (begin : Bool) (left : Bytes) : Bytes × ℕ :=
  if begin then (left, nextHeader p) else (asm.scratch ++ left, asm.prospectiveRecordOffset)

/-- The last fragment completes the record. -/
theorem absorb_last {asm : Assembly} {begin : Bool} (h : Assembly.Expects asm begin) (p : ℕ)
    (left : Bytes) :
    absorb asm ⟨nextHeader p, Writer.fragmentType begin true, left⟩
      = (some (Assembly.complete asm p begin left), .start) := by
  cases begin with
  | true => rfl
  | false => simp [absorb, Writer.fragmentType, h rfl, Assembly.complete]

/-- Any other fragment leaves the record under assembly, the rest of which completes it. -/
theorem absorb_more {asm : Assembly} {begin : Bool} (h : Assembly.Expects asm begin) (p : ℕ)
    (part : Bytes) :
    ∃ asm', absorb asm ⟨nextHeader p, Writer.fragmentType begin false, part⟩ = (none, asm') ∧
      asm'.inFragmentedRecord = true ∧
      ∀ q rest, Assembly.complete asm' q false rest
        = Assembly.complete asm p begin (part ++ rest) := by
  cases begin with
  | true => exact ⟨_, rfl, rfl, fun q rest => rfl⟩
  | false =>
    refine ⟨{ asm with scratch := asm.scratch ++ part }, ?_, h rfl, fun q rest => ?_⟩
    · simp [absorb, Writer.fragmentType, h rfl]
    · simp [Assembly.complete]

/-- **The layout of a record assembles to the record**, whatever was under assembly before. -/
theorem assemble_fragments (p : ℕ) (begin : Bool) (left : Bytes) :
    ∀ asm : Assembly, Assembly.Expects asm begin →
      assemble asm (fragments p begin left) = ([Assembly.complete asm p begin left], .start) := by
  refine fragments_induction (motive := fun p begin left fs => ∀ asm : Assembly,
    Assembly.Expects asm begin → assemble asm fs = ([Assembly.complete asm p begin left], .start))
    ?_ ?_ p begin left
  · intro p begin left asm h
    rw [assemble, absorb_last h]
    rfl
  · intro p begin left n fs ih asm h
    obtain ⟨asm', habsorb, hin, hcomplete⟩ := absorb_more h p (left.take n)
    rw [assemble, habsorb, ih asm' fun _ => hin, hcomplete, List.take_append_drop]
    rfl

/-- **An incomplete layout assembles to nothing.** -/
theorem assemble_incomplete (p : ℕ) (begin : Bool) (left : Bytes) :
    ∀ (asm : Assembly) (done : List Fragment), Assembly.Expects asm begin →
      done <+: fragments p begin left → done ≠ fragments p begin left →
      (assemble asm done).1 = [] := by
  refine fragments_induction (motive := fun _ begin _ fs => ∀ (asm : Assembly)
    (done : List Fragment), Assembly.Expects asm begin → done <+: fs → done ≠ fs →
      (assemble asm done).1 = []) ?_ ?_ p begin left
  · intro p begin left asm done _ hdone hne
    rcases List.prefix_cons_iff.mp hdone with rfl | ⟨done', rfl, hnil⟩
    · rfl
    · exact absurd (by rw [List.prefix_nil.mp hnil]) hne
  · intro p begin left n fs ih asm done h hdone hne
    rcases List.prefix_cons_iff.mp hdone with rfl | ⟨done', rfl, hdone'⟩
    · rfl
    · obtain ⟨asm', habsorb, hin, -⟩ := absorb_more h p (left.take n)
      rw [assemble, habsorb]
      exact ih asm' done' (fun _ => hin) hdone' fun heq => hne (by rw [heq])

/-- A fragment of a layout fits where it is expected. -/
theorem fits_fragment {asm : Assembly} {begin : Bool} (h : Assembly.Expects asm begin)
    (hclean : begin = true → asm.inFragmentedRecord = false) (offset : ℕ) (atEnd : Bool)
    (part : Bytes) : Fits asm ⟨offset, Writer.fragmentType begin atEnd, part⟩ := by
  cases begin with
  | true => cases atEnd <;> exact Or.inl (hclean rfl)
  | false => cases atEnd <;> exact h rfl

/-- Every initial piece of a layout is orderly, if it abandons nothing. -/
theorem orderly_initial (p : ℕ) (begin : Bool) (left : Bytes) :
    ∀ (asm : Assembly) (done : List Fragment), Assembly.Expects asm begin →
      (begin = true → asm.inFragmentedRecord = false) → done <+: fragments p begin left →
      Orderly asm done := by
  refine fragments_induction (motive := fun _ begin _ fs => ∀ (asm : Assembly)
    (done : List Fragment), Assembly.Expects asm begin →
      (begin = true → asm.inFragmentedRecord = false) → done <+: fs → Orderly asm done)
    ?_ ?_ p begin left
  · intro p begin left asm done h hclean hdone
    rcases List.prefix_cons_iff.mp hdone with rfl | ⟨done', rfl, hnil⟩
    · exact trivial
    · rw [List.prefix_nil.mp hnil]
      exact ⟨fits_fragment h hclean _ _ _, trivial⟩
  · intro p begin left n fs ih asm done h hclean hdone
    rcases List.prefix_cons_iff.mp hdone with rfl | ⟨done', rfl, hdone'⟩
    · exact trivial
    · obtain ⟨asm', habsorb, hin, -⟩ := absorb_more h p (left.take n)
      refine ⟨fits_fragment h hclean _ _ _, ?_⟩
      rw [habsorb]
      exact ih asm' done' (fun _ => hin) (fun hf => absurd hf (by simp)) hdone'

/-! ### The reader over a run -/

namespace Reader

/-- The records of `readAll`, from the middle of a call of `ReadRecord`. -/
def readFrom (r : Reader) (asm : Assembly) (fragment : Bytes) : List (Bytes × ℕ) × Reader :=
  match r.readLoop asm fragment with
  | (none, r') => ([], r')
  | (some record, r') => ((record, r'.lastRecordOffset) :: r'.readAll.1, r'.readAll.2)

/-- A reader from offset zero on, at offset `p`. -/
structure Steady (data : Bytes) (p : ℕ) (r : Reader) : Prop extends At data p r where
  initialOffset : r.initialOffset = 0
  resyncing : r.resyncing = false

theorem steady_new {file : SequentialFile} (h : file.Sound) (reporter checksum : Bool) :
    Steady file.contents 0 (Reader.new file reporter checksum 0) :=
  ⟨at_new h reporter checksum 0, rfl, rfl⟩

variable {data : Bytes} {p : ℕ} {r r' : Reader}

theorem Steady.moved (h : Steady data p r) {q : ℕ} (hat : At data q r') (hm : Moved r r') :
    Steady data q r' :=
  ⟨hat, hm.initialOffset.trans h.initialOffset, hm.resyncing.trans h.resyncing⟩

/-- Where the reader stands does not depend on what it has reported and returned. -/
theorem At.bookkeeping (h : At data p r) (offset : ℕ) (reports : List (ℕ × Status)) :
    At data p { r with lastRecordOffset := offset, reports := reports } :=
  ⟨h.sound, h.bytes, h.offset, h.block⟩

/-! ### Reports -/

/-- `r'` differs from `r` at most in having reported more, if there is a reporter. -/
def Reported (r r' : Reader) : Prop :=
  ∃ more, r' = { r with reports := r.reports ++ more } ∧ (r.reporter = false → more = [])

theorem reported_refl (r : Reader) : Reported r r :=
  ⟨[], by rw [List.append_nil], fun _ => rfl⟩

theorem reported_reportCorruption (r : Reader) (bytes : ℕ) (reason : String) :
    Reported r (r.reportCorruption bytes reason) := by
  rw [reportCorruption, reportDrop]
  split
  · next hc => exact ⟨_, rfl, fun hr => absurd (hr.symm.trans hc.1) Bool.false_ne_true⟩
  · exact reported_refl r

theorem reported_abandonPartial (r : Reader) (asm : Assembly) (reason : String) :
    Reported r (r.abandonPartial asm reason) := by
  rw [abandonPartial]
  split
  · exact reported_reportCorruption r _ _
  · exact reported_refl r

theorem abandonPartial_of_fits {asm : Assembly}
    (h : asm.inFragmentedRecord = false ∨ asm.scratch = []) (r : Reader) (reason : String) :
    r.abandonPartial asm reason = r := by
  rw [abandonPartial, if_neg]
  rintro ⟨hin, hne⟩
  rcases h with hout | hnil
  · exact absurd (hin.symm.trans hout) (by simp)
  · exact absurd (show asm.scratch.isEmpty = true by rw [hnil]; rfl) hne

/-! ### Rounds -/

theorem readAll_of_readLoop (h : r.readRecord = r'.readLoop .start []) :
    r.readAll = r'.readFrom .start [] := by
  rw [readFrom]
  split
  · next heq => exact readAll_of_none (h.trans heq)
  · next heq => exact readAll_of_some (h.trans heq)

/-- Past its initial offset, a reader does not skip anything at the start of a call. -/
theorem readAll_eq_readFrom (h : r.initialOffset ≤ r.lastRecordOffset) :
    r.readAll = r.readFrom .start [] :=
  readAll_of_readLoop (by rw [readRecord, if_neg (Nat.not_lt.mpr h)])

theorem Steady.readAll_eq (h : Steady data p r) : r.readAll = r.readFrom .start [] :=
  readAll_eq_readFrom (h.initialOffset ▸ Nat.zero_le _)

/-- Behind a physical record, the offset it started at. -/
theorem At.physicalRecordOffset {q : ℕ} {payload : Bytes}
    (h : At data (q + kHeaderSize + payload.length) r) :
    sub64 (sub64 (sub64 r.endOfBufferOffset r.buffer.length) kHeaderSize) payload.length = q := by
  have hsum : q + kHeaderSize + payload.length + r.buffer.length
      = q + (kHeaderSize + payload.length + r.buffer.length) := by omega
  rw [h.offset, hsum, sub64_header]

/-- The fragment begins a record. -/
def Begins (f : Fragment) : Prop := f.type = .kFullType ∨ f.type = .kFirstType

/-- **A round absorbs its fragment.** The reader may report something, and when a record is complete
it notes where the record started. A fragment that begins a record ends a resynchronisation. -/
theorem At.round_fragment {f : Fragment} (h : At data f.limit r) (hkind : f.type ≠ .kZeroType)
    (hres : r.resyncing = true → Begins f) (asm : Assembly) :
    ∃ r₁, Reported { r with resyncing := false } r₁ ∧
      (Fits asm f → r₁ = { r with resyncing := false }) ∧
      ((∃ record offset, absorb asm f = (some (record, offset), .start) ∧
          r.round asm f.type.toNat f.payload
            = .done (some record) { r₁ with lastRecordOffset := offset }) ∨
        ∃ asm', absorb asm f = (none, asm') ∧
          r.round asm f.type.toNat f.payload = .more asm' r₁) := by
  have hround : r.round asm f.type.toNat f.payload
      = { r with resyncing := false }.dispatch asm f.type.toNat f.payload f.offset := by
    simp only [round, h.physicalRecordOffset]
    cases hr : r.resyncing with
    | true => rcases hres hr with ht | ht <;> rw [ht] <;> rfl
    | false =>
      have heq : r = { r with resyncing := false } := by rw [← hr]
      rw [← heq]
      rfl
  set r := { r with resyncing := false } with hrdef
  simp only [hround, dispatch, absorb, Fits]
  cases htype : f.type with
  | kZeroType => exact absurd htype hkind
  | kFullType =>
    refine ⟨r.abandonPartial asm "partial record without end(1)", reported_abandonPartial r asm _,
      fun hfits => abandonPartial_of_fits hfits r _, Or.inl ⟨f.payload, f.offset, rfl, rfl⟩⟩
  | kFirstType =>
    refine ⟨r.abandonPartial asm "partial record without end(2)", reported_abandonPartial r asm _,
      fun hfits => abandonPartial_of_fits hfits r _, Or.inr ⟨_, rfl, rfl⟩⟩
  | kMiddleType =>
    cases hin : asm.inFragmentedRecord with
    | true => exact ⟨r, reported_refl r, fun _ => rfl, Or.inr ⟨_, rfl, rfl⟩⟩
    | false =>
      exact ⟨_, reported_reportCorruption r _ _, fun hc => absurd hc (by simp),
        Or.inr ⟨asm, rfl, rfl⟩⟩
  | kLastType =>
    cases hin : asm.inFragmentedRecord with
    | true => exact ⟨r, reported_refl r, fun _ => rfl, Or.inl ⟨_, _, rfl, rfl⟩⟩
    | false =>
      exact ⟨_, reported_reportCorruption r _ _, fun hc => absurd hc (by simp),
        Or.inr ⟨asm, rfl, rfl⟩⟩

/-- What is under assembly did not start in front of `offset`. -/
def Assembly.StartsAt (asm : Assembly) (offset : ℕ) : Prop :=
  asm.inFragmentedRecord = true → offset ≤ asm.prospectiveRecordOffset

theorem startsAt_start (offset : ℕ) : Assembly.start.StartsAt offset :=
  fun h => absurd h Bool.false_ne_true

/-- A fragment behind `offset` leaves nothing under assembly that started in front of it, and
completes no such record. -/
theorem Assembly.StartsAt.absorb {asm : Assembly} {offset : ℕ} (h : asm.StartsAt offset)
    {f : Fragment} (hf : offset ≤ f.offset) :
    (Log.absorb asm f).2.StartsAt offset ∧
      ∀ record start, (Log.absorb asm f).1 = some (record, start) → offset ≤ start := by
  simp only [Log.absorb]
  cases f.type with
  | kZeroType => exact ⟨h, fun _ _ hc => absurd hc (by simp)⟩
  | kFullType =>
    refine ⟨startsAt_start offset, fun record start hc => ?_⟩
    cases hc
    exact hf
  | kFirstType => exact ⟨fun _ => hf, fun _ _ hc => absurd hc (by simp)⟩
  | kMiddleType =>
    refine ⟨?_, fun _ _ hc => absurd hc (by simp)⟩
    cases hin : asm.inFragmentedRecord with
    | true => exact fun _ => h hin
    | false => exact h
  | kLastType =>
    cases hin : asm.inFragmentedRecord with
    | true =>
      refine ⟨startsAt_start offset, fun record start hc => ?_⟩
      cases hc
      exact h hin
    | false => exact ⟨h, fun _ _ hc => absurd hc (by simp)⟩

/-- `r'` has read on from `r`. -/
structure Advanced (r r' : Reader) : Prop where
  reporter : r'.reporter = r.reporter
  checksum : r'.checksum = r.checksum
  initialOffset : r'.initialOffset = r.initialOffset
  resyncing : r.resyncing = false → r'.resyncing = false
  reports : r.reports <+: r'.reports
  silent : r.reporter = false → r'.reports = r.reports

theorem Advanced.refl (r : Reader) : Advanced r r :=
  ⟨rfl, rfl, rfl, id, List.prefix_rfl, fun _ => rfl⟩

theorem Advanced.trans {r r₁ r₂ : Reader} (h : Advanced r r₁) (h' : Advanced r₁ r₂) :
    Advanced r r₂ :=
  ⟨h'.reporter.trans h.reporter, h'.checksum.trans h.checksum,
    h'.initialOffset.trans h.initialOffset, fun hr => h'.resyncing (h.resyncing hr),
    h.reports.trans h'.reports,
    fun hr => (h'.silent (h.reporter.trans hr)).trans (h.silent hr)⟩

theorem Moved.advanced (h : Moved r r') : Advanced r r' :=
  ⟨h.reporter, h.checksum, h.initialOffset, h.resyncing.trans, h.reports ▸ List.prefix_rfl,
    fun _ => h.reports⟩

theorem Reported.advanced (h : Reported { r with resyncing := false } r') : Advanced r r' := by
  obtain ⟨more, rfl, hmore⟩ := h
  refine ⟨rfl, rfl, rfl, fun _ => rfl, List.prefix_append _ _, fun hr => ?_⟩
  rw [hmore hr, List.append_nil]

theorem Reported.at (h : Reported { r with resyncing := false } r') (hat : At data p r) :
    At data p r' := by
  obtain ⟨more, rfl, -⟩ := h
  exact ⟨hat.sound, hat.bytes, hat.offset, hat.block⟩

theorem Reported.resyncing (h : Reported { r with resyncing := false } r') :
    r'.resyncing = false := by
  obtain ⟨more, rfl, -⟩ := h
  rfl

/-- **The reader refines `assemble`.** Over a run of fragments behind the initial offset, which does
not have to be resynchronised with, it returns the records the run completes, then what it returns
from behind the run on; over an orderly run it reports nothing. -/
theorem At.readFrom_stream {fs : List Fragment} {q : ℕ} (h : At data p r)
    (hs : Stream data p fs q) (hoff : ∀ f ∈ fs, r.initialOffset ≤ f.offset)
    (hres : r.resyncing = true → ∀ f ∈ fs.head?, Begins f) {asm : Assembly}
    (hasm : asm.StartsAt r.initialOffset) (fragment : Bytes) :
    ∃ r' fragment', At data q r' ∧ Advanced r r' ∧ (Orderly asm fs → r'.reports = r.reports) ∧
      r.readFrom asm fragment =
        ((assemble asm fs).1 ++ (r'.readFrom (assemble asm fs).2 fragment').1,
          (r'.readFrom (assemble asm fs).2 fragment').2) := by
  induction fs generalizing p r asm fragment with
  | nil =>
    cases hs
    exact ⟨r, fragment, h, .refl r, fun _ => rfl, rfl⟩
  | cons f fs ih =>
    obtain ⟨hplaced, hrest⟩ := hs
    have hf := hoff f List.mem_cons_self
    obtain ⟨r₁, hphys, hat, hmoved⟩ := h.readPhysicalRecord_placed hplaced hf fragment
    obtain ⟨r₂, hrep, hfits, hround⟩ := hat.round_fragment hplaced.kind
      (fun hr => hres (hmoved.resyncing ▸ hr) f rfl) asm
    have hat₂ := hrep.at hat
    have hadv := hmoved.advanced.trans hrep.advanced
    have hoff₂ : ∀ g ∈ fs, r₂.initialOffset ≤ g.offset := fun g hg =>
      hadv.initialOffset ▸ hoff g (List.mem_cons_of_mem f hg)
    have hres₂ : r₂.resyncing = true → ∀ g ∈ fs.head?, Begins g := fun hr =>
      absurd (hrep.resyncing.symm.trans hr) Bool.false_ne_true
    obtain ⟨hasm', hstart⟩ := hasm.absorb hf
    -- Reports made in this round, if the fragment fits.
    have hquiet : Fits asm f → r₂.reports = r.reports := by
      intro hfit
      rw [hfits hfit]
      exact hmoved.reports
    rcases hround with ⟨record, offset, habsorb, hround⟩ | ⟨asm', habsorb, hround⟩
    · obtain ⟨r', fragment', hat', hadv', hreports', heq⟩ :=
        ih (hat₂.bookkeeping offset r₂.reports) hrest hoff₂ hres₂ (startsAt_start _) []
      refine ⟨r', fragment', hat',
        hadv.trans ⟨hadv'.1, hadv'.2, hadv'.3, hadv'.4, hadv'.5, hadv'.6⟩, fun hord => ?_, ?_⟩
      · rw [Orderly, habsorb] at hord
        exact (hreports' hord.2).trans (hquiet hord.1)
      · have hle : r₂.initialOffset ≤ offset :=
          hadv.initialOffset ▸ hstart record offset (by rw [habsorb])
        rw [readFrom, readLoop_done hphys hround, assemble, habsorb]
        simp only [Option.toList_some, List.cons_append, List.nil_append]
        rw [readAll_eq_readFrom hle, heq]
    · rw [habsorb] at hasm'
      obtain ⟨r', fragment', hat', hadv', hreports', heq⟩ :=
        ih hat₂ hrest hoff₂ hres₂ (hadv.initialOffset ▸ hasm') f.payload
      refine ⟨r', fragment', hat', hadv.trans hadv', fun hord => ?_, ?_⟩
      · rw [Orderly, habsorb] at hord
        exact (hreports' hord.2).trans (hquiet hord.1)
      · rw [readFrom, readLoop_more hphys hround, assemble, habsorb]
        exact heq

/-- The same from offset zero on. -/
theorem Steady.readFrom_stream {fs : List Fragment} {q : ℕ} (h : Steady data p r)
    (hs : Stream data p fs q) (asm : Assembly) (fragment : Bytes) :
    ∃ r' fragment', Steady data q r' ∧ Advanced r r' ∧
      (Orderly asm fs → r'.reports = r.reports) ∧
      r.readFrom asm fragment =
        ((assemble asm fs).1 ++ (r'.readFrom (assemble asm fs).2 fragment').1,
          (r'.readFrom (assemble asm fs).2 fragment').2) := by
  have hzero : ∀ n, r.initialOffset ≤ n := fun n => h.initialOffset ▸ Nat.zero_le n
  obtain ⟨r', fragment', hat, hadv, hreports, heq⟩ :=
    h.toAt.readFrom_stream hs (fun f _ => hzero f.offset)
      (fun hr => absurd (h.resyncing.symm.trans hr) Bool.false_ne_true) (fun _ => hzero _) fragment
  exact ⟨r', fragment', ⟨hat, hadv.initialOffset.trans h.initialOffset,
    hadv.resyncing h.resyncing⟩, hadv, hreports, heq⟩

/-! ### The end of the file -/

/-- End-of-file in a physical read ends the reading, whatever is under assembly. -/
theorem readFrom_eof (asm : Assembly) {fragment fragment' : Bytes}
    (hphys : r.readPhysicalRecord fragment = (kEof, fragment', r')) :
    r.readFrom asm fragment = ([], { r' with resyncing := false }) := by
  have hround : r'.round asm kEof fragment' = .done none { r' with resyncing := false } := by
    simp only [round]
    cases hres : r'.resyncing with
    | true => rfl
    | false => exact congrArg (Round.done none) (by cases r'; cases hres; rfl)
  rw [readFrom, readLoop_done hphys hround]

/-- A file that stops inside a fragment ends silently, whatever is under assembly. -/
theorem At.readFrom_short (h : At data p r)
    (hshort : CutShort data (skipTrailer data.length p)) (asm : Assembly) (fragment : Bytes) :
    ∃ r', r.readFrom asm fragment = ([], r') ∧ r'.reports = r.reports := by
  obtain ⟨r', hphys, hm⟩ := h.readPhysicalRecord_of_short fragment hshort
  exact ⟨_, readFrom_eof asm hphys, hm.reports⟩

/-- At the end of the file there is nothing to read. -/
theorem At.readFrom_end (h : At data p r) (hend : data.length ≤ p) (asm : Assembly)
    (fragment : Bytes) : ∃ r', r.readFrom asm fragment = ([], r') ∧ r'.reports = r.reports := by
  have hpos : 0 < kHeaderSize := by decide
  have hle := le_skipTrailer data.length p
  exact h.readFrom_short (Or.inl (by omega)) asm fragment

end Reader

end Log

end Squirrel
