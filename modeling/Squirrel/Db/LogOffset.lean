import Squirrel.Db.LogRoundTrip

/-!
# Reading from an initial offset

A reader with an initial offset starts at the block that holds it, or at the next one if the offset
is in the last bytes of a block. From there it goes through three phases. Fragments in front of the
offset are passed over as bad ones. Then, if there were none, the reader is still resynchronising,
and what remains of a record that started earlier is passed over silently. Then it reads on as from
the start of a log.

The flag that makes the second phase silent is cleared by the first fragment that is passed over in
the first phase, so the two never follow on each other. In that case the remainder of the record is
dropped all the same, but not silently.

## Main results

* `readAll_initialOffset` — exactly the records that start at or behind the offset are returned
* `reports_initialOffset` — when the reader reports nothing
-/

namespace Squirrel

namespace Log

open Reader (Assembly)

/-! ### The first block -/

/-- The offset at which a reader starts to look for fragments. -/
def initialBlock (initialOffset : ℕ) : ℕ :=
  if kBlockSize - 6 < initialOffset % kBlockSize then
    (initialOffset - initialOffset % kBlockSize + kBlockSize) % 2 ^ 64
  else initialOffset - initialOffset % kBlockSize

theorem initialBlock_mod (initialOffset : ℕ) : initialBlock initialOffset % kBlockSize = 0 := by
  rw [initialBlock, kBlockSize]
  split <;> omega

/-- A fragment between the initial offset and the first block would not fit in front of the
block. -/
theorem lt_of_lt_initialBlock {initialOffset offset : ℕ} (h : offset < initialBlock initialOffset)
    (hfit : offset + kHeaderSize ≤ blockLimit offset) : offset < initialOffset := by
  rw [initialBlock] at h
  split at h <;> simp only [blockLimit, kBlockSize, kHeaderSize] at * <;> omega

/-- Over a sound file, `SkipToInitialBlock` goes to the first block. -/
theorem Reader.skipToInitialBlock_new {file : SequentialFile} (h : file.Sound)
    (reporter checksum : Bool) (initialOffset : ℕ) :
    ∃ r, (Reader.new file reporter checksum initialOffset).skipToInitialBlock = (true, r) ∧
      r.At file.contents (initialBlock initialOffset) ∧
      Moved (Reader.new file reporter checksum initialOffset) r := by
  set r := Reader.new file reporter checksum initialOffset with hr
  have hloc : (if kBlockSize - 6 < r.initialOffset % kBlockSize then
      (r.initialOffset - r.initialOffset % kBlockSize + kBlockSize) % 2 ^ 64
      else r.initialOffset - r.initialOffset % kBlockSize) = initialBlock initialOffset := rfl
  have hmod := initialBlock_mod initialOffset
  simp only [skipToInitialBlock, hloc, SequentialFile.skip]
  rcases Nat.eq_zero_or_pos (initialBlock initialOffset) with hzero | hpos
  · -- The first block is the first of the file: nothing is skipped.
    rw [hzero, if_neg (Nat.lt_irrefl 0)]
    exact ⟨_, rfl, at_new h reporter checksum initialOffset, .refl r⟩
  · rw [if_pos hpos]
    refine ⟨{ r with
      file := { file with
        contents := file.contents.drop (initialBlock initialOffset)
        calls := file.calls + 1 }
      endOfBufferOffset := initialBlock initialOffset }, ?_, ⟨h, rfl, rfl, Or.inl ⟨rfl, hmod⟩⟩,
      ⟨rfl, rfl, rfl, rfl, rfl, rfl⟩⟩
    simp [hr, Reader.new, h file.calls]

/-- A reader over a sound file starts at its first block. -/
theorem Reader.at_initialBlock {file : SequentialFile} (h : file.Sound) (reporter checksum : Bool)
    (initialOffset : ℕ) :
    ∃ r, r.At file.contents (initialBlock initialOffset) ∧
      Moved (Reader.new file reporter checksum initialOffset) r ∧
      (Reader.new file reporter checksum initialOffset).readAll = r.readFrom .start [] := by
  rcases Nat.eq_zero_or_pos initialOffset with rfl | hpos
  · exact ⟨_, at_new h reporter checksum 0, .refl _, readAll_eq_readFrom (Nat.le_refl 0)⟩
  · obtain ⟨r, hskip, hat, hmoved⟩ := skipToInitialBlock_new h reporter checksum initialOffset
    have hlt : (Reader.new file reporter checksum initialOffset).lastRecordOffset
        < (Reader.new file reporter checksum initialOffset).initialOffset := hpos
    exact ⟨r, hat, hmoved, readAll_of_readLoop (by rw [readRecord, if_pos hlt, hskip]; rfl)⟩

/-- The fragments from a block on, seen from the start of the block. -/
theorem Stream.from_block {data : Bytes} {p q b : ℕ} {fs : List Fragment} (h : Stream data p fs q)
    (hb : b % kBlockSize = 0) (hp : p ≤ b) :
    (fs.filter fun f => b ≤ f.offset) = [] ∧ q ≤ b ∨
      Stream data b (fs.filter fun f => b ≤ f.offset) q := by
  induction fs generalizing p with
  | nil =>
    refine Or.inl ⟨rfl, ?_⟩
    have hpq : p = q := h
    omega
  | cons f fs ih =>
    have hin := h.1.inBlock
    have hnext := h.1.next
    by_cases hf : b ≤ f.offset
    · -- The first fragment from the block on is at its start, and all others are behind it.
      have hfirst : f.offset = b := by
        rw [nextHeader] at hnext
        split at hnext <;> simp only [blockLimit, kBlockSize, kHeaderSize] at * <;> omega
      have hall : ∀ g ∈ f :: fs, b ≤ g.offset := by
        intro g hg
        rcases List.mem_cons.mp hg with rfl | hg'
        · exact hf
        · exact hf.trans (h.offset_lt hg').le
      rw [List.filter_eq_self.mpr fun g hg => decide_eq_true (hall g hg)]
      refine Or.inr (h.restart ?_)
      rw [nextHeader_of_mod_eq_zero hb, hnext, hfirst]
    · rw [List.filter_cons_of_neg (by simpa using hf)]
      refine ih h.2 (hin.trans ?_)
      simp only [blockLimit, kBlockSize] at hb ⊢
      omega

/-! ### The phases of the reader -/

namespace Reader

variable {data : Bytes} {p q : ℕ} {r : Reader}

/-- With nothing under assembly, a bad record costs nothing but the resynchronisation. -/
theorem round_kBadRecord (r : Reader) (fragment : Bytes) :
    r.round .start kBadRecord fragment = .more .start { r with resyncing := false } := by
  simp only [round]
  cases hr : r.resyncing with
  | true => rfl
  | false => exact congrArg (Round.more .start) (by cases r; cases hr; rfl)

/-- **First phase.** Fragments in front of the initial offset are passed over. -/
theorem At.readFrom_before {fs : List Fragment} (h : At data p r) (hs : Stream data p fs q)
    (hoff : ∀ f ∈ fs, f.offset < r.initialOffset) (fragment : Bytes) :
    ∃ r' fragment', At data q r' ∧ Advanced r r' ∧ r'.reports = r.reports ∧
      r'.resyncing = (r.resyncing && fs.isEmpty) ∧
      r.readFrom .start fragment = r'.readFrom .start fragment' := by
  induction fs generalizing p r fragment with
  | nil =>
    cases hs
    exact ⟨r, fragment, h, .refl r, rfl, (Bool.and_true _).symm, rfl⟩
  | cons f fs ih =>
    obtain ⟨hplaced, hrest⟩ := hs
    have hf := hoff f List.mem_cons_self
    have hv := hplaced.valid
    rw [← hplaced.found] at hv
    obtain ⟨r₁, hphys, hat, hmoved⟩ :=
      h.readPhysicalRecord_valid hv (fun hc => hplaced.byte_ne hc.1) fragment
    rw [hplaced.found] at hphys hat
    rw [if_pos hf] at hphys
    have hadv : Advanced r { r₁ with resyncing := false } :=
      hmoved.advanced.trans (Reported.advanced (reported_refl _))
    obtain ⟨r', fragment', hat', hadv', hreports, hres, heq⟩ :=
      ih (r := { r₁ with resyncing := false }) ⟨hat.sound, hat.bytes, hat.offset, hat.block⟩ hrest
        (fun g hg => hadv.initialOffset ▸ hoff g (List.mem_cons_of_mem f hg)) []
    refine ⟨r', fragment', hat', hadv.trans hadv', hreports.trans hmoved.reports, ?_, ?_⟩
    · rw [hres, List.isEmpty_cons, Bool.and_false, Bool.false_and]
    · rw [readFrom, readLoop_more hphys (round_kBadRecord r₁ [])]
      exact heq

end Reader

/-- The fragments of a record behind its first. -/
inductive Remainder : List Fragment → Prop
  | last {f : Fragment} : f.type = .kLastType → Remainder [f]
  | middle {f : Fragment} {fs : List Fragment} :
    f.type = .kMiddleType → Remainder fs → Remainder (f :: fs)

theorem remainder_fragments (p : ℕ) (left : Bytes) : Remainder (fragments p false left) := by
  refine fragments_induction (motive := fun _ begin _ fs => begin = false → Remainder fs) ?_ ?_ p
    false left rfl
  · rintro p begin left rfl
    exact .last rfl
  · rintro p begin left n fs ih rfl
    exact .middle rfl (ih rfl)

/-- Without a first fragment, a remainder assembles to nothing. -/
theorem Remainder.assemble {fs : List Fragment} (h : Remainder fs) {asm : Assembly}
    (hasm : asm.inFragmentedRecord = false) : Log.assemble asm fs = ([], asm) := by
  induction h with
  | last hf => simp [Log.assemble, absorb, hf, hasm]
  | middle hf _ ih => simpa [Log.assemble, absorb, hf, hasm] using ih

/-- **Second phase.** A resynchronising reader passes over a remainder silently. -/
theorem Remainder.readFrom_resync {fs : List Fragment} (hr : Remainder fs) {data : Bytes}
    {p q : ℕ} {r : Reader} (h : r.At data p) (hres : r.resyncing = true) (hs : Stream data p fs q)
    (hoff : ∀ f ∈ fs, r.initialOffset ≤ f.offset) (fragment : Bytes) :
    ∃ r' fragment', r'.At data q ∧ r.Advanced r' ∧ r'.reports = r.reports ∧
      r.readFrom .start fragment = r'.readFrom .start fragment' := by
  induction hr generalizing p r fragment with
  | @last f hf =>
    obtain ⟨hplaced, rfl⟩ := hs
    obtain ⟨r₁, hphys, hat, hmoved⟩ :=
      h.readPhysicalRecord_placed hplaced (hoff f List.mem_cons_self) fragment
    have hround : r₁.round .start f.type.toNat f.payload
        = .more .start { r₁ with resyncing := false } := by
      simp only [Reader.round, hf]
      rw [if_pos (hmoved.resyncing.trans hres)]
      rfl
    refine ⟨{ r₁ with resyncing := false }, f.payload, ⟨hat.sound, hat.bytes, hat.offset,
      hat.block⟩, hmoved.advanced.trans (Reader.Reported.advanced (Reader.reported_refl _)),
      hmoved.reports, ?_⟩
    rw [Reader.readFrom, Reader.readLoop_more hphys hround]
    rfl
  | @middle f fs hf _ ih =>
    obtain ⟨hplaced, hrest⟩ := hs
    obtain ⟨r₁, hphys, hat, hmoved⟩ :=
      h.readPhysicalRecord_placed hplaced (hoff f List.mem_cons_self) fragment
    have hres₁ : r₁.resyncing = true := hmoved.resyncing.trans hres
    have hround : r₁.round .start f.type.toNat f.payload = .more .start r₁ := by
      simp only [Reader.round, hf]
      rw [if_pos hres₁]
      rfl
    obtain ⟨r', fragment', hat', hadv, hreports, heq⟩ := ih hat hres₁ hrest
      (fun g hg => hmoved.initialOffset ▸ hoff g (List.mem_cons_of_mem f hg)) f.payload
    refine ⟨r', fragment', hat', hmoved.advanced.trans hadv, hreports.trans hmoved.reports, ?_⟩
    rw [Reader.readFrom, Reader.readLoop_more hphys hround]
    exact heq

/-- Outside a resynchronisation, the first fragment of a remainder is reported. -/
theorem Remainder.reports_ne_nil {fs : List Fragment} (hr : Remainder fs) {data : Bytes}
    {p q : ℕ} {r : Reader} (h : r.At data p) (hres : r.resyncing = false)
    (hrep : r.reporter = true) {gs : List Fragment} (hs : Stream data p (fs ++ gs) q)
    (hoff : ∀ f ∈ fs ++ gs, r.initialOffset ≤ f.offset) (hend : data.length ≤ q)
    (fragment : Bytes) : (r.readFrom .start fragment).2.reports ≠ [] := by
  obtain ⟨f, rest, rfl, hf⟩ : ∃ f rest, fs = f :: rest ∧
      (f.type = .kMiddleType ∨ f.type = .kLastType) := by
    cases hr with
    | last hf => exact ⟨_, _, rfl, Or.inr hf⟩
    | middle hf _ => exact ⟨_, _, rfl, Or.inl hf⟩
  rw [List.cons_append] at hs hoff
  obtain ⟨hplaced, hrest⟩ := hs
  have hle := hoff f List.mem_cons_self
  obtain ⟨r₁, hphys, hat, hmoved⟩ := h.readPhysicalRecord_placed hplaced hle fragment
  obtain ⟨reason, hround⟩ : ∃ reason, r₁.round .start f.type.toNat f.payload
      = .more .start (r₁.reportCorruption f.payload.length reason) := by
    simp only [Reader.round]
    rw [if_neg (by rw [hmoved.resyncing, hres]; exact Bool.false_ne_true)]
    rcases hf with hf | hf <;> rw [hf] <;> exact ⟨_, rfl⟩
  -- The position behind the payload is that of the payload, which is behind the initial offset.
  have hreport : r₁.reportCorruption f.payload.length reason = { r₁ with
      reports := r₁.reports ++ [(f.payload.length, .corruption reason)] } := by
    rw [Reader.reportCorruption, Reader.reportDrop, if_pos]
    refine ⟨hmoved.reporter.trans hrep, ?_⟩
    have hoffset := hat.offset
    have hlimit : f.limit = f.offset + kHeaderSize + f.payload.length := rfl
    rw [hmoved.initialOffset, sub64_of_le (b := r₁.buffer.length) (by omega),
      sub64_of_le (by omega)]
    omega
  obtain ⟨r₂, fragment', hat₂, hadv, -, heq⟩ :=
    (hat.bookkeeping r₁.lastRecordOffset
      (r₁.reports ++ [(f.payload.length, .corruption reason)])).readFrom_stream hrest
      (fun g hg => by
        change r₁.initialOffset ≤ g.offset
        rw [hmoved.initialOffset]
        exact hoff g (List.mem_cons_of_mem f hg))
      (fun hr => absurd (hr.symm.trans (hmoved.resyncing.trans hres)) (by simp))
      (Reader.startsAt_start _) f.payload
  obtain ⟨r₃, hread, hreports⟩ := hat₂.readFrom_end hend _ fragment'
  rw [Reader.readFrom, Reader.readLoop_more hphys hround, hreport]
  change (Reader.readFrom _ .start f.payload).2.reports ≠ []
  rw [heq, hread, hreports]
  intro hnil
  have hpre := hadv.reports
  rw [hnil, List.prefix_nil] at hpre
  exact absurd hpre (by simp)

/-! ### A layout behind an offset -/

/-- No record of a layout starts in front of its first header. -/
theorem le_of_mem_zip_layout {data : Bytes} {p₀ p q : ℕ} {records : List Bytes} {x : Bytes × ℕ}
    (hp : p₀ ≤ p) (h : Stream data p (layout p records).flatten q)
    (hx : x ∈ records.zip ((layout p records).map recordOffset)) : nextHeader p₀ ≤ x.2 := by
  induction records generalizing p with
  | nil => exact absurd hx List.not_mem_nil
  | cons record records ih =>
    rw [layout, List.flatten_cons] at h
    obtain ⟨q', hhead, hrest⟩ := h.split
    have hq := hhead.eq_limitOf
    subst hq
    rw [layout, List.map_cons, List.zip_cons_cons, recordOffset_fragments] at hx
    rcases List.mem_cons.mp hx with rfl | hx'
    · exact nextHeader_mono hp
    · exact ih (hp.trans hhead.le) hrest hx'

/-- Of a record that starts in front of an offset, a remainder is left behind it, or nothing. The
remainder starts with the block behind a fragment in front of the offset. -/
def LeftOver (offset : ℕ) (fs tail : List Fragment) : Prop :=
  tail = [] ∨ Remainder tail ∧
    ∃ f ∈ tail.head?, ∃ g ∈ fs, g.offset < offset ∧ f.offset = blockLimit g.offset

theorem LeftOver.mono {offset : ℕ} {fs fs' tail : List Fragment} (h : LeftOver offset fs tail)
    (hsub : fs ⊆ fs') : LeftOver offset fs' tail := by
  rcases h with hnil | ⟨hrem, f, hf, g, hg, hlt, heq⟩
  · exact Or.inl hnil
  · exact Or.inr ⟨hrem, f, hf, g, hsub hg, hlt, heq⟩

/-- All fragments of a run are behind an offset, if the first is. -/
theorem Stream.filter_eq_self {data : Bytes} {p q offset : ℕ} {fs : List Fragment}
    (h : Stream data p fs q) (hoff : offset ≤ nextHeader p) :
    (fs.filter fun f => offset ≤ f.offset) = fs := by
  refine List.filter_eq_self.mpr fun f hf => decide_eq_true ?_
  cases fs with
  | nil => exact absurd hf List.not_mem_nil
  | cons g fs =>
    have hg : offset ≤ g.offset := by
      rw [← h.1.next]
      exact hoff
    rcases List.mem_cons.mp hf with rfl | hf'
    · exact hg
    · exact hg.trans (h.offset_lt hf').le

theorem leftOver_fragments {data : Bytes} {offset : ℕ} (p : ℕ) (begin : Bool) (left : Bytes)
    {q : ℕ} (h : Stream data p (fragments p begin left) q) (hlt : nextHeader p < offset) :
    LeftOver offset (fragments p begin left)
      ((fragments p begin left).filter fun f => offset ≤ f.offset) := by
  fun_induction fragments p begin left with
  | case1 p begin left n ih =>
    rw [List.filter_cons_of_neg (by simpa using hlt)]
    by_cases hend : left.length = n
    · rw [if_pos hend]
      exact Or.inl rfl
    · rw [if_neg hend] at h ⊢
      -- A fragment that is not the last fills its block.
      have hlimit : nextHeader p + kHeaderSize + n = blockLimit (nextHeader p) := by
        have hfits := nextHeader_add_le p
        simp only [n, avail] at hend ⊢
        omega
      have hnext : nextHeader (nextHeader p + kHeaderSize + n) = blockLimit (nextHeader p) := by
        rw [hlimit, nextHeader_of_mod_eq_zero (blockLimit_mod _)]
      have hrest : Stream data (nextHeader p + kHeaderSize + n)
          (fragments (nextHeader p + kHeaderSize + n) false (left.drop n)) q := by
        have hn : n ≤ left.length := min_le_left _ _
        have heq : Fragment.limit ⟨nextHeader p, Writer.fragmentType begin
            (decide (left.length = n)), left.take n⟩ = nextHeader p + kHeaderSize + n := by
          rw [Fragment.limit, List.length_take, min_eq_left hn]
        rw [← heq]
        exact heq ▸ h.2
      rcases Nat.lt_or_ge (blockLimit (nextHeader p)) offset with hblock | hblock
      · exact (ih hend hrest (hnext ▸ hblock)).mono (List.subset_cons_self _ _)
      · rw [hrest.filter_eq_self (hnext ▸ hblock)]
        refine Or.inr ⟨remainder_fragments _ _, ?_⟩
        refine ⟨_, by rw [fragments]; rfl, ⟨nextHeader p, _, _⟩, List.mem_cons_self, hlt, hnext⟩

/-- **A layout behind an offset** is what is left of a record that starts in front of it, and the
layout of the records that start behind it. -/
theorem layout_filter {data : Bytes} {p q : ℕ} (offset : ℕ) {records : List Bytes}
    (h : Stream data p (layout p records).flatten q) :
    ∃ tail p' rest, LeftOver offset (layout p records).flatten tail ∧
      (layout p records).flatten.filter (fun f => offset ≤ f.offset)
        = tail ++ (layout p' rest).flatten ∧
      (records.zip ((layout p records).map recordOffset)).filter (fun x => offset ≤ x.2)
        = rest.zip ((layout p' rest).map recordOffset) := by
  induction records generalizing p with
  | nil => exact ⟨[], p, [], Or.inl rfl, rfl, rfl⟩
  | cons record records ih =>
    rw [layout, List.flatten_cons] at h ⊢
    set fs := fragments p true record with hfs
    obtain ⟨q', hhead, hrest⟩ := h.split
    have hq := hhead.eq_limitOf
    subst hq
    rw [List.map_cons, List.zip_cons_cons, recordOffset_fragments]
    by_cases hp : offset ≤ nextHeader p
    · -- Everything is behind the offset.
      refine ⟨[], p, record :: records, Or.inl rfl, ?_, ?_⟩
      · rw [h.filter_eq_self hp, layout, List.flatten_cons]
        rfl
      · rw [layout, List.map_cons, List.zip_cons_cons, recordOffset_fragments]
        refine List.filter_eq_self.mpr fun x hx => decide_eq_true ?_
        rcases List.mem_cons.mp hx with rfl | hx'
        · exact hp
        · exact hp.trans (le_of_mem_zip_layout hhead.le hrest hx')
    · have hlt : nextHeader p < offset := Nat.not_le.mp hp
      rw [List.filter_append, List.filter_cons_of_neg (by simpa using hlt)]
      rcases leftOver_fragments p true record hhead hlt with hnil | ⟨hrem, f, hf, g, hg, hgo, heq⟩
      · obtain ⟨tail, p', rest, htail, hfilter, hzip⟩ := ih hrest
        rw [← hfs] at hnil
        rw [hnil]
        exact ⟨tail, p', rest, htail.mono (List.subset_append_right _ _), hfilter, hzip⟩
      · -- The next record starts behind the remainder.
        obtain ⟨hfmem, hfo⟩ := List.mem_filter.mp (List.mem_of_mem_head? hf)
        rw [decide_eq_true_iff] at hfo
        have hnext : offset ≤ nextHeader (limitOf p fs) := by
          have hlimit := (hhead.limit_mem hfmem).2
          have hle := le_nextHeader (limitOf p fs)
          rw [Fragment.limit] at hlimit
          omega
        refine ⟨_, limitOf p fs, records, Or.inr ⟨hrem, f, hf, g, List.mem_append_left _ hg, hgo,
          heq⟩, ?_, ?_⟩
        · rw [hrest.filter_eq_self hnext]
        · refine List.filter_eq_self.mpr fun x hx => decide_eq_true ?_
          exact hnext.trans (le_of_mem_zip_layout le_rfl hrest hx)

/-! ### Reading the log -/

/-- The fragments in front of an offset come first. -/
theorem Stream.split_offset {data : Bytes} {p q : ℕ} (offset : ℕ) {fs : List Fragment}
    (h : Stream data p fs q) :
    ∃ before, fs = before ++ (fs.filter fun f => offset ≤ f.offset) ∧
      ∀ f ∈ before, f.offset < offset := by
  induction fs generalizing p with
  | nil => exact ⟨[], rfl, fun _ hf => absurd hf List.not_mem_nil⟩
  | cons f fs ih =>
    by_cases hf : offset ≤ f.offset
    · refine ⟨[], ?_, fun _ hg => absurd hg List.not_mem_nil⟩
      rw [h.filter_eq_self (by rw [h.1.next]; exact hf), List.nil_append]
    · obtain ⟨before, heq, hbefore⟩ := ih h.2
      refine ⟨f :: before, ?_, ?_⟩
      · rw [List.filter_cons_of_neg (by simpa using hf), List.cons_append, ← heq]
      · intro g hg
        rcases List.mem_cons.mp hg with rfl | hg'
        · exact Nat.not_le.mp hf
        · exact hbefore g hg'

theorem begins_head_layout (p : ℕ) (records : List Bytes) :
    ∀ f ∈ (layout p records).flatten.head?, Reader.Begins f := by
  intro f hf
  cases records with
  | nil => exact absurd hf (by simp [layout])
  | cons record records =>
    rw [layout, List.flatten_cons, fragments, List.cons_append, List.head?_cons,
      Option.mem_some_iff] at hf
    subst hf
    change Writer.fragmentType true _ = _ ∨ Writer.fragmentType true _ = _
    cases decide (record.length = min record.length (avail p)) with
    | true => exact Or.inl rfl
    | false => exact Or.inr rfl

/-- No fragment behind the initial offset is in front of the first block that is read. -/
theorem Stream.filter_initialBlock {data : Bytes} {p q : ℕ} {fs : List Fragment}
    (hs : Stream data p fs q) (initialOffset : ℕ) :
    (fs.filter fun f => initialBlock initialOffset ≤ f.offset).filter
        (fun f => initialOffset ≤ f.offset) = fs.filter fun f => initialOffset ≤ f.offset := by
  rw [List.filter_filter]
  refine List.filter_congr fun f hf => ?_
  by_cases hle : initialOffset ≤ f.offset
  · have hge : initialBlock initialOffset ≤ f.offset := by
      by_contra hlt
      have hfit : f.offset + kHeaderSize ≤ blockLimit f.offset :=
        (Nat.le_add_right _ _).trans (hs.inBlock hf)
      exact absurd (lt_of_lt_initialBlock (Nat.not_le.mp hlt) hfit) (Nat.not_lt.mpr hle)
    simp [hle, hge]
  · simp [hle]

section Phases

variable {data : Bytes} {p p' : ℕ} {r : Reader} {tail : List Fragment} {rest : List Bytes}

/-- From the beginning of a record on, all records are returned. -/
theorem Reader.At.readFrom_layout (h : r.At data p)
    (hs : Stream data p (layout p' rest).flatten data.length)
    (hoff : ∀ f ∈ (layout p' rest).flatten, r.initialOffset ≤ f.offset) (fragment : Bytes) :
    (r.readFrom .start fragment).1 = rest.zip ((layout p' rest).map recordOffset) ∧
      (r.readFrom .start fragment).2.reports = r.reports := by
  obtain ⟨r₁, fragment₁, hat₁, -, hrep₁, heq₁⟩ := h.readFrom_stream hs hoff
    (fun _ => begins_head_layout p' rest) (Reader.startsAt_start _) fragment
  obtain ⟨r₂, hread, hrep₂⟩ := hat₁.readFrom_end le_rfl
    (assemble .start (layout p' rest).flatten).2 fragment₁
  rw [heq₁, hread, assemble_layout, List.append_nil]
  exact ⟨rfl, hrep₂.trans (hrep₁ (orderly_layout p' rest))⟩

/-- A reader that is still resynchronising passes over a remainder. -/
theorem Remainder.readFrom_passed (hrem : Remainder tail) (h : r.At data p)
    (hres : r.resyncing = true) (hs : Stream data p (tail ++ (layout p' rest).flatten) data.length)
    (hoff : ∀ f ∈ tail ++ (layout p' rest).flatten, r.initialOffset ≤ f.offset) (fragment : Bytes) :
    (r.readFrom .start fragment).1 = rest.zip ((layout p' rest).map recordOffset) ∧
      (r.readFrom .start fragment).2.reports = r.reports := by
  obtain ⟨m, hs₁, hs₂⟩ := hs.split
  obtain ⟨r₁, fragment₁, hat₁, hadv₁, hrep₁, heq₁⟩ := hrem.readFrom_resync h hres hs₁
    (fun f hf => hoff f (List.mem_append_left _ hf)) fragment
  obtain ⟨hrecords, hrep⟩ := hat₁.readFrom_layout hs₂
    (fun f hf => hadv₁.initialOffset ▸ hoff f (List.mem_append_right _ hf)) fragment₁
  rw [heq₁]
  exact ⟨hrecords, hrep.trans hrep₁⟩

/-- A reader that is not resynchronising any more drops a remainder, and reports it. -/
theorem Remainder.readFrom_reported (hrem : Remainder tail) (h : r.At data p)
    (hres : r.resyncing = false) (hs : Stream data p (tail ++ (layout p' rest).flatten) data.length)
    (hoff : ∀ f ∈ tail ++ (layout p' rest).flatten, r.initialOffset ≤ f.offset) (fragment : Bytes) :
    (r.readFrom .start fragment).1 = rest.zip ((layout p' rest).map recordOffset) ∧
      (r.reporter = true → (r.readFrom .start fragment).2.reports ≠ []) ∧
      (r.reporter = false → (r.readFrom .start fragment).2.reports = r.reports) := by
  obtain ⟨r₁, fragment₁, hat₁, hadv₁, -, heq₁⟩ := h.readFrom_stream hs hoff
    (fun hr => absurd (hres.symm.trans hr) Bool.false_ne_true) (Reader.startsAt_start _) fragment
  obtain ⟨r₂, hread, hrep₂⟩ := hat₁.readFrom_end le_rfl
    (Log.assemble .start (tail ++ (layout p' rest).flatten)).2 fragment₁
  refine ⟨?_, fun hrep => hrem.reports_ne_nil h hres hrep hs hoff le_rfl fragment, fun hrep => ?_⟩
  · rw [heq₁, hread, assemble_append, hrem.assemble rfl, assemble_layout, List.append_nil]
    rfl
  · rw [heq₁, hread, hrep₂, hadv₁.silent hrep]

end Phases

/-- **What a reader with an initial offset does.** It returns the records that start behind the
offset. It reports something if there is a remainder in front of them and it has already passed over
a fragment in its first block. -/
theorem readFrom_initialBlock {data : Bytes} {r : Reader} {records : List Bytes}
    (h : r.At data (initialBlock r.initialOffset))
    (hres : r.resyncing = decide (0 < r.initialOffset)) (hreports : r.reports = [])
    (hs : Stream data 0 (layout 0 records).flatten data.length) :
    ∃ tail p' rest, LeftOver r.initialOffset (layout 0 records).flatten tail ∧
      (layout 0 records).flatten.filter (fun f => r.initialOffset ≤ f.offset)
        = tail ++ (layout p' rest).flatten ∧
      (r.readFrom .start []).1
        = (records.zip ((layout 0 records).map recordOffset)).filter
          (fun x => r.initialOffset ≤ x.2) ∧
      ((r.readFrom .start []).2.reports = [] ↔ (r.reporter = true → tail ≠ [] →
        ∀ f ∈ (layout 0 records).flatten, initialBlock r.initialOffset ≤ f.offset →
          r.initialOffset ≤ f.offset)) := by
  obtain ⟨tail, p', rest, hleft, hfilter, hzip⟩ := layout_filter r.initialOffset hs
  refine ⟨tail, p', rest, hleft, hfilter, ?_⟩
  rw [hzip]
  set fs := (layout 0 records).flatten with hfs
  have hblock := (hs.filter_initialBlock r.initialOffset).trans hfilter
  have hmem : ∀ {f}, f ∈ fs.filter (fun f => initialBlock r.initialOffset ≤ f.offset) ↔
      f ∈ fs ∧ initialBlock r.initialOffset ≤ f.offset := by
    intro f
    rw [List.mem_filter, decide_eq_true_iff]
  rcases hs.from_block (initialBlock_mod _) (Nat.zero_le _) with ⟨hnil, hend⟩ | hstream
  · -- The first block is behind the end of the file.
    rw [hnil, List.filter_nil] at hblock
    obtain ⟨htail, hrest⟩ := List.append_eq_nil_iff.mp hblock.symm
    obtain ⟨r', hread, hrep⟩ := h.readFrom_end hend .start []
    rw [hread, eq_nil_of_layout hrest]
    exact ⟨rfl, ⟨fun _ _ hne => absurd htail hne, fun _ => hrep.trans hreports⟩⟩
  · obtain ⟨before, hsplit, hbefore⟩ := hstream.split_offset r.initialOffset
    rw [hblock] at hsplit
    rw [hsplit] at hstream
    obtain ⟨m, hs₁, hs₂⟩ := hstream.split
    obtain ⟨r₁, fragment₁, hat₁, hadv₁, hrep₁, hres₁, heq₁⟩ := h.readFrom_before hs₁ hbefore []
    have hoff₁ : ∀ f ∈ tail ++ (layout p' rest).flatten, r₁.initialOffset ≤ f.offset := by
      intro f hf
      rw [hadv₁.initialOffset]
      rw [← hfilter, List.mem_filter, decide_eq_true_iff] at hf
      exact hf.2
    -- Whether a fragment was passed over.
    have hpassed : before = [] ↔ ∀ f ∈ fs, initialBlock r.initialOffset ≤ f.offset →
        r.initialOffset ≤ f.offset := by
      constructor
      · intro hnil f hf hge
        have hf' := hmem.mpr ⟨hf, hge⟩
        rw [hsplit, hnil, List.nil_append] at hf'
        exact hadv₁.initialOffset ▸ hoff₁ f hf'
      · intro hall
        refine List.eq_nil_iff_forall_not_mem.mpr fun f hf => ?_
        have hf' := hmem.mp (hsplit ▸ List.mem_append_left _ hf)
        exact absurd (hbefore f hf) (Nat.not_lt.mpr (hall f hf'.1 hf'.2))
    rw [heq₁, ← hpassed]
    rcases hleft with htail | ⟨hrem, f, -, g, -, hlt, -⟩
    · rw [htail, List.nil_append] at hs₂ hoff₁
      obtain ⟨hrecords, hrep⟩ := hat₁.readFrom_layout hs₂ hoff₁ fragment₁
      exact ⟨hrecords, fun _ _ hne => absurd htail hne, fun _ => hrep.trans (hrep₁.trans hreports)⟩
    · have hpos : decide (0 < r.initialOffset) = true := decide_eq_true (by omega)
      rw [hres, hpos, Bool.true_and] at hres₁
      have hne : tail ≠ [] := by cases hrem <;> simp
      cases hbef : before with
      | nil =>
        rw [hbef, List.isEmpty_nil] at hres₁
        obtain ⟨hrecords, hrep⟩ := hrem.readFrom_passed hat₁ hres₁ hs₂ hoff₁ fragment₁
        exact ⟨hrecords, fun _ _ _ => rfl, fun _ => hrep.trans (hrep₁.trans hreports)⟩
      | cons g₀ before₀ =>
        rw [hbef, List.isEmpty_cons] at hres₁
        obtain ⟨hrecords, hloud, hsilent⟩ :=
          hrem.readFrom_reported hat₁ hres₁ hs₂ hoff₁ fragment₁
        rw [hadv₁.reporter] at hloud hsilent
        refine ⟨hrecords, fun hnil hrep => absurd hnil (hloud hrep), fun hcond => ?_⟩
        cases hr : r.reporter with
        | false => exact (hsilent hr).trans (hrep₁.trans hreports)
        | true => exact absurd (hcond hr hne) (List.cons_ne_nil g₀ before₀)

/-- **Initial offsets select records.** Whatever the offset, the reader returns exactly the records
whose first fragment starts at or behind it, each with the offset it starts at. The first conjunct
says where the fragments are. -/
theorem readAll_initialOffset (dest : WritableFile) (hdest : dest.Sound)
    (hempty : dest.contents = []) (cuts : List (List Bytes)) (source : SequentialFile)
    (hsource : source.Sound) (hcontents : source.contents = (sessions dest cuts).contents)
    (reporter checksum : Bool) (initialOffset : ℕ) :
    Stream (sessions dest cuts).contents 0 (layout 0 cuts.flatten).flatten
        (sessions dest cuts).contents.length ∧
      (Reader.new source reporter checksum initialOffset).readAll.1
        = (cuts.flatten.zip ((layout 0 cuts.flatten).map recordOffset)).filter
          fun x => initialOffset ≤ x.2 := by
  have hstream := (stream_sessions hdest cuts).2
  rw [hempty, List.length_nil] at hstream
  refine ⟨hstream, ?_⟩
  obtain ⟨r, hat, hmoved, hread⟩ :=
    Reader.at_initialBlock hsource reporter checksum initialOffset
  rw [← hcontents] at hstream
  obtain rfl : r.initialOffset = initialOffset := hmoved.initialOffset
  obtain ⟨-, -, -, -, -, hrecords, -⟩ := readFrom_initialBlock hat hmoved.resyncing hmoved.reports
    hstream
  rw [hread, hrecords]

/-- From offset 1 on, the first of three records is gone. -/
theorem readAll_initialOffset_one :
    (Reader.new ⟨(sessions WritableFile.fresh [[[104, 105], []], [[33]]]).contents, 0,
        fun _ => .success⟩ true true 1).readAll.1 = [([], 9), ([33], 16)] := by
  have h := (readAll_initialOffset WritableFile.fresh (fun _ => rfl) rfl [[[104, 105], []], [[33]]]
    ⟨_, 0, fun _ => .success⟩ (fun _ => rfl) rfl true true 1).2
  rw [h]
  simp [layout, fragments, limitOf, avail, nextHeader, blockLimit, kBlockSize, kHeaderSize,
    Fragment.limit, recordOffset]

/-! ### Reports -/

/-- The reader has passed over a fragment when it comes to a remainder, unless the remainder starts
at the initial offset or right behind it. -/
theorem passed_iff {initialOffset : ℕ} {f g : Fragment} {fs : List Fragment} (hg : g ∈ fs)
    (hlt : g.offset < initialOffset) (hf : f.offset = blockLimit g.offset)
    (hle : initialOffset ≤ f.offset) (hbound : f.offset < 2 ^ 64) :
    (∀ x ∈ fs, initialBlock initialOffset ≤ x.offset → initialOffset ≤ x.offset) ↔
      f.offset ≤ initialOffset + 5 := by
  constructor
  · intro hall
    by_contra hfar
    have hblock : initialBlock initialOffset ≤ g.offset := by
      rw [initialBlock]
      split <;> simp only [blockLimit, kBlockSize] at * <;> omega
    exact absurd (hall g hg hblock) (Nat.not_le.mpr hlt)
  · intro hnear x _ hx
    refine le_trans ?_ hx
    rw [initialBlock]
    split <;> simp only [blockLimit, kBlockSize] at * <;> omega

theorem Remainder.not_begins {fs : List Fragment} (h : Remainder fs) :
    ∀ f ∈ fs.head?, ¬ Reader.Begins f := by
  intro f hf hbegins
  cases h with
  | last ht =>
    cases hf
    rcases hbegins with hb | hb <;> rw [ht] at hb <;> cases hb
  | middle ht _ =>
    cases hf
    rcases hbegins with hb | hb <;> rw [ht] at hb <;> cases hb

/-- When a reader with an initial offset reports something, over a file that holds a layout. -/
theorem reports_layout {source : SequentialFile} (hsource : source.Sound) {records : List Bytes}
    (hstream : Stream source.contents 0 (layout 0 records).flatten source.contents.length)
    (hlength : source.contents.length < 2 ^ 64) (reporter checksum : Bool) (initialOffset : ℕ) :
    (Reader.new source reporter checksum initialOffset).readAll.2.reports = [] ↔
      (reporter = true →
        ∀ f ∈ (layout 0 records).flatten.find? (fun f => initialOffset ≤ f.offset),
          f.type = .kFullType ∨ f.type = .kFirstType ∨ f.offset ≤ initialOffset + 5) := by
  obtain ⟨r, hat, hmoved, hread⟩ :=
    Reader.at_initialBlock hsource reporter checksum initialOffset
  obtain rfl : r.initialOffset = initialOffset := hmoved.initialOffset
  obtain ⟨tail, p', rest, hleft, hfilter, -, hreports⟩ :=
    readFrom_initialBlock hat hmoved.resyncing hmoved.reports hstream
  rw [hread, hreports, hmoved.reporter, ← List.head?_filter, hfilter]
  refine imp_congr_right fun _ => ?_
  rcases hleft with htail | ⟨hrem, f, hf, g, hg, hlt, heq⟩
  · refine ⟨fun _ f hf => ?_, fun _ hne => absurd htail hne⟩
    rw [htail, List.nil_append] at hf
    rcases begins_head_layout p' rest f hf with hb | hb
    · exact Or.inl hb
    · exact Or.inr (Or.inl hb)
  · have hne : tail ≠ [] := by cases hrem <;> simp
    have hhead : (tail ++ (layout p' rest).flatten).head? = some f := by
      cases tail with
      | nil => exact absurd rfl hne
      | cons a as => exact hf
    have hmem : f ∈ (layout 0 records).flatten ∧ r.initialOffset ≤ f.offset := by
      have hmem := List.mem_of_mem_head? hhead
      rwa [← hfilter, List.mem_filter, decide_eq_true_iff] at hmem
    have hbound : f.offset < 2 ^ 64 := by
      have hlimit := (hstream.limit_mem hmem.1).2
      rw [Fragment.limit] at hlimit
      omega
    have hnot := hrem.not_begins f hf
    rw [hhead, imp_iff_right hne, passed_iff hg hlt heq hmem.2 hbound]
    constructor
    · rintro hnear f' hf'
      cases hf'
      exact Or.inr (Or.inr hnear)
    · intro hall
      rcases hall f rfl with hb | hb | hnear
      · exact absurd (Or.inl hb) hnot
      · exact absurd (Or.inr hb) hnot
      · exact hnear

/-- **When reading from an initial offset is silent**: when no reporter is given, or the first
fragment at or behind the offset begins a record, or starts at the offset or at most five bytes
behind it. -/
theorem reports_initialOffset (dest : WritableFile) (hdest : dest.Sound)
    (hempty : dest.contents = []) (cuts : List (List Bytes)) (source : SequentialFile)
    (hsource : source.Sound) (hcontents : source.contents = (sessions dest cuts).contents)
    (hlength : source.contents.length < 2 ^ 64) (reporter checksum : Bool) (initialOffset : ℕ) :
    (Reader.new source reporter checksum initialOffset).readAll.2.reports = [] ↔
      (reporter = true →
        ∀ f ∈ (layout 0 cuts.flatten).flatten.find? (fun f => initialOffset ≤ f.offset),
          f.type = .kFullType ∨ f.type = .kFirstType ∨ f.offset ≤ initialOffset + 5) := by
  have hstream := (stream_sessions hdest cuts).2
  rw [hempty, List.length_nil, ← hcontents] at hstream
  exact reports_layout hsource hstream hlength reporter checksum initialOffset

/-- The layout, at the start of a file, of a record that fills one block and ends in the next. -/
theorem layout_two_blocks {record : Bytes} (h : 32761 < record.length)
    (h' : record.length ≤ 65522) :
    (layout 0 [record]).flatten =
      [⟨0, .kFirstType, record.take 32761⟩, ⟨32768, .kLastType, record.drop 32761⟩] := by
  have h₀ : nextHeader 0 = 0 ∧ avail 0 = 32761 := by decide
  have h₁ : nextHeader 32768 = 32768 ∧ avail 32768 = 32761 := by decide
  have hfirst : min record.length 32761 = 32761 := by omega
  have hlast : min (record.drop 32761).length 32761 = (record.drop 32761).length := by
    rw [List.length_drop]
    omega
  rw [layout, layout, List.flatten_cons, List.flatten_nil, List.append_nil, fragments]
  simp only [h₀.1, h₀.2, hfirst]
  rw [if_neg (by omega), fragments]
  simp only [kHeaderSize, Nat.reduceAdd, h₁.1, h₁.2, hlast, if_true, decide_true,
    List.take_length, decide_eq_false (show ¬ record.length = 32761 by omega)]
  rfl

/-- A record of 40000 bytes. -/
def longRecord : Bytes := List.replicate 40000 0

theorem layout_longRecord :
    (layout 0 [longRecord]).flatten = [⟨0, .kFirstType, longRecord.take 32761⟩,
      ⟨32768, .kLastType, longRecord.drop 32761⟩] := by
  have hlen : longRecord.length = 40000 := List.length_replicate
  exact layout_two_blocks (by omega) (by omega)

/-- Where the record ends. The length is a hypothesis, so that nothing counts the bytes one by
one. -/
theorem limitOf_longRecord {record : Bytes} (h : record.length = 40000) :
    limitOf 0 [⟨0, .kFirstType, record.take 32761⟩, ⟨32768, .kLastType, record.drop 32761⟩]
      = 40014 := by
  rw [limitOf, limitOf, limitOf, Fragment.limit, List.length_drop, h]
  rfl

theorem length_longRecord_file :
    (sessions WritableFile.fresh [[longRecord]]).contents.length < 2 ^ 64 := by
  have h := (@stream_sessions WritableFile.fresh (fun _ => rfl) [[longRecord]]).2.eq_limitOf
  have hlen : longRecord.length = 40000 := List.length_replicate
  rw [h]
  change limitOf 0 (layout 0 [longRecord]).flatten < 2 ^ 64
  rw [layout_longRecord, limitOf_longRecord hlen]
  decide

/-- From the second fragment of the record on, nothing is returned and nothing is reported. -/
theorem reports_second_fragment :
    (Reader.new ⟨(sessions WritableFile.fresh [[longRecord]]).contents, 0,
      fun _ => .success⟩ true true 32768).readAll.2.reports = [] := by
  refine (reports_initialOffset WritableFile.fresh (fun _ => rfl) rfl [[longRecord]] _
    (fun _ => rfl) rfl length_longRecord_file true true 32768).mpr fun _ f hf => ?_
  rw [List.flatten_cons, List.flatten_nil, List.append_nil, layout_longRecord] at hf
  cases hf
  exact Or.inr (Or.inr (by decide))

/-- **A report from the middle of a sound log.** Reading from offset 1 on, the reader passes over
the first fragment of the record and reports the second. -/
theorem reports_first_fragment :
    (Reader.new ⟨(sessions WritableFile.fresh [[longRecord]]).contents, 0,
      fun _ => .success⟩ true true 1).readAll.2.reports ≠ [] := by
  have hstream := (@stream_sessions WritableFile.fresh (fun _ => rfl)
    [[longRecord]]).2
  intro hnil
  have hall := (@reports_layout ⟨_, 0, fun _ => .success⟩ (fun _ => rfl) _ hstream
    length_longRecord_file true true 1).mp hnil rfl
  change ∀ f ∈ List.find? _ (layout 0 [longRecord]).flatten, _ at hall
  rw [layout_longRecord] at hall
  rcases hall _ rfl with h | h | h
  · cases h
  · cases h
  · exact absurd h (by decide)

end Log

end Squirrel
