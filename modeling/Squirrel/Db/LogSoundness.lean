import Squirrel.Db.LogOffset

/-!
# Reading arbitrary bytes

Whatever a file holds, and whichever calls on it fail, the reader stops, and what it returns are
logical records of the format: each is made up of physical records with correct checksums that
follow on each other in the file, and no two share a byte. That the reader stops is part of the
definition of `readAll`; this file is about what it returns.

The reader may lose its place only by stopping. As long as it goes on, it stands at an offset of the
file (`Stands`), and what it has under assembly is a run of fragments that ends at that offset
(`Held`). Every round that breaks the run clears the assembly.

## Main results

* `Stands.readPhysicalRecord` — what a physical read returns, over arbitrary bytes
* `readAll_sound` — what the reader returns, over arbitrary bytes
-/

namespace Squirrel

namespace Log

open Reader (Assembly)

/-! ### Files that fail -/

namespace Reader

/-- The same reader over a file none of whose calls fails any more. -/
def mend (r : Reader) : Reader := { r with file := { r.file with fate := fun _ => .success } }

theorem mend_reportDrop (r : Reader) (bytes : ℕ) (reason : Status) :
    r.mend.reportDrop bytes reason = (r.reportDrop bytes reason).mend := by
  by_cases hc : r.reporter ∧
      r.initialOffset ≤ sub64 (sub64 r.endOfBufferOffset r.buffer.length) bytes
  · rw [reportDrop, reportDrop, if_pos hc]
    exact if_pos hc
  · rw [reportDrop, reportDrop, if_neg hc]
    exact if_neg hc

theorem mend_parseRecord (r : Reader) (result : Bytes) :
    r.mend.parseRecord result =
      ((r.parseRecord result).1, (r.parseRecord result).2.1, (r.parseRecord result).2.2.mend) := by
  have hdrop : ∀ (bytes : ℕ) (reason : String), { r.mend with buffer := [] }.reportCorruption bytes
      reason = ({ r with buffer := [] }.reportCorruption bytes reason).mend :=
    fun bytes reason => mend_reportDrop { r with buffer := [] } bytes _
  have hbuffer : r.mend.buffer = r.buffer := rfl
  have heof : r.mend.eof = r.eof := rfl
  have hchecksum : r.mend.checksum = r.checksum := rfl
  have hend : r.mend.endOfBufferOffset = r.endOfBufferOffset := rfl
  have hinitial : r.mend.initialOffset = r.initialOffset := rfl
  simp only [parseRecord, hbuffer, heof, hchecksum, hend, hinitial]
  split_ifs
  · rfl
  · exact congrArg (fun r => (kBadRecord, result, r)) (hdrop _ _)
  · rfl
  · exact congrArg (fun r => (kBadRecord, result, r)) (hdrop _ _)
  · rfl
  · rfl

theorem read_mend {r : Reader} {n : ℕ} {s : Status} {data : Bytes} {file : SequentialFile}
    (h : r.file.read n = (s, data, file)) (hs : s.ok = true) :
    r.mend.file.read n = (.success, data, { file with fate := fun _ => .success }) := by
  simp only [SequentialFile.read] at h
  split at h
  · obtain ⟨-, rfl, rfl⟩ := h
    rfl
  · next hfail =>
    obtain ⟨rfl, -, -⟩ := h
    exact absurd hs hfail

/-- A physical read that does not say end-of-file does not depend on the fate of the file. -/
theorem mend_readPhysicalRecord (r : Reader) (result : Bytes) :
    (r.readPhysicalRecord result).1 = kEof ∨
      r.mend.readPhysicalRecord result = ((r.readPhysicalRecord result).1,
        (r.readPhysicalRecord result).2.1, (r.readPhysicalRecord result).2.2.mend) := by
  fun_induction readPhysicalRecord r result with
  | case1 => exact Or.inl rfl
  | case2 => exact Or.inl rfl
  | case3 r hbuf heof s buffer file hread r' hs hshort ih =>
    refine ih.imp_right fun hmend => ?_
    have hbuf' : r.mend.buffer.length < kHeaderSize := hbuf
    have heof' : ¬ r.mend.eof = true := heof
    rw [← hmend, readPhysicalRecord, if_pos hbuf', if_neg heof',
      read_mend hread (by simpa using hs)]
    simp only
    rw [if_neg (by simp), if_pos hshort]
    rfl
  | case4 r hbuf heof s buffer file hread r' hs hfull ih =>
    refine ih.imp_right fun hmend => ?_
    have hbuf' : r.mend.buffer.length < kHeaderSize := hbuf
    have heof' : ¬ r.mend.eof = true := heof
    rw [← hmend, readPhysicalRecord, if_pos hbuf', if_neg heof',
      read_mend hread (by simpa using hs)]
    simp only
    rw [if_neg (by simp), if_neg hfull]
    rfl
  | case5 r hbuf =>
    have hbuf' : ¬ r.mend.buffer.length < kHeaderSize := hbuf
    refine Or.inr ?_
    rw [readPhysicalRecord, if_neg hbuf']
    exact mend_parseRecord r result

end Reader

/-! ### One physical read -/

/-- The reader stands at offset `p` of a file with contents `data`, whatever becomes of its
calls. -/
def Stands (data : Bytes) (p : ℕ) (r : Reader) : Prop := r.mend.At data p

/-- A record of the format with one of the writer's types is a fragment. -/
theorem Valid.placed {data payload : Bytes} {p : ℕ} {b : UInt8} {t : RecordType}
    (h : Valid data (nextHeader p) b payload) (hb : charToUnsigned b = t.toNat)
    (ht : t ≠ .kZeroType) : Fragment.Placed data p ⟨nextHeader p, t, payload⟩ := by
  have hbyte : b = t.byte := by
    have hle := t.toNat_le
    rw [charToUnsigned] at hb
    apply UInt8.toNat_inj.mp
    rw [RecordType.toNat_byte]
    split at hb <;> omega
  subst hbyte
  exact ⟨rfl, h.inBlock, h.stored, ht⟩

variable {data : Bytes} {p : ℕ} {r : Reader}

/-- **One physical read, over arbitrary bytes and a file that may fail.** Unless it says
end-of-file, the reader still stands somewhere; and unless it says that the record is bad, it has
read a record of the format that follows on where it stood, and stands behind it. -/
theorem Stands.readPhysicalRecord (h : Stands data p r) (hcheck : r.checksum = true)
    {result fragment : Bytes} {t : ℕ} {r' : Reader}
    (heq : r.readPhysicalRecord result = (t, fragment, r')) :
    t = kEof ∨ ∃ p', p ≤ p' ∧ Stands data p' r' ∧
      (∃ reports, Reader.Moved { r with reports := reports } r') ∧
      (t = kBadRecord ∨ ∃ b, t = charToUnsigned b ∧ Valid data (nextHeader p) b fragment ∧
        r.initialOffset ≤ nextHeader p ∧ p' = nextHeader p + kHeaderSize + fragment.length) := by
  rcases r.mend_readPhysicalRecord result with heof | hmend
  · rw [heq] at heof
    exact Or.inl heof
  · rw [heq] at hmend
    have hcheck' : r.mend.checksum = true := hcheck
    have hle := le_skipTrailer data.length p
    rcases Reader.At.readPhysicalRecord_cases h hcheck' result with
      ⟨b, payload, hv, hzero⟩ | ⟨-, r₁, hread, -⟩ | ⟨r₁, reports, hread, hat, hm, hlt⟩
    · -- There is a record, at the place where the next header goes.
      have hnext : skipTrailer data.length p = nextHeader p := by
        have hlimit := hv.limit_le
        have hin := hv.inBlock
        rw [skipTrailer] at hlimit hin ⊢
        rw [nextHeader]
        split_ifs at * <;> omega
      obtain ⟨r₁, hread, hat, hm⟩ := Reader.At.readPhysicalRecord_valid h hv hzero result
      rw [hmend, hnext] at hread
      rw [hnext] at hv hat hle
      have hfar : p ≤ nextHeader p + kHeaderSize + payload.length := by omega
      split at hread
      · simp only [Prod.mk.injEq] at hread
        obtain ⟨rfl, -, rfl⟩ := hread
        exact Or.inr ⟨_, hfar, hat, ⟨r.reports, ⟨hm.1, hm.2, hm.3, hm.4, hm.5, hm.6⟩⟩, Or.inl rfl⟩
      · next hoff =>
        simp only [Prod.mk.injEq] at hread
        obtain ⟨rfl, rfl, rfl⟩ := hread
        exact Or.inr ⟨_, hfar, hat, ⟨r.reports, ⟨hm.1, hm.2, hm.3, hm.4, hm.5, hm.6⟩⟩,
          Or.inr ⟨b, rfl, hv, Nat.not_lt.mp hoff, rfl⟩⟩
    · rw [hmend] at hread
      exact Or.inl (congrArg Prod.fst hread)
    · rw [hmend] at hread
      simp only [Prod.mk.injEq] at hread
      obtain ⟨rfl, -, rfl⟩ := hread
      have hblock := lt_blockLimit (skipTrailer data.length p)
      exact Or.inr ⟨_, by omega, hat, ⟨reports, ⟨hm.1, hm.2, hm.3, hm.4, hm.5, hm.6⟩⟩, Or.inl rfl⟩

/-! ### One round -/

/-- `r'` differs from `r` at most in what it has reported, returned and resynchronised with. -/
def Noted (r r' : Reader) : Prop :=
  ∃ reports resyncing offset,
    r' = { r with reports := reports, resyncing := resyncing, lastRecordOffset := offset }

theorem Reader.Reported.noted {r' : Reader} (h : r.Reported r') (offset : ℕ) :
    Noted r { r' with lastRecordOffset := offset } ∧ r'.resyncing = r.resyncing := by
  obtain ⟨more, rfl, -⟩ := h
  exact ⟨⟨_, _, _, rfl⟩, rfl⟩

/-- **What completes a record**: a full one, or a last one with others under assembly. -/
theorem dispatch_done {r' : Reader} {asm : Assembly} {t offset : ℕ} {fragment record : Bytes}
    (h : r.dispatch asm t fragment offset = .done (some record) r') :
    Noted r r' ∧ r'.resyncing = r.resyncing ∧
      (t = RecordType.kFullType.toNat ∧ record = fragment ∧ r'.lastRecordOffset = offset ∨
        t = RecordType.kLastType.toNat ∧ asm.inFragmentedRecord = true ∧
          record = asm.scratch ++ fragment ∧
          r'.lastRecordOffset = asm.prospectiveRecordOffset) := by
  simp only [Reader.dispatch] at h
  split_ifs at h with hfull _ _ _ hlast hin <;> cases h
  · obtain ⟨hnoted, hres⟩ := (r.reported_abandonPartial asm "partial record without end(1)").noted
      offset
    exact ⟨hnoted, hres, Or.inl ⟨hfull, rfl, rfl⟩⟩
  · exact ⟨⟨_, _, _, rfl⟩, rfl, Or.inr ⟨hlast, hin, rfl, rfl⟩⟩

/-- **What stays under assembly**: nothing, a first fragment, or what was there with a middle
one. -/
theorem dispatch_more {r' : Reader} {asm asm' : Assembly} {t offset : ℕ} {fragment : Bytes}
    (h : r.dispatch asm t fragment offset = .more asm' r') :
    Noted r r' ∧ r'.resyncing = r.resyncing ∧
      (asm'.inFragmentedRecord = false ∨
        t = RecordType.kFirstType.toNat ∧ asm' = ⟨fragment, true, offset⟩ ∨
        t = RecordType.kMiddleType.toNat ∧ asm.inFragmentedRecord = true ∧
          asm' = { asm with scratch := asm.scratch ++ fragment }) := by
  have hnoted : ∀ {r'' : Reader}, r.Reported r'' → Noted r r'' ∧ r''.resyncing = r.resyncing := by
    intro r'' hr
    obtain ⟨hn, hres⟩ := hr.noted r''.lastRecordOffset
    exact ⟨hn, hres⟩
  simp only [Reader.dispatch] at h
  split_ifs at h with hfull hfirst hmiddle hin hlast hin heof hbad hin <;> cases h
  · obtain ⟨hn, hres⟩ := hnoted (r.reported_abandonPartial asm _)
    exact ⟨hn, hres, Or.inr (Or.inl ⟨hfirst, rfl⟩)⟩
  · exact ⟨⟨_, _, _, rfl⟩, rfl, Or.inr (Or.inr ⟨hmiddle, hin, rfl⟩)⟩
  · obtain ⟨hn, hres⟩ := hnoted (r.reported_reportCorruption _ _)
    exact ⟨hn, hres, Or.inl (Bool.eq_false_iff.mpr hin)⟩
  · obtain ⟨hn, hres⟩ := hnoted (r.reported_reportCorruption _ _)
    exact ⟨hn, hres, Or.inl (Bool.eq_false_iff.mpr hin)⟩
  · obtain ⟨hn, hres⟩ := hnoted (r.reported_reportCorruption _ _)
    exact ⟨hn, hres, Or.inl rfl⟩
  · exact ⟨⟨_, _, _, rfl⟩, rfl, Or.inl (Bool.eq_false_iff.mpr hin)⟩
  · obtain ⟨hn, hres⟩ := hnoted (r.reported_reportCorruption _ _)
    exact ⟨hn, hres, Or.inl rfl⟩
  · obtain ⟨hn, hres⟩ := hnoted (r.reported_reportCorruption _ _)
    exact ⟨hn, hres, Or.inl rfl⟩

theorem Noted.of_settled {r' : Reader} (h : Noted { r with resyncing := false } r') :
    Noted r r' := by
  obtain ⟨reports, resyncing, offset, rfl⟩ := h
  exact ⟨reports, resyncing, offset, rfl⟩

/-- The offset `ReadRecord` computes for a physical record it has just read. -/
def physicalRecordOffset (r : Reader) (fragment : Bytes) : ℕ :=
  sub64 (sub64 (sub64 r.endOfBufferOffset r.buffer.length) kHeaderSize) fragment.length

theorem round_done {r' : Reader} {asm : Assembly} {t : ℕ} {fragment record : Bytes}
    (h : r.round asm t fragment = .done (some record) r') :
    Noted r r' ∧
      (t = RecordType.kFullType.toNat ∧ record = fragment ∧
          r'.lastRecordOffset = physicalRecordOffset r fragment ∨
        t = RecordType.kLastType.toNat ∧ asm.inFragmentedRecord = true ∧
          record = asm.scratch ++ fragment ∧
          r'.lastRecordOffset = asm.prospectiveRecordOffset) := by
  simp only [Reader.round] at h
  split_ifs at h
  · obtain ⟨hn, -, hcases⟩ := dispatch_done h
    exact ⟨hn.of_settled, hcases⟩
  · obtain ⟨hn, -, hcases⟩ := dispatch_done h
    exact ⟨hn, hcases⟩

theorem round_more {r' : Reader} {asm asm' : Assembly} {t : ℕ} {fragment : Bytes}
    (h : r.round asm t fragment = .more asm' r')
    (hres : r.resyncing = true → asm.inFragmentedRecord = false) :
    Noted r r' ∧ (r'.resyncing = true → asm'.inFragmentedRecord = false) ∧
      (asm'.inFragmentedRecord = false ∨
        t = RecordType.kFirstType.toNat ∧
          asm' = ⟨fragment, true, physicalRecordOffset r fragment⟩ ∨
        t = RecordType.kMiddleType.toNat ∧ asm.inFragmentedRecord = true ∧
          asm' = { asm with scratch := asm.scratch ++ fragment }) := by
  simp only [Reader.round] at h
  split_ifs at h with hr hmiddle hlast
  · cases h
    exact ⟨⟨_, _, _, rfl⟩, hres, Or.inl (hres hr)⟩
  · cases h
    exact ⟨⟨_, _, _, rfl⟩, fun _ => hres hr, Or.inl (hres hr)⟩
  · obtain ⟨hn, hr', hcases⟩ := dispatch_more h
    exact ⟨hn.of_settled, fun hc => absurd (hr'.symm.trans hc) Bool.false_ne_true, hcases⟩
  · obtain ⟨hn, hr', hcases⟩ := dispatch_more h
    exact ⟨hn, fun hc => absurd (hr'.symm.trans hc) hr, hcases⟩

theorem Noted.stands {r' : Reader} (h : Noted r r') (hs : Stands data p r) : Stands data p r' := by
  obtain ⟨reports, resyncing, offset, rfl⟩ := h
  exact ⟨hs.sound, hs.bytes, hs.offset, hs.block⟩

theorem Noted.settings {r' : Reader} (h : Noted r r') :
    r'.checksum = r.checksum ∧ r'.initialOffset = r.initialOffset := by
  obtain ⟨reports, resyncing, offset, rfl⟩ := h
  exact ⟨rfl, rfl⟩

/-! ### Logical records -/

/-- The fragments of one logical record: a full one, or a first one, middle ones and a last one. -/
inductive Whole : List Fragment → Prop
  | full {f : Fragment} : f.type = .kFullType → Whole [f]
  | fragmented {first last : Fragment} {middles : List Fragment} : first.type = .kFirstType →
    (∀ f ∈ middles, f.type = .kMiddleType) → last.type = .kLastType →
    Whole (first :: middles ++ [last])

/-- The payloads of a run of fragments, one after another. -/
def payloads (fs : List Fragment) : Bytes := (fs.map Fragment.payload).flatten

/-- A record with its offset is made up of the fragments `fs`, which follow on each other in the
file and are all behind the initial offset. -/
structure MadeOf (data : Bytes) (initialOffset : ℕ) (x : Bytes × ℕ) (fs : List Fragment) :
    Prop where
  adjacent : ∃ p q, Stream data p fs q
  whole : Whole fs
  payload : x.1 = payloads fs
  offset : x.2 = recordOffset fs
  behind : ∀ f ∈ fs, initialOffset ≤ f.offset

/-- What is under assembly at offset `p` is a run of a first and of middle fragments that ends there
and does not start in front of `lo`. -/
def Held (data : Bytes) (initialOffset lo p : ℕ) (asm : Assembly) : Prop :=
  asm.inFragmentedRecord = true → ∃ first middles p₀, Stream data p₀ (first :: middles) p ∧
    first.type = .kFirstType ∧ (∀ f ∈ middles, f.type = .kMiddleType) ∧
    asm.scratch = payloads (first :: middles) ∧ asm.prospectiveRecordOffset = first.offset ∧
    (∀ f ∈ first :: middles, initialOffset ≤ f.offset) ∧ lo ≤ first.offset

theorem held_start (data : Bytes) (initialOffset lo p : ℕ) :
    Held data initialOffset lo p .start :=
  fun h => absurd h Bool.false_ne_true

/-- A run goes on with the fragment that follows it. -/
theorem Stream.concat {p₀ : ℕ} {fs : List Fragment} {f : Fragment} (h : Stream data p₀ fs p)
    (hf : f.Placed data p) : Stream data p₀ (fs ++ [f]) f.limit :=
  h.append ⟨hf, rfl⟩

theorem payloads_concat (fs : List Fragment) (f : Fragment) :
    payloads (fs ++ [f]) = payloads fs ++ f.payload := by
  simp [payloads]

/-- All fragments of a run are behind its first. -/
theorem Stream.le_offset {q lo : ℕ} {first : Fragment} {fs : List Fragment}
    (h : Stream data p (first :: fs) q) (hlo : lo ≤ first.offset) :
    ∀ f ∈ first :: fs, lo ≤ f.offset := by
  intro f hf
  rcases List.mem_cons.mp hf with rfl | hf'
  · exact hlo
  · exact hlo.trans (h.offset_lt hf').le

/-- **A run that is broken is forgotten.** What is under assembly after a round is again a run that
ends where the reader stands. -/
theorem Held.round {lo p' : ℕ} {asm asm' : Assembly} {t : ℕ} {fragment : Bytes} {r' : Reader}
    (h : Held data r.initialOffset lo p asm) (hlo : lo ≤ p) (hs : Stands data p' r')
    (hread : t = kBadRecord ∨ ∃ b, t = charToUnsigned b ∧ Valid data (nextHeader p) b fragment ∧
      r.initialOffset ≤ nextHeader p ∧ p' = nextHeader p + kHeaderSize + fragment.length)
    (hcases : asm'.inFragmentedRecord = false ∨
        t = RecordType.kFirstType.toNat ∧
          asm' = ⟨fragment, true, physicalRecordOffset r' fragment⟩ ∨
        t = RecordType.kMiddleType.toNat ∧ asm.inFragmentedRecord = true ∧
          asm' = { asm with scratch := asm.scratch ++ fragment }) :
    Held data r.initialOffset lo p' asm' := by
  rcases hcases with hout | ⟨rfl, rfl⟩ | ⟨rfl, hin, rfl⟩
  · exact fun hc => absurd (hout.symm.trans hc) Bool.false_ne_true
  · rcases hread with hbad | ⟨b, hb, hv, hoff, rfl⟩
    · exact absurd hbad (by decide)
    · intro _
      have hf := hv.placed hb.symm (by decide)
      have hoffset : physicalRecordOffset r' fragment = nextHeader p := hs.physicalRecordOffset
      refine ⟨_, [], p, ⟨hf, rfl⟩, rfl, fun _ hm => absurd hm List.not_mem_nil, ?_, hoffset, ?_,
        hlo.trans (le_nextHeader p)⟩
      · simp [payloads]
      · intro f hmem
        rw [List.mem_singleton] at hmem
        subst hmem
        exact hoff
  · rcases hread with hbad | ⟨b, hb, hv, hoff, rfl⟩
    · exact absurd hbad (by decide)
    · intro _
      have hf := hv.placed hb.symm (by decide)
      obtain ⟨first, middles, p₀, hstream, hfirst, hmiddles, hscratch, hstart, hbehind, hle⟩ :=
        h hin
      have hall : Stream data p₀ (first :: (middles ++ [⟨nextHeader p, .kMiddleType, fragment⟩]))
          _ :=
        hstream.concat hf
      refine ⟨first, _, p₀, hall, hfirst, ?_, ?_, hstart, ?_, hle⟩
      · intro f hmem
        rcases List.mem_append.mp hmem with hmem | hmem
        · exact hmiddles f hmem
        · rw [List.mem_singleton.mp hmem]
      · rw [← List.cons_append, payloads_concat, ← hscratch]
      · intro f hmem
        rw [← List.cons_append] at hmem
        rcases List.mem_append.mp hmem with hmem | hmem
        · exact hbehind f hmem
        · rw [List.mem_singleton.mp hmem]
          exact hoff

/-- What a round completes is made up of the run under assembly and the fragment just read. -/
theorem Held.complete {lo p' offset : ℕ} {asm : Assembly} {t : ℕ} {fragment record : Bytes}
    {r' : Reader} (h : Held data r.initialOffset lo p asm) (hlo : lo ≤ p) (hs : Stands data p' r')
    (hread : t = kBadRecord ∨ ∃ b, t = charToUnsigned b ∧ Valid data (nextHeader p) b fragment ∧
      r.initialOffset ≤ nextHeader p ∧ p' = nextHeader p + kHeaderSize + fragment.length)
    (hcases : t = RecordType.kFullType.toNat ∧ record = fragment ∧
          offset = physicalRecordOffset r' fragment ∨
        t = RecordType.kLastType.toNat ∧ asm.inFragmentedRecord = true ∧
          record = asm.scratch ++ fragment ∧ offset = asm.prospectiveRecordOffset) :
    ∃ fs, MadeOf data r.initialOffset (record, offset) fs ∧
      ∀ f ∈ fs, lo ≤ f.offset ∧ f.limit ≤ p' := by
  rcases hcases with ⟨rfl, rfl, rfl⟩ | ⟨rfl, hin, rfl, rfl⟩
  · rcases hread with hbad | ⟨b, hb, hv, hoff, rfl⟩
    · exact absurd hbad (by decide)
    · have hf := hv.placed hb.symm (by decide)
      have hoffset : physicalRecordOffset r' record
          = recordOffset [⟨nextHeader p, .kFullType, record⟩] := by
        rw [recordOffset_cons, physicalRecordOffset]
        exact hs.physicalRecordOffset
      refine ⟨[⟨nextHeader p, .kFullType, record⟩],
        ⟨⟨p, _, hf, rfl⟩, .full rfl, by simp [payloads], hoffset, ?_⟩, ?_⟩
      · intro f hmem
        rw [List.mem_singleton.mp hmem]
        exact hoff
      · intro f hmem
        rw [List.mem_singleton.mp hmem]
        exact ⟨hlo.trans (le_nextHeader p), Nat.le_of_eq (Fragment.limit_mk ..)⟩
  · rcases hread with hbad | ⟨b, hb, hv, hoff, rfl⟩
    · exact absurd hbad (by decide)
    · have hf := hv.placed hb.symm (by decide)
      obtain ⟨first, middles, p₀, hstream, hfirst, hmiddles, hscratch, hstart, hbehind, hle⟩ :=
        h hin
      have hall : Stream data p₀ (first :: (middles ++ [⟨nextHeader p, .kLastType, fragment⟩])) _ :=
        hstream.concat hf
      refine ⟨_, ⟨⟨p₀, _, hall⟩, .fragmented hfirst hmiddles rfl, ?_, hstart, ?_⟩, ?_⟩
      · rw [← List.cons_append, payloads_concat, ← hscratch]
      · intro f hmem
        rw [← List.cons_append] at hmem
        rcases List.mem_append.mp hmem with hmem | hmem
        · exact hbehind f hmem
        · rw [List.mem_singleton.mp hmem]
          exact hoff
      · intro f hmem
        exact ⟨hall.le_offset hle f hmem, (hall.limit_mem hmem).2⟩

/-- **One call of `ReadRecord`** from the middle on: a record it returns is made up of fragments
between `lo` and the place where the reader stands afterwards. -/
theorem Stands.readLoop {lo : ℕ} (h : Stands data p r) (hcheck : r.checksum = true) (hlo : lo ≤ p)
    {asm : Assembly} (hheld : Held data r.initialOffset lo p asm)
    (hres : r.resyncing = true → asm.inFragmentedRecord = false) {fragment record : Bytes}
    {r' : Reader} (heq : r.readLoop asm fragment = (some record, r')) :
    ∃ fs p', p ≤ p' ∧ Stands data p' r' ∧ r'.checksum = true ∧
      r'.initialOffset = r.initialOffset ∧
      MadeOf data r.initialOffset (record, r'.lastRecordOffset) fs ∧
      ∀ f ∈ fs, lo ≤ f.offset ∧ f.limit ≤ p' := by
  fun_induction Reader.readLoop r asm fragment generalizing p with
  | case1 r asm fragment record' r₂ hround =>
    cases heq
    obtain ⟨hne, -⟩ := Reader.remaining_round_done hround
    obtain ⟨hnoted, hcases⟩ := round_done hround
    rcases h.readPhysicalRecord hcheck rfl with heof | ⟨p', hle, hs, ⟨reports, hm⟩, hread⟩
    · exact absurd heof hne
    · obtain ⟨hck, hio⟩ := hnoted.settings
      obtain ⟨fs, hmade, hfs⟩ := hheld.complete hlo hs hread hcases
      exact ⟨fs, p', hle, hnoted.stands hs, hck.trans (hm.checksum.trans hcheck),
        hio.trans hm.initialOffset, hmade, hfs⟩
  | case2 r asm fragment asm₂ r₂ hround ih =>
    obtain ⟨hne, -⟩ := Reader.remaining_round_more hround
    rcases h.readPhysicalRecord hcheck rfl with heof | ⟨p', hle, hs, ⟨reports, hm⟩, hread⟩
    · exact absurd heof hne
    · obtain ⟨hnoted, hres₂, hcases⟩ := round_more hround fun hr => hres (hm.resyncing ▸ hr)
      obtain ⟨hck, hio⟩ := hnoted.settings
      have hio' : r₂.initialOffset = r.initialOffset := hio.trans hm.initialOffset
      have hheld₂ := hheld.round hlo hs hread hcases
      rw [← hio'] at hheld₂ ⊢
      obtain ⟨fs, p'', hle', hrest⟩ := ih (hnoted.stands hs) (hck.trans (hm.checksum.trans hcheck))
        (hlo.trans hle) hheld₂ hres₂ heq
      exact ⟨fs, p'', hle.trans hle', hrest⟩

/-! ### All calls -/

/-- **All calls of `ReadRecord`**, from the middle of one on. -/
theorem Stands.readFrom {lo : ℕ} (h : Stands data p r) (hcheck : r.checksum = true) (hlo : lo ≤ p)
    (fragment : Bytes) :
    ∃ runs, List.Forall₂ (MadeOf data r.initialOffset) (r.readFrom .start fragment).1 runs ∧
      runs.flatten.Pairwise (fun f g => f.limit ≤ g.offset) ∧
      ∀ f ∈ runs.flatten, lo ≤ f.offset := by
  induction hn : r.remaining using Nat.strong_induction_on generalizing p lo r fragment with
  | _ n ih =>
    rw [Reader.readFrom]
    split
    · exact ⟨[], .nil, .nil, fun _ hf => absurd hf List.not_mem_nil⟩
    · next record r' heq =>
      obtain ⟨fs, p', hle, hs, hck, hio, hmade, hfs⟩ := h.readLoop hcheck hlo
        (held_start data r.initialOffset lo p) (fun _ => rfl) heq
      have hlast : r'.initialOffset ≤ r'.lastRecordOffset := by
        have hoffset : r'.lastRecordOffset = recordOffset fs := hmade.offset
        rw [hio, hoffset]
        cases hmade.whole with
        | full _ => exact hmade.behind _ List.mem_cons_self
        | fragmented _ _ _ => exact hmade.behind _ List.mem_cons_self
      obtain ⟨runs, hruns, hpair, hbound⟩ :=
        ih r'.remaining (hn ▸ Reader.remaining_readLoop heq) hs hck le_rfl [] rfl
      rw [← Reader.readAll_eq_readFrom hlast, hio] at hruns
      obtain ⟨p₀, q, hstream⟩ := hmade.adjacent
      refine ⟨fs :: runs, .cons hmade hruns, ?_, ?_⟩
      · rw [List.flatten_cons, List.pairwise_append]
        exact ⟨hstream.pairwise, hpair, fun f hf g hg => (hfs f hf).2.trans (hbound g hg)⟩
      · intro f hf
        rw [List.flatten_cons] at hf
        rcases List.mem_append.mp hf with hf | hf
        · exact (hfs f hf).1
        · exact (hlo.trans hle).trans (hbound f hf)

/-- Unless the skip fails, a new reader stands at its first block after it. -/
theorem stands_skipToInitialBlock (source : SequentialFile) (reporter checksum : Bool)
    (initialOffset : ℕ) {ok : Bool} {r : Reader}
    (h : (Reader.new source reporter checksum initialOffset).skipToInitialBlock = (ok, r)) :
    ok = false ∨ Stands source.contents (initialBlock initialOffset) r ∧ r.checksum = checksum ∧
      r.initialOffset = initialOffset := by
  set r₀ := Reader.new source reporter checksum initialOffset
  have hloc : (if kBlockSize - 6 < r₀.initialOffset % kBlockSize then
      (r₀.initialOffset - r₀.initialOffset % kBlockSize + kBlockSize) % 2 ^ 64
      else r₀.initialOffset - r₀.initialOffset % kBlockSize) = initialBlock initialOffset := rfl
  have hmod := initialBlock_mod initialOffset
  simp only [Reader.skipToInitialBlock, hloc, SequentialFile.skip] at h
  split at h
  · split at h
    · cases h
      exact Or.inr ⟨⟨fun _ => rfl, rfl, rfl, Or.inl ⟨rfl, hmod⟩⟩, rfl, rfl⟩
    · cases h
      exact Or.inl rfl
  · next hzero =>
    cases h
    have hb : initialBlock initialOffset = 0 := Nat.eq_zero_of_not_pos hzero
    rw [hb]
    exact Or.inr ⟨⟨fun _ => rfl, rfl, rfl, Or.inl ⟨rfl, rfl⟩⟩, rfl, rfl⟩

/-- **Whatever the file holds**, and whichever calls on it fail, each record returned is made up of
physical records with correct checksums that follow on each other, behind the initial offset: one
full record, or a first one, middle ones and a last one. The records returned by different calls
come from disjoint ranges of the file, in increasing order. -/
theorem readAll_sound (source : SequentialFile) (reporter : Bool) (initialOffset : ℕ) :
    ∃ runs, List.Forall₂ (MadeOf source.contents initialOffset)
        (Reader.new source reporter true initialOffset).readAll.1 runs ∧
      runs.flatten.Pairwise fun f g => f.limit ≤ g.offset := by
  set r := Reader.new source reporter true initialOffset with hr
  rcases Nat.eq_zero_or_pos initialOffset with rfl | hpos
  · have hs : Stands source.contents 0 r :=
      @Reader.at_new { source with fate := fun _ => .success } (fun _ => rfl) reporter true 0
    obtain ⟨runs, hruns, hpair, -⟩ := hs.readFrom rfl le_rfl []
    rw [Reader.readAll_eq_readFrom (Nat.le_refl 0)]
    exact ⟨runs, hruns, hpair⟩
  · have hlt : r.lastRecordOffset < r.initialOffset := hpos
    rcases hskip : r.skipToInitialBlock with ⟨ok, r₁⟩
    cases ok with
    | false =>
      have hnone : r.readRecord = (none, r₁) := by
        rw [Reader.readRecord, if_pos hlt, hskip]
        rfl
      rw [Reader.readAll_of_none hnone]
      exact ⟨[], .nil, .nil⟩
    | true =>
      rcases stands_skipToInitialBlock source reporter true initialOffset hskip with
        hfail | ⟨hs, hck, hio⟩
      · exact absurd hfail (by simp)
      · have hread : r.readAll = r₁.readFrom .start [] :=
          Reader.readAll_of_readLoop (by rw [Reader.readRecord, if_pos hlt, hskip]; rfl)
        obtain ⟨runs, hruns, hpair, -⟩ := hs.readFrom hck le_rfl []
        rw [hio] at hruns
        rw [hread]
        exact ⟨runs, hruns, hpair⟩

end Log

end Squirrel
