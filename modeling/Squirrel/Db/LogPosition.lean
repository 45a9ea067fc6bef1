import Squirrel.Db.LogReader

/-!
# The reader as a position in the file

The reader's buffer, its end-of-file flag and the file behind it amount to one number: the offset of
the first byte not consumed yet. `At data p r` says that `r` stands at offset `p` of a file with
contents `data`, and every fact about reading is proved about positions.

Two positions matter in a block: where the reader stands, and where it will look for a header, which
`skipTrailer` computes. `refill` is the only place where the two branches of the buffer logic
(full read, short read) are taken apart.

## Main results

* `At.refill` — a physical read is a parse at `skipTrailer data.length p`, or end-of-file
* `At.readPhysicalRecord_valid` — at a record of the format, it is returned
* `At.readPhysicalRecord_cases` — over arbitrary bytes there is nothing else than such records, the
  end of the file, and blocks that are dropped
* `At.readPhysicalRecord_of_short` — a tail too short for what it starts is a silent end-of-file
-/

namespace Squirrel

namespace Log

theorem charToUnsigned_eq_zero {b : UInt8} (h : charToUnsigned b = 0) : b = 0 := by
  rw [charToUnsigned] at h
  split at h
  · exact UInt8.toNat_inj.mp h
  · omega

theorem charToUnsigned_byte (t : RecordType) : charToUnsigned t.byte = t.toNat := by
  cases t <;> rfl

/-- The end of the block that holds offset `p`. -/
def blockLimit (p : ℕ) : ℕ := (p / kBlockSize + 1) * kBlockSize

theorem lt_blockLimit (p : ℕ) : p < blockLimit p := by
  simp only [blockLimit, kBlockSize]
  omega

theorem blockLimit_eq_of_lt {p q : ℕ} (h : p ≤ q) (hq : q < blockLimit p) :
    blockLimit q = blockLimit p := by
  simp only [blockLimit, kBlockSize] at *
  omega

theorem blockLimit_mono {p q : ℕ} (h : p ≤ q) : blockLimit p ≤ blockLimit q := by
  simp only [blockLimit, kBlockSize] at *
  omega

theorem blockLimit_mod (p : ℕ) : blockLimit p % kBlockSize = 0 := Nat.mul_mod_left _ _

theorem blockLimit_of_mod_eq_zero {p : ℕ} (h : p % kBlockSize = 0) :
    blockLimit p = p + kBlockSize := by
  simp only [blockLimit, kBlockSize] at *
  omega

/-- Where a reader at offset `p` of a file of length `len` looks for a header: behind the trailer,
if the file goes on there. -/
def skipTrailer (len p : ℕ) : ℕ :=
  if blockLimit p ≤ len ∧ blockLimit p < p + kHeaderSize then blockLimit p else p

/-- The offset of a physical record, recovered from the buffer behind it. -/
theorem sub64_header (p length rest : ℕ) :
    sub64 (sub64 (sub64 (p + (kHeaderSize + length + rest)) rest) kHeaderSize) length = p := by
  have h₁ : sub64 (p + (kHeaderSize + length + rest)) rest = p + length + kHeaderSize := by
    rw [sub64_of_le (by omega)]
    omega
  have h₂ : sub64 (p + length + kHeaderSize) kHeaderSize = p + length := by
    rw [sub64_of_le (by omega)]
    omega
  rw [h₁, h₂, sub64_of_le (by omega)]
  omega

theorem le_skipTrailer (len p : ℕ) : p ≤ skipTrailer len p := by
  rw [skipTrailer]
  split
  · exact (lt_blockLimit p).le
  · exact le_rfl

/-- Where the next header goes in a file that ends at offset `p`. -/
def nextHeader (p : ℕ) : ℕ := if blockLimit p < p + kHeaderSize then blockLimit p else p

theorem le_nextHeader (p : ℕ) : p ≤ nextHeader p := by
  rw [nextHeader]
  split
  · exact (lt_blockLimit p).le
  · exact le_rfl

theorem nextHeader_mono {p q : ℕ} (h : p ≤ q) : nextHeader p ≤ nextHeader q := by
  rw [nextHeader, nextHeader]
  split <;> split <;> simp only [blockLimit, kBlockSize, kHeaderSize] at * <;> omega

/-- A header put where `nextHeader` says stays within its block. -/
theorem nextHeader_add_le (p : ℕ) : nextHeader p + kHeaderSize ≤ blockLimit (nextHeader p) := by
  rw [nextHeader]
  split
  · rw [blockLimit_of_mod_eq_zero (blockLimit_mod p)]
    exact Nat.add_le_add_left (by decide) _
  · omega

theorem nextHeader_nextHeader (p : ℕ) : nextHeader (nextHeader p) = nextHeader p := by
  have h := nextHeader_add_le p
  conv_lhs => rw [nextHeader, if_neg (Nat.not_lt.mpr h)]

theorem nextHeader_of_mod_eq_zero {p : ℕ} (h : p % kBlockSize = 0) : nextHeader p = p := by
  rw [nextHeader, blockLimit_of_mod_eq_zero h, if_neg]
  simp only [kBlockSize, kHeaderSize]
  omega

/-- Where the file goes on behind the header position, the reader looks where the writer put it. -/
theorem skipTrailer_eq_nextHeader {len p : ℕ} (h : nextHeader p ≤ len) :
    skipTrailer len p = nextHeader p := by
  rw [nextHeader] at h ⊢
  rw [skipTrailer]
  split at h
  · next hlt => rw [if_pos ⟨h, hlt⟩, if_pos hlt]
  · next hge => rw [if_neg fun hc => hge hc.2, if_neg hge]

/-- A physical record at its place in a file. -/
structure Fragment where
  offset : ℕ
  type : RecordType
  payload : Bytes

namespace Fragment

def bytes (f : Fragment) : Bytes := physicalRecord f.type f.payload

/-- The offset behind the fragment. -/
def limit (f : Fragment) : ℕ := f.offset + kHeaderSize + f.payload.length

theorem limit_mk (offset : ℕ) (type : RecordType) (payload : Bytes) :
    limit ⟨offset, type, payload⟩ = offset + kHeaderSize + payload.length := rfl

/-- The fragment is stored in `data` at the next header position behind `p`, within one block. -/
structure Placed (data : Bytes) (p : ℕ) (f : Fragment) : Prop where
  next : nextHeader p = f.offset
  inBlock : f.limit ≤ blockLimit f.offset
  stored : f.bytes <+: data.drop f.offset
  kind : f.type ≠ .kZeroType

theorem Placed.limit_le {data : Bytes} {p : ℕ} {f : Fragment} (h : f.Placed data p) :
    f.limit ≤ data.length := by
  have hlen := h.stored.length_le
  have hpos : 0 < kHeaderSize := by decide
  rw [bytes, length_physicalRecord, List.length_drop] at hlen
  rw [limit]
  omega

theorem Placed.lt_limit {data : Bytes} {p : ℕ} {f : Fragment} (h : f.Placed data p) :
    p < f.limit := by
  have hle := le_nextHeader p
  have hpos : 0 < kHeaderSize := by decide
  rw [h.next] at hle
  rw [limit]
  omega

/-- A reader looks for a stored fragment where it is. -/
theorem Placed.found {data : Bytes} {p : ℕ} {f : Fragment} (h : f.Placed data p) :
    skipTrailer data.length p = f.offset := by
  have hlimit := h.limit_le
  rw [limit] at hlimit
  rw [← h.next]
  exact skipTrailer_eq_nextHeader (by rw [h.next]; omega)

/-- What is stored stays stored when the file grows. -/
theorem Placed.mono {data data' : Bytes} {p : ℕ} {f : Fragment} (h : f.Placed data p)
    (hd : data <+: data') : f.Placed data' p where
  next := h.next
  inBlock := h.inBlock
  stored := by
    obtain ⟨more, rfl⟩ := hd
    have hlimit := h.limit_le
    rw [limit] at hlimit
    rw [List.drop_append_of_le_length (by omega)]
    exact h.stored.trans (List.prefix_append _ _)
  kind := h.kind

end Fragment

/-- There is a record of the format, within one block, at offset `q`. -/
structure Valid (data : Bytes) (q : ℕ) (b : UInt8) (payload : Bytes) : Prop where
  stored : rawRecord b payload <+: data.drop q
  inBlock : q + kHeaderSize + payload.length ≤ blockLimit q

theorem Valid.limit_le {data : Bytes} {q : ℕ} {b : UInt8} {payload : Bytes}
    (h : Valid data q b payload) : q + kHeaderSize + payload.length ≤ data.length := by
  have hlen := h.stored.length_le
  have hpos : 0 < kHeaderSize := by decide
  rw [length_rawRecord, List.length_drop] at hlen
  omega

theorem Valid.length_lt {data : Bytes} {q : ℕ} {b : UInt8} {payload : Bytes}
    (h : Valid data q b payload) : payload.length < 2 ^ 16 := by
  have hin := h.inBlock
  simp only [blockLimit, kBlockSize, kHeaderSize] at hin
  omega

theorem Valid.mono {data data' : Bytes} {q : ℕ} {b : UInt8} {payload : Bytes}
    (h : Valid data q b payload) (hd : data <+: data') : Valid data' q b payload := by
  refine ⟨?_, h.inBlock⟩
  obtain ⟨more, rfl⟩ := hd
  have hlimit := h.limit_le
  rw [List.drop_append_of_le_length (by omega)]
  exact h.stored.trans (List.prefix_append _ _)

theorem Fragment.Placed.valid {data : Bytes} {p : ℕ} {f : Fragment} (h : f.Placed data p) :
    Valid data f.offset f.type.byte f.payload :=
  ⟨h.stored, h.inBlock⟩

theorem Fragment.Placed.byte_ne {data : Bytes} {p : ℕ} {f : Fragment} (h : f.Placed data p) :
    f.type.byte ≠ 0 := by
  have hkind := h.kind
  cases ht : f.type with
  | kZeroType => exact absurd ht hkind
  | kFullType => decide
  | kFirstType => decide
  | kMiddleType => decide
  | kLastType => decide

/-- The file stops inside what starts at offset `q`: the bytes from there on are too few for a
header, or are a short initial piece of a physical record that fits in the block. -/
def CutShort (data : Bytes) (q : ℕ) : Prop :=
  data.length < q + kHeaderSize ∨ data.length < blockLimit q ∧
    ∃ t payload, payload.length < 2 ^ 16 ∧ data.length < q + kHeaderSize + payload.length ∧
      data.drop q <+: physicalRecord t payload

namespace Reader

/-- `r` stands at offset `p` of a file with contents `data`, none of whose reads fails. -/
structure At (data : Bytes) (p : ℕ) (r : Reader) : Prop where
  sound : r.file.Sound
  /-- The buffer and the unread part of the file are what follows `p`. -/
  bytes : r.buffer ++ r.file.contents = data.drop p
  offset : r.endOfBufferOffset = p + r.buffer.length
  /-- The buffer reaches to the end of the block, or of the file. -/
  block : if r.eof then r.file.contents = [] ∧ p + r.buffer.length < blockLimit p
    else r.buffer = [] ∧ p % kBlockSize = 0 ∨ p + r.buffer.length = blockLimit p

/-- `r'` differs from `r` at most in where it stands. -/
structure Moved (r r' : Reader) : Prop where
  reporter : r'.reporter = r.reporter
  checksum : r'.checksum = r.checksum
  lastRecordOffset : r'.lastRecordOffset = r.lastRecordOffset
  initialOffset : r'.initialOffset = r.initialOffset
  resyncing : r'.resyncing = r.resyncing
  reports : r'.reports = r.reports

theorem Moved.refl (r : Reader) : Moved r r := ⟨rfl, rfl, rfl, rfl, rfl, rfl⟩

theorem at_new {file : SequentialFile} (h : file.Sound) (reporter checksum : Bool) (offset : ℕ) :
    At file.contents 0 (Reader.new file reporter checksum offset) where
  sound := h
  bytes := rfl
  offset := rfl
  block := Or.inl ⟨rfl, rfl⟩

variable {data : Bytes} {p : ℕ} {r : Reader}

theorem At.length_eq (h : At data p r) : r.buffer.length + r.file.contents.length
    = data.length - p := by
  rw [← List.length_append, h.bytes, List.length_drop]

/-- At the start of a block or inside it, dropping `n` buffered bytes moves `n` bytes on. -/
theorem At.advance (h : At data p r) {n : ℕ} (hn : n ≤ r.buffer.length) :
    At data (p + n) { r with buffer := r.buffer.drop n } where
  sound := h.sound
  bytes := by
    change r.buffer.drop n ++ r.file.contents = data.drop (p + n)
    rw [← List.drop_drop, ← h.bytes, List.drop_append_of_le_length hn]
  offset := by
    change r.endOfBufferOffset = p + n + (r.buffer.drop n).length
    rw [h.offset, List.length_drop]
    omega
  block := by
    have hb := h.block
    change if r.eof then r.file.contents = [] ∧ p + n + (r.buffer.drop n).length
      < blockLimit (p + n)
      else r.buffer.drop n = [] ∧ (p + n) % kBlockSize = 0
        ∨ p + n + (r.buffer.drop n).length = blockLimit (p + n)
    rw [List.length_drop]
    split at hb
    · next he =>
      rw [if_pos he]
      have := blockLimit_mono (Nat.le_add_right p n)
      exact ⟨hb.1, by omega⟩
    · next he =>
      rw [if_neg he]
      rcases hb with ⟨hnil, hmod⟩ | hlimit
      · rw [hnil, List.length_nil, Nat.le_zero] at hn
        subst hn
        exact Or.inl ⟨by rw [hnil, List.drop_nil], hmod⟩
      · rcases Nat.lt_or_ge n r.buffer.length with hlt | hge
        · rw [blockLimit_eq_of_lt (Nat.le_add_right p n) (by omega)]
          exact Or.inr (by omega)
        · have hend : p + n = blockLimit p := by omega
          refine Or.inl ⟨List.drop_eq_nil_iff.mpr hge, ?_⟩
          rw [hend, blockLimit_mod]

/-- Dropping the whole buffer moves to its end. -/
theorem At.clear (h : At data p r) : At data (p + r.buffer.length) { r with buffer := [] } := by
  have := h.advance (le_refl r.buffer.length)
  rwa [List.drop_length] at this

/-- A reader that is `At` a position, whose buffer holds the rest of the block or of the file. -/
structure Loaded (data : Bytes) (p : ℕ) (r : Reader) : Prop extends At data p r where
  full : r.eof = false → p + r.buffer.length = blockLimit p

theorem Loaded.buffer_eq (h : Loaded data p r) :
    r.buffer = (data.drop p).take (blockLimit p - p) := by
  rw [← h.bytes]
  cases he : r.eof with
  | true =>
    have hb := h.block
    rw [if_pos he] at hb
    rw [hb.1, List.append_nil, List.take_of_length_le (by omega)]
  | false =>
    have hfull := h.full he
    rw [← hfull, Nat.add_sub_cancel_left, List.take_left]

/-- The end-of-file flag says that the block is short. -/
theorem Loaded.eof_iff (h : Loaded data p r) : r.eof = true ↔ data.length < blockLimit p := by
  have hlen := h.length_eq
  have hlt := lt_blockLimit p
  cases he : r.eof with
  | true =>
    have hb := h.block
    rw [if_pos he] at hb
    rw [hb.1, List.length_nil] at hlen
    exact ⟨fun _ => by omega, fun _ => rfl⟩
  | false =>
    have hfull := h.full he
    exact ⟨fun hc => absurd hc (by simp), fun hc => absurd hc (by omega)⟩

/-- With less than a header in the buffer, and more to read, the header is looked for where the next
read starts. -/
theorem At.skipTrailer_eq (h : At data p r) (hshort : r.buffer.length < kHeaderSize)
    (he : r.eof = false) :
    skipTrailer data.length p = r.endOfBufferOffset ∧ r.endOfBufferOffset % kBlockSize = 0 ∧
      r.file.contents = data.drop r.endOfBufferOffset := by
  have hlen := h.length_eq
  have hb := h.block
  rw [if_neg (by rw [he]; simp)] at hb
  have hdrop : r.file.contents = data.drop r.endOfBufferOffset := by
    rw [h.offset, ← List.drop_drop, ← h.bytes, List.drop_left]
  rcases hb with ⟨hnil, hmod⟩ | hlimit
  · have hoff : r.endOfBufferOffset = p := by rw [h.offset, hnil]; rfl
    rw [hoff] at hdrop ⊢
    refine ⟨?_, hmod, hdrop⟩
    rw [skipTrailer, if_neg]
    rw [blockLimit_of_mod_eq_zero hmod]
    simp only [kBlockSize, kHeaderSize]
    omega
  · have hlt := lt_blockLimit p
    refine ⟨?_, by rw [h.offset, hlimit, blockLimit_mod], hdrop⟩
    rw [skipTrailer, if_pos (by omega), h.offset, hlimit]

/-- A short read: the end of the file is in this block. -/
theorem At.refill_short (h : At data p r) (hshort : r.buffer.length < kHeaderSize)
    (he : r.eof = false) (hcontents : r.file.contents.length < kBlockSize) (result : Bytes) :
    ∃ r₀, Loaded data r.endOfBufferOffset r₀ ∧ Moved r r₀ ∧
      r.readPhysicalRecord result =
        if r₀.buffer.length < kHeaderSize then (kEof, result, { r₀ with buffer := [] })
        else r₀.parseRecord result := by
  obtain ⟨-, hmod, hdrop⟩ := h.skipTrailer_eq hshort he
  set q := r.endOfBufferOffset with hqdef
  have hlim : blockLimit q = q + kBlockSize := blockLimit_of_mod_eq_zero hmod
  have htake : r.file.contents.take kBlockSize = r.file.contents :=
    List.take_of_length_le hcontents.le
  have hnil : r.file.contents.drop kBlockSize = [] := List.drop_eq_nil_iff.mpr hcontents.le
  refine ⟨{ r with
    file := { r.file with contents := [], calls := r.file.calls + 1 }
    buffer := r.file.contents
    endOfBufferOffset := q + r.file.contents.length
    eof := true }, ⟨⟨h.sound, ?_, rfl, ?_⟩, fun hf => absurd hf (by simp)⟩,
    ⟨rfl, rfl, rfl, rfl, rfl, rfl⟩, ?_⟩
  · simpa using hdrop
  · simp only [if_true, true_and]
    omega
  · rw [readPhysicalRecord, if_pos hshort, if_neg (by rw [he]; simp),
      SequentialFile.read_of_sound h.sound kBlockSize]
    simp only [htake, hnil]
    rw [if_neg (by simp), if_pos hcontents, readPhysicalRecord]
    simp only [if_true, ← hqdef]

/-- A full read: the whole block is in the buffer. -/
theorem At.refill_full (h : At data p r) (hshort : r.buffer.length < kHeaderSize)
    (he : r.eof = false) (hcontents : kBlockSize ≤ r.file.contents.length) (result : Bytes) :
    ∃ r₀, Loaded data r.endOfBufferOffset r₀ ∧ Moved r r₀ ∧
      r.readPhysicalRecord result =
        if r₀.buffer.length < kHeaderSize then (kEof, result, { r₀ with buffer := [] })
        else r₀.parseRecord result := by
  obtain ⟨-, hmod, hdrop⟩ := h.skipTrailer_eq hshort he
  set q := r.endOfBufferOffset with hqdef
  have hlim : blockLimit q = q + kBlockSize := blockLimit_of_mod_eq_zero hmod
  have htake : (r.file.contents.take kBlockSize).length = kBlockSize := by
    rw [List.length_take]
    omega
  refine ⟨{ r with
    file := { r.file with
      contents := r.file.contents.drop kBlockSize
      calls := r.file.calls + 1 }
    buffer := r.file.contents.take kBlockSize
    endOfBufferOffset := q + (r.file.contents.take kBlockSize).length },
    ⟨⟨h.sound, ?_, rfl, ?_⟩, fun _ => ?_⟩, ⟨rfl, rfl, rfl, rfl, rfl, rfl⟩, ?_⟩
  · simpa using hdrop
  · rw [if_neg (by simp [he])]
    exact Or.inr (by rw [htake, hlim])
  · change q + (r.file.contents.take kBlockSize).length = blockLimit q
    rw [htake, hlim]
  · rw [readPhysicalRecord, if_pos hshort, if_neg (by rw [he]; simp),
      SequentialFile.read_of_sound h.sound kBlockSize]
    simp only
    rw [if_neg (by simp), if_neg (by rw [htake]; exact Nat.lt_irrefl _), readPhysicalRecord]
    have hbig : ¬ (r.file.contents.take kBlockSize).length < kHeaderSize := by
      rw [htake]
      decide
    rw [if_neg hbig, if_neg hbig]

/-- **A physical read, positionally.** The refill brings in the block to look in, and what is left
is a parse there, or end-of-file for want of a header. -/
theorem At.refill (h : At data p r) (result : Bytes) :
    ∃ r₀, Loaded data (skipTrailer data.length p) r₀ ∧ Moved r r₀ ∧
      r.readPhysicalRecord result =
        if r₀.buffer.length < kHeaderSize then (kEof, result, { r₀ with buffer := [] })
        else r₀.parseRecord result := by
  have hlen := h.length_eq
  have hb := h.block
  by_cases hshort : r.buffer.length < kHeaderSize
  · cases he : r.eof with
    | true =>
      rw [if_pos he] at hb
      rw [hb.1, List.length_nil] at hlen
      have hskip : skipTrailer data.length p = p := by
        rw [skipTrailer, if_neg (by omega)]
      rw [hskip]
      refine ⟨r, ⟨h, fun hf => absurd (he.symm.trans hf) (by simp)⟩, Moved.refl r, ?_⟩
      rw [readPhysicalRecord, if_pos hshort, if_pos he, if_pos hshort]
    | false =>
      rw [(h.skipTrailer_eq hshort he).1]
      rcases Nat.lt_or_ge r.file.contents.length kBlockSize with hcontents | hcontents
      · exact h.refill_short hshort he hcontents result
      · exact h.refill_full hshort he hcontents result
  · -- Nothing is read: what is in the buffer reaches to the end of the block.
    have hlimit : r.eof = false → p + r.buffer.length = blockLimit p := by
      intro hf
      rw [if_neg (by rw [hf]; simp)] at hb
      refine hb.resolve_left fun hnil => ?_
      rw [hnil.1] at hshort
      exact absurd (show ([] : Bytes).length < kHeaderSize by decide) hshort
    have hlt := lt_blockLimit p
    have hskip : skipTrailer data.length p = p := by
      rw [skipTrailer, if_neg]
      cases he : r.eof with
      | true =>
        rw [if_pos he] at hb
        rw [hb.1, List.length_nil] at hlen
        simp only [kHeaderSize] at *
        omega
      | false =>
        have hfull := hlimit he
        omega
    rw [hskip]
    refine ⟨r, ⟨h, hlimit⟩, Moved.refl r, ?_⟩
    rw [readPhysicalRecord, if_neg hshort, if_neg hshort]

/-! ### What a parse finds -/

/-- At a record of the format, the parse returns it, unless it is a zero record or starts in front
of the initial offset. -/
theorem Loaded.parseRecord_rawRecord (h : Loaded data p r) {b : UInt8} {payload rest : Bytes}
    (hbuf : r.buffer = rawRecord b payload ++ rest) (hlen : payload.length < 2 ^ 16)
    (hzero : ¬ (b = 0 ∧ payload = [])) (result : Bytes) :
    r.parseRecord result =
      if p < r.initialOffset then (kBadRecord, [], { r with buffer := rest })
      else (charToUnsigned b, payload, { r with buffer := rest }) := by
  have hlength : Coding.byteAt r.buffer 4 ||| (Coding.byteAt r.buffer 5 <<< 8)
      = payload.length := by
    rw [hbuf, decodeLength_rawRecord b payload rest hlen]
  have htype : r.buffer.getD 6 0 = b := by rw [hbuf, typeByte_rawRecord]
  have htotal : r.buffer.length = kHeaderSize + payload.length + rest.length := by
    rw [hbuf, List.length_append, length_rawRecord]
  have hzero' : ¬ (charToUnsigned b = 0 ∧ payload.length = 0) := by
    rintro ⟨hb, hnil⟩
    exact hzero ⟨charToUnsigned_eq_zero hb, List.length_eq_zero_iff.mp hnil⟩
  have hcrc : Crc32c.value ((r.buffer.drop 6).take (1 + payload.length))
      = Crc32c.unmask (BitVec.ofNat 32 (Coding.decodeFixed32 r.buffer)) := by
    rw [hbuf, checksum_rawRecord]
  have hrest : r.buffer.drop (kHeaderSize + payload.length) = rest := by
    rw [hbuf]
    exact List.drop_left' (length_rawRecord b payload)
  have hpayload : (r.buffer.drop kHeaderSize).take payload.length = payload := by
    rw [hbuf, drop_header_rawRecord, List.take_left]
  simp only [parseRecord, hlength, htype, hrest, hpayload]
  rw [if_neg (by omega), if_neg hzero', if_neg (fun hc => hc.2 hcrc), h.offset, htotal,
    sub64_header]

/-- **What a parse can find**, with checksums on: a record of the format, the end of the file, or
nothing that it can use, in which case the rest of the block goes. -/
theorem Loaded.parseRecord_cases (hcheck : r.checksum = true)
    (hbuf : kHeaderSize ≤ r.buffer.length) (result : Bytes) :
    (∃ b payload rest, r.buffer = rawRecord b payload ++ rest ∧ payload.length < 2 ^ 16 ∧
        ¬ (b = 0 ∧ payload = [])) ∨
      r.eof = true ∧ r.parseRecord result = (kEof, result, { r with buffer := [] }) ∨
      ∃ reports, r.parseRecord result
        = (kBadRecord, result, { r with buffer := [], reports := reports }) := by
  have hdrop : ∀ (bytes : ℕ) (reason : String), ∃ reports,
      { r with buffer := [] }.reportCorruption bytes reason
        = { r with buffer := [], reports := reports } := by
    intro bytes reason
    rw [reportCorruption, reportDrop]
    split
    · exact ⟨_, rfl⟩
    · exact ⟨r.reports, rfl⟩
  simp only [parseRecord]
  set n := Coding.byteAt r.buffer 4 ||| (Coding.byteAt r.buffer 5 <<< 8) with hn
  by_cases hfits : r.buffer.length < kHeaderSize + n
  · rw [if_pos hfits]
    by_cases heof : r.eof = true
    · rw [if_pos heof]
      exact Or.inr (Or.inl ⟨heof, rfl⟩)
    · rw [if_neg heof]
      obtain ⟨reports, hreports⟩ := hdrop r.buffer.length "bad record length"
      exact Or.inr (Or.inr ⟨reports, by rw [hreports]⟩)
  · rw [if_neg hfits]
    by_cases hzero : charToUnsigned (r.buffer.getD 6 0) = 0 ∧ n = 0
    · rw [if_pos hzero]
      exact Or.inr (Or.inr ⟨r.reports, rfl⟩)
    · rw [if_neg hzero]
      by_cases hcrc : Crc32c.value ((r.buffer.drop 6).take (1 + n))
          = Crc32c.unmask (BitVec.ofNat 32 (Coding.decodeFixed32 r.buffer))
      · obtain ⟨rest, hrest⟩ := rawRecord_prefix_of_checksum hn.symm (Nat.not_lt.mp hfits) hcrc
        have hlen : ((r.buffer.drop kHeaderSize).take n).length = n := by
          rw [List.length_take, List.length_drop]
          omega
        refine Or.inl ⟨_, _, rest, hrest.symm, ?_, ?_⟩
        · rw [hlen, hn]
          exact Nat.or_lt_two_pow ((UInt8.toNat_lt _).trans (by decide)) (by
            rw [Nat.shiftLeft_eq]
            exact Nat.mul_lt_mul_of_pos_right (UInt8.toNat_lt _) (by decide))
        · rintro ⟨hb, hnil⟩
          refine hzero ⟨by rw [hb]; rfl, ?_⟩
          rw [← hlen, hnil]
          rfl
      · rw [if_pos ⟨hcheck, hcrc⟩]
        obtain ⟨reports, hreports⟩ := hdrop r.buffer.length "checksum mismatch"
        exact Or.inr (Or.inr ⟨reports, by rw [hreports]⟩)

/-- A header that promises more than a short block holds is a silent end-of-file. -/
theorem parseRecord_of_eof (h : r.eof = true)
    (hlen : r.buffer.length
      < kHeaderSize + (Coding.byteAt r.buffer 4 ||| (Coding.byteAt r.buffer 5 <<< 8)))
    (result : Bytes) : r.parseRecord result = (kEof, result, { r with buffer := [] }) := by
  simp only [parseRecord]
  rw [if_pos hlen, if_pos h]

/-- A zero header drops the rest of the block silently. -/
theorem parseRecord_of_zeros {n : ℕ} (hbuf : r.buffer = List.replicate n 0) (hn : kHeaderSize ≤ n)
    (result : Bytes) : r.parseRecord result = (kBadRecord, result, { r with buffer := [] }) := by
  have hget : ∀ i < kHeaderSize, r.buffer.getD i 0 = 0 := by
    intro i hi
    rw [hbuf, List.getD_eq_getElem _ _ (by rw [List.length_replicate]; omega),
      List.getElem_replicate]
  have hbyte : ∀ i < kHeaderSize, Coding.byteAt r.buffer i = 0 := by
    intro i hi
    rw [Coding.byteAt, hget i hi]
    rfl
  have hlen : kHeaderSize ≤ r.buffer.length := by rwa [hbuf, List.length_replicate]
  simp only [parseRecord, hbyte 4 (by decide), hbyte 5 (by decide), hget 6 (by decide)]
  rw [if_neg (by simpa using hlen), if_pos ⟨rfl, rfl⟩]

/-! ### Fragments in place -/

/-- **At a valid record, a physical read returns it** and stands behind it. A record in front of the
initial offset is passed over as a bad one. -/
theorem At.readPhysicalRecord_valid {b : UInt8} {payload : Bytes} (h : At data p r)
    (hv : Valid data (skipTrailer data.length p) b payload) (hzero : ¬ (b = 0 ∧ payload = []))
    (result : Bytes) :
    ∃ r', r.readPhysicalRecord result =
        (if skipTrailer data.length p < r.initialOffset then (kBadRecord, [], r')
          else (charToUnsigned b, payload, r')) ∧
      At data (skipTrailer data.length p + kHeaderSize + payload.length) r' ∧ Moved r r' := by
  obtain ⟨r₀, hload, hmoved, hread⟩ := h.refill result
  set q := skipTrailer data.length p
  obtain ⟨rest, hrest⟩ := hv.stored
  have hin := hv.inBlock
  -- The block holds the whole record, so the buffer starts with it.
  have hbuf : r₀.buffer = rawRecord b payload
      ++ rest.take (blockLimit q - (q + kHeaderSize + payload.length)) := by
    have hlen : (rawRecord b payload).length = kHeaderSize + payload.length :=
      length_rawRecord b payload
    rw [hload.buffer_eq, ← hrest, List.take_append, hlen,
      List.take_of_length_le (by rw [hlen]; omega)]
    congr 2
    omega
  have hlarge : ¬ r₀.buffer.length < kHeaderSize := by
    rw [hbuf, List.length_append, length_rawRecord]
    omega
  have hadv := hload.toAt.advance (n := kHeaderSize + payload.length)
    (by rw [hbuf, List.length_append, length_rawRecord]; omega)
  have hdrop : r₀.buffer.drop (kHeaderSize + payload.length)
      = rest.take (blockLimit q - (q + kHeaderSize + payload.length)) := by
    rw [hbuf]
    exact List.drop_left' (length_rawRecord _ _)
  rw [hdrop, ← Nat.add_assoc] at hadv
  refine ⟨_, ?_, hadv, ⟨hmoved.1, hmoved.2, hmoved.3, hmoved.4, hmoved.5, hmoved.6⟩⟩
  rw [hread, if_neg hlarge, hload.parseRecord_rawRecord hbuf hv.length_lt hzero,
    hmoved.initialOffset]

/-- **A physical read, with checksums on**, finds a valid record, or the end of the file, or drops
what is left of the block. -/
theorem At.readPhysicalRecord_cases (h : At data p r) (hcheck : r.checksum = true)
    (result : Bytes) :
    (∃ b payload, Valid data (skipTrailer data.length p) b payload ∧ ¬ (b = 0 ∧ payload = [])) ∨
      (data.length < blockLimit (skipTrailer data.length p) ∧
        ∃ r', r.readPhysicalRecord result = (kEof, result, r') ∧ Moved r r') ∨
      ∃ r' reports, r.readPhysicalRecord result = (kBadRecord, result, r') ∧
        At data (min (blockLimit (skipTrailer data.length p)) data.length) r' ∧
        Moved { r with reports := reports } r' ∧ skipTrailer data.length p < data.length := by
  obtain ⟨r₀, hload, hmoved, hread⟩ := h.refill result
  set q := skipTrailer data.length p with hq
  have hlen := congrArg List.length hload.buffer_eq
  rw [List.length_take, List.length_drop] at hlen
  have hlt := lt_blockLimit q
  have hpos : 0 < kHeaderSize := by decide
  by_cases hshort : r₀.buffer.length < kHeaderSize
  · refine Or.inr (Or.inl ⟨?_, { r₀ with buffer := [] }, by rw [hread, if_pos hshort],
      ⟨hmoved.1, hmoved.2, hmoved.3, hmoved.4, hmoved.5, hmoved.6⟩⟩)
    -- Where less than a header is left of the block, the file ends in the block.
    by_contra hge
    have hend : blockLimit q < q + kHeaderSize := by omega
    rw [hq, skipTrailer] at hend hge
    split at hend
    · rw [blockLimit_of_mod_eq_zero (blockLimit_mod p)] at hend
      exact absurd hend (by simp only [kBlockSize, kHeaderSize]; omega)
    · next hn =>
      rw [if_neg hn] at hge
      exact hn ⟨by omega, hend⟩
  · rw [if_neg hshort] at hread
    have hcheck₀ : r₀.checksum = true := hmoved.checksum.trans hcheck
    rcases Loaded.parseRecord_cases hcheck₀ (Nat.not_lt.mp hshort) result with
      ⟨b, payload, rest, hbuf, -, hzero⟩ | ⟨heof, hparse⟩ | ⟨reports, hparse⟩
    · refine Or.inl ⟨b, payload, ⟨?_, ?_⟩, hzero⟩
      · have hpre : r₀.buffer <+: data.drop q := by
          rw [← hload.bytes]
          exact List.prefix_append _ _
        rw [hbuf] at hpre
        exact (List.prefix_append _ _).trans hpre
      · have htotal := congrArg List.length hbuf
        rw [List.length_append, length_rawRecord] at htotal
        omega
    · exact Or.inr (Or.inl ⟨hload.eof_iff.mp heof, _, hread.trans hparse,
        ⟨hmoved.1, hmoved.2, hmoved.3, hmoved.4, hmoved.5, hmoved.6⟩⟩)
    · refine Or.inr (Or.inr ⟨_, reports, hread.trans hparse, ?_,
        ⟨hmoved.1, hmoved.2, hmoved.3, hmoved.4, hmoved.5, rfl⟩, by omega⟩)
      have hclear := hload.toAt.clear
      rw [show q + r₀.buffer.length = min (blockLimit q) data.length by omega] at hclear
      exact ⟨hclear.sound, hclear.bytes, hclear.offset, hclear.block⟩

/-- At a stored fragment, a physical read returns it and stands behind it. -/
theorem At.readPhysicalRecord_placed {f : Fragment} (h : At data p r) (hf : f.Placed data p)
    (hoff : r.initialOffset ≤ f.offset) (result : Bytes) :
    ∃ r', r.readPhysicalRecord result = (f.type.toNat, f.payload, r') ∧ At data f.limit r' ∧
      Moved r r' := by
  have hv := hf.valid
  rw [← hf.found] at hv hoff
  obtain ⟨r', hread, hat, hmoved⟩ :=
    h.readPhysicalRecord_valid hv (fun hc => hf.byte_ne hc.1) result
  rw [hf.found] at hat
  refine ⟨r', ?_, hat, hmoved⟩
  rw [hread, if_neg (Nat.not_lt.mpr hoff), charToUnsigned_byte]

/-- **A tail that stops inside what it starts** is a silent end-of-file. -/
theorem At.readPhysicalRecord_of_short (h : At data p r) (result : Bytes)
    (hshort : CutShort data (skipTrailer data.length p)) :
    ∃ r', r.readPhysicalRecord result = (kEof, result, r') ∧ Moved r r' := by
  obtain ⟨r₀, hload, hmoved, hread⟩ := h.refill result
  set q := skipTrailer data.length p
  have hpos : 0 < kHeaderSize := by decide
  have hlen : r₀.buffer.length ≤ data.length - q := by
    have := congrArg List.length hload.bytes
    rw [List.length_append, List.length_drop] at this
    omega
  have hmoved' : Moved r { r₀ with buffer := [] } :=
    ⟨hmoved.1, hmoved.2, hmoved.3, hmoved.4, hmoved.5, hmoved.6⟩
  refine ⟨{ r₀ with buffer := [] }, ?_, hmoved'⟩
  rw [hread]
  by_cases hb : r₀.buffer.length < kHeaderSize
  · rw [if_pos hb]
  · rw [if_neg hb]
    rcases hshort with hnone | ⟨hblock, t, payload, hsmall, htotal, rest, hrest⟩
    · exact absurd (show r₀.buffer.length < kHeaderSize by omega) hb
    · have hbuf : r₀.buffer = data.drop q := by
        rw [hload.buffer_eq, List.take_of_length_le]
        rw [List.length_drop]
        omega
      have hbyte : ∀ i < kHeaderSize, Coding.byteAt r₀.buffer i
          = Coding.byteAt (physicalRecord t payload ++ []) i := by
        intro i hi
        rw [Coding.byteAt, Coding.byteAt, List.append_nil, ← hrest, ← hbuf,
          List.getD_append _ _ _ _ (by omega)]
      refine parseRecord_of_eof (hload.eof_iff.mpr hblock) ?_ result
      rw [hbyte 4 (by decide), hbyte 5 (by decide), decodeLength_physicalRecord t payload [] hsmall]
      omega

end Reader

end Log

end Squirrel
