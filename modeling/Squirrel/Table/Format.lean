import Squirrel.Util.Coding
import Squirrel.Util.Crc32c
import Squirrel.Util.Env

/-!
# The format of a table file

Blocks are stored with a trailer of five bytes, a type and a checksum; a `BlockHandle` says where a
block is, and the `Footer` at the end of the file holds the handles of two of them.

`ReadBlock` gets its handle from bytes that may be corrupt, so offset and size are any two 64-bit
numbers. Sums of these are made modulo `2 ^ 64`, as in the source, and what `Read` returns is a
pointer into memory of a known extent: into the scratch buffer for `pread`, into the mapping for
`mmap`. An access outside of it returns nothing, and then so does `readBlock`.

Snappy is not part of the repository. It is given by three functions, of which `Lawful` says what
its documentation promises. `ReadBlock` has it decompress into the buffer of the compressed bytes,
which is too short for most blocks, and for a file that is read with `pread` also is the input. What
snappy writes is therefore part of its result, also where it fails.

## Main results

* `Footer.decodeFrom_encoding_append` — footers can be read back
* `readBlock_safe_iff` — exactly when `ReadBlock` returns what the file holds, or an error
* `readBlock_wraps` — a handle that makes it read far outside of its buffer
-/

namespace Squirrel

open Coding

/-! ### Handles -/

/-- A `BlockHandle`. -/
structure BlockHandle where
  offset : ℕ
  size : ℕ
  deriving DecidableEq, Repr

namespace BlockHandle

/-- Maximum encoding length of a handle. -/
def kMaxEncodingLength : ℕ := 10 + 10

/-- A handle whose fields have been set: the constructor sets both to `~0`. -/
def Set (h : BlockHandle) : Prop := h.offset < 2 ^ 64 - 1 ∧ h.size < 2 ^ 64 - 1

instance (h : BlockHandle) : Decidable h.Set := inferInstanceAs (Decidable (_ ∧ _))

/-- The constructor. -/
def new : BlockHandle := ⟨2 ^ 64 - 1, 2 ^ 64 - 1⟩

/-- `EncodeTo`; nothing if a field has not been set. -/
def encodeTo (h : BlockHandle) (dst : Bytes) : Option Bytes :=
  if h.offset ≠ 2 ^ 64 - 1 ∧ h.size ≠ 2 ^ 64 - 1 then
    some (putVarint64 (putVarint64 dst h.offset) h.size)
  else none

/-- `DecodeFrom`: the handle and the rest of the input. -/
def decodeFrom (input : Bytes) : Except Status (BlockHandle × Bytes) :=
  match getVarint64 input with
  | none => .error (.corruption "bad block handle")
  | some (offset, input) =>
    match getVarint64 input with
    | none => .error (.corruption "bad block handle")
    | some (size, input) => .ok (⟨offset, size⟩, input)

/-- What `encodeTo` appends. -/
def encoding (h : BlockHandle) : Bytes := encodeVarint64 h.offset ++ encodeVarint64 h.size

theorem encodeTo_of_set {h : BlockHandle} (hset : h.Set) (dst : Bytes) :
    h.encodeTo dst = some (dst ++ h.encoding) := by
  rw [encodeTo, if_pos ⟨Nat.ne_of_lt hset.1, Nat.ne_of_lt hset.2⟩, putVarint64, putVarint64,
    List.append_assoc]
  rfl

theorem decodeFrom_encoding {h : BlockHandle} (hset : h.Set) (rest : Bytes) :
    decodeFrom (h.encoding ++ rest) = .ok (h, rest) := by
  have hoffset : h.offset < 2 ^ 64 := hset.1.trans (by norm_num)
  have hsize : h.size < 2 ^ 64 := hset.2.trans (by norm_num)
  rw [decodeFrom, encoding, List.append_assoc, getVarint64_encodeVarint64 hoffset]
  dsimp only
  rw [getVarint64_encodeVarint64 hsize]

theorem length_encoding_le {h : BlockHandle} (hset : h.Set) :
    h.encoding.length ≤ kMaxEncodingLength := by
  have hoffset := length_encodeVarint64_le (hset.1.trans (by norm_num))
  have hsize := length_encodeVarint64_le (hset.2.trans (by norm_num))
  rw [encoding, List.length_append, kMaxEncodingLength]
  omega

end BlockHandle

/-! ### The footer -/

/-- `kTableMagicNumber`. -/
def kTableMagicNumber : ℕ := 0xdb4775248b80fb57

/-- A type byte and a checksum. -/
def kBlockTrailerSize : ℕ := 5

/-- `std::string::resize`. -/
def resize (n : ℕ) (s : Bytes) : Bytes := s.take n ++ List.replicate (n - s.length) 0

/-- A `Footer`. -/
structure Footer where
  metaindexHandle : BlockHandle
  indexHandle : BlockHandle
  deriving DecidableEq, Repr

namespace Footer

/-- The length of every encoded footer. -/
def kEncodedLength : ℕ := 2 * BlockHandle.kMaxEncodingLength + 8

/-- `EncodeTo`; nothing if an assertion fails. -/
def encodeTo (f : Footer) (dst : Bytes) : Option Bytes := do
  let originalSize := dst.length
  let dst ← f.metaindexHandle.encodeTo dst
  let dst ← f.indexHandle.encodeTo dst
  let dst := resize (2 * BlockHandle.kMaxEncodingLength) dst
  let dst := putFixed32 dst (kTableMagicNumber % 2 ^ 32)
  let dst := putFixed32 dst (kTableMagicNumber / 2 ^ 32)
  if dst.length = originalSize + kEncodedLength then some dst else none

/-- `DecodeFrom`; nothing if it reads behind the end of its input. -/
def decodeFrom (input : Bytes) : Option (Except Status Footer) :=
  if input.length < kEncodedLength then none
  else
    let magicPtr := input.drop (kEncodedLength - 8)
    let magicLo := decodeFixed32 magicPtr
    let magicHi := decodeFixed32 (magicPtr.drop 4)
    if magicHi * 2 ^ 32 + magicLo ≠ kTableMagicNumber then
      some (.error (.corruption "not an sstable (bad magic number)"))
    else some do
      let (metaindexHandle, input) ← BlockHandle.decodeFrom input
      let (indexHandle, _) ← BlockHandle.decodeFrom input
      .ok ⟨metaindexHandle, indexHandle⟩

/-- What `encodeTo` writes. -/
def encoding (f : Footer) : Bytes :=
  resize (2 * BlockHandle.kMaxEncodingLength) (f.metaindexHandle.encoding ++ f.indexHandle.encoding)
    ++ (encodeFixed32 (kTableMagicNumber % 2 ^ 32) ++ encodeFixed32 (kTableMagicNumber / 2 ^ 32))

theorem length_encoding {f : Footer} (hmeta : f.metaindexHandle.Set) (hindex : f.indexHandle.Set) :
    f.encoding.length = kEncodedLength := by
  have h₁ := BlockHandle.length_encoding_le hmeta
  have h₂ := BlockHandle.length_encoding_le hindex
  simp only [encoding, resize, List.length_append, List.length_take, List.length_replicate,
    length_encodeFixed32, kEncodedLength]
  omega

theorem encodeTo_nil {f : Footer} (hmeta : f.metaindexHandle.Set) (hindex : f.indexHandle.Set) :
    f.encodeTo [] = some f.encoding := by
  have hlen := length_encoding hmeta hindex
  simp only [encodeTo, BlockHandle.encodeTo_of_set hmeta, BlockHandle.encodeTo_of_set hindex,
    Option.bind_eq_bind, Option.bind_some, putFixed32, List.nil_append, List.append_assoc,
    List.length_nil, Nat.zero_add]
  exact if_pos hlen

/-- **Footers can be read back**: the padding is never looked at, nor is what comes behind. -/
theorem decodeFrom_encoding_append {f : Footer} (hmeta : f.metaindexHandle.Set)
    (hindex : f.indexHandle.Set) (rest : Bytes) :
    decodeFrom (f.encoding ++ rest) = some (.ok f) := by
  have hlen := length_encoding hmeta hindex
  have h₁ := BlockHandle.length_encoding_le hmeta
  have h₂ := BlockHandle.length_encoding_le hindex
  have hshort : (f.metaindexHandle.encoding ++ f.indexHandle.encoding).length
      ≤ 2 * BlockHandle.kMaxEncodingLength := by
    rw [List.length_append]
    omega
  have hresize : (resize (2 * BlockHandle.kMaxEncodingLength)
      (f.metaindexHandle.encoding ++ f.indexHandle.encoding)).length = kEncodedLength - 8 := by
    rw [resize, List.length_append, List.length_take, List.length_replicate]
    simp only [kEncodedLength, BlockHandle.kMaxEncodingLength] at *
    omega
  have hdrop : (f.encoding ++ rest).drop (kEncodedLength - 8)
      = encodeFixed32 (kTableMagicNumber % 2 ^ 32)
        ++ (encodeFixed32 (kTableMagicNumber / 2 ^ 32) ++ rest) := by
    rw [encoding, ← hresize, List.append_assoc, List.drop_left, List.append_assoc]
  have hhi : (encodeFixed32 (kTableMagicNumber % 2 ^ 32)
      ++ (encodeFixed32 (kTableMagicNumber / 2 ^ 32) ++ rest)).drop 4
      = encodeFixed32 (kTableMagicNumber / 2 ^ 32) ++ rest :=
    List.drop_left' (length_encodeFixed32 _)
  have hmagic : kTableMagicNumber / 2 ^ 32 % 2 ^ 32 * 2 ^ 32 + kTableMagicNumber % 2 ^ 32 % 2 ^ 32
      = kTableMagicNumber := by
    decide
  have hlong : ¬ (f.encoding ++ rest).length < kEncodedLength := by
    rw [List.length_append, hlen]
    omega
  rw [decodeFrom, if_neg hlong]
  simp only [hdrop, hhi, decodeFixed32_encodeFixed32]
  rw [if_neg (not_not.mpr hmagic), encoding, resize, List.take_of_length_le hshort,
    List.append_assoc, List.append_assoc, List.append_assoc, BlockHandle.decodeFrom_encoding hmeta]
  simp only [bind, Except.bind, BlockHandle.decodeFrom_encoding hindex]

theorem decodeFrom_encodeTo {f : Footer} (hmeta : f.metaindexHandle.Set)
    (hindex : f.indexHandle.Set) : decodeFrom f.encoding = some (.ok f) := by
  have h := decodeFrom_encoding_append hmeta hindex []
  rwa [List.append_nil] at h

end Footer

/-! ### Random access files -/

/-- What a successful `Read` returns: a slice of some memory, which may be the scratch buffer. -/
structure Loaded where
  mem : Bytes
  offset : ℕ
  size : ℕ
  inScratch : Bool

/-- `n` bytes from `data() + i` on. -/
def Loaded.bytesAt (d : Loaded) (i n : ℕ) : Option Bytes :=
  if d.offset + i + n ≤ d.mem.length then some ((d.mem.drop (d.offset + i)).take n) else none

/-- A `RandomAccessFile` of the POSIX environment. `pread(fd, scratch, n, offset)` fails, or returns
some number of bytes, but no more than are asked for and are there. -/
inductive RandomAccessFile
  | posix (filename : String) (contents : Bytes) (pread : ℕ → ℕ → Except (Code × String) ℕ)
  | mmap (filename : String) (contents : Bytes)

namespace RandomAccessFile

/-- The bytes of the file. -/
def contents : RandomAccessFile → Bytes
  | posix _ contents _ => contents
  | mmap _ contents => contents

/-- `Read(offset, n)`. A `pread` from an offset that is negative as an `off_t` fails; the test of
the mapped file is made modulo `2 ^ 64`. -/
def read (f : RandomAccessFile) (offset n : ℕ) : Status × Option Loaded :=
  match f with
  | posix filename contents pread =>
    if 2 ^ 63 ≤ offset then (.error .kIOError (filename ++ ": Invalid argument"), none)
    else
      match pread offset n with
      | .error (code, msg) => (.error code msg, none)
      | .ok k =>
        let bytes := (contents.drop offset).take (min n k)
        (.success, some ⟨bytes, 0, bytes.length, true⟩)
  | mmap filename contents =>
    if contents.length < (offset + n) % 2 ^ 64 then
      (.error .kIOError (filename ++ ": Invalid argument"), none)
    else (.success, some ⟨contents, offset, n, false⟩)

/-- `Read` returns all of the bytes that it is asked for. -/
def Delivers (f : RandomAccessFile) (offset n : ℕ) : Prop :=
  ∃ s d, f.read offset n = (s, some d) ∧ d.size = n

/-- A mapped file. -/
def IsMmap : RandomAccessFile → Prop
  | posix _ _ _ => False
  | mmap _ _ => True

/-- `Read` returns a slice of the scratch buffer. -/
def UsesScratch : RandomAccessFile → Bool
  | posix _ _ _ => true
  | mmap _ _ => false

theorem read_none {f : RandomAccessFile} {offset n : ℕ} {s : Status}
    (h : f.read offset n = (s, none)) : s.ok = false := by
  cases f with
  | posix filename contents pread =>
    rw [read] at h
    split at h
    · cases h
      rfl
    · split at h
      · cases h
        rfl
      · cases h
  | mmap filename contents =>
    rw [read] at h
    split at h
    · cases h
      rfl
    · cases h

theorem read_some {f : RandomAccessFile} {offset n : ℕ} {s : Status} {d : Loaded}
    (h : f.read offset n = (s, some d)) :
    s = .success ∧ d.inScratch = f.UsesScratch ∧
      (¬ f.IsMmap ∧ d.mem = (f.contents.drop offset).take d.size ∧
          d.mem.length = d.size ∧ d.offset = 0 ∨
        f.IsMmap ∧ d.mem = f.contents ∧ d.offset = offset ∧ d.size = n ∧
          (offset + n) % 2 ^ 64 ≤ f.contents.length) := by
  cases f with
  | posix filename contents pread =>
    rw [read] at h
    split at h
    · cases h
    · split at h
      · cases h
      · cases h
        refine ⟨rfl, rfl, .inl ⟨id, ?_, rfl, rfl⟩⟩
        simp only [RandomAccessFile.contents, List.take_eq_take_iff, List.length_take]
        omega
  | mmap filename contents =>
    rw [read] at h
    split at h
    · cases h
    · next hle =>
      cases h
      exact ⟨rfl, rfl, .inr ⟨trivial, rfl, rfl, rfl, Nat.le_of_not_lt hle⟩⟩

end RandomAccessFile

/-! ### `ReadBlock` -/

/-- The functions of `port.h` that call snappy. `uncompress` is what `Snappy_Uncompress` writes from
the start of its output on, and whether it succeeds; `inPlace` if its output starts where its input
does. -/
structure Snappy where
  compress (input : Bytes) : Option Bytes
  getUncompressedLength (input : Bytes) : Option ℕ
  uncompress (inPlace : Bool) (input : Bytes) : Bytes × Bool

/-- What its documentation promises. -/
structure Snappy.Lawful (sn : Snappy) : Prop where
  /-- What decompresses says so, and how long it is. -/
  length_eq : ∀ input output, sn.uncompress false input = (output, true) →
    sn.getUncompressedLength input = some output.length
  /-- Where nothing is written, the place of the output makes no difference. -/
  inPlace_eq : ∀ input, sn.getUncompressedLength input = some 0 →
    sn.uncompress true input = sn.uncompress false input

/-- `BlockContents`. -/
structure BlockContents where
  data : Bytes
  cacheable : Bool
  heapAllocated : Bool
  deriving DecidableEq

/-- The contents before anything has been read. -/
def BlockContents.unset : BlockContents := ⟨[], false, false⟩

/-- `new char[n]`: memory that may hold anything. -/
def newChars (junk : ℕ → UInt8) (n : ℕ) : Bytes := (List.range n).map junk

/-- What `ReadBlock` does once it has its `n + 5` bytes and the checksum has been looked at. The
decompressed bytes go to `buf`, which has `n + 5` bytes, but it is `ubuf` that is returned. -/
def decodeBlock (sn : Snappy) (junk : ℕ → UInt8) (d : Loaded) (n : ℕ) :
    Option (Status × BlockContents) := do
  let type ← d.bytesAt n 1
  if type = [0] then
    let data ← d.bytesAt 0 n
    some (.success, ⟨data, d.inScratch, d.inScratch⟩)
  else if type = [1] then
    let data ← d.bytesAt 0 n
    match sn.getUncompressedLength data with
    | none => some (.corruption "corrupted compressed block contents", .unset)
    | some ulength =>
      let (output, success) := sn.uncompress d.inScratch data
      if (n + kBlockTrailerSize) % 2 ^ 64 < output.length then none
      else if success then some (.success, ⟨newChars junk ulength, true, true⟩)
      else some (.corruption "corrupted compressed block contents", .unset)
  else some (.corruption "bad block type", .unset)

/-- The checksum stored in a trailer, and the one of the bytes before it. -/
def checksumOk (data crc : Bytes) : Bool :=
  Crc32c.value data = Crc32c.unmask (BitVec.ofNat 32 (decodeFixed32 crc))

/-- `ReadBlock`. -/
def readBlock (sn : Snappy) (junk : ℕ → UInt8) (f : RandomAccessFile) (verifyChecksums : Bool)
    (h : BlockHandle) : Option (Status × BlockContents) :=
  let n := h.size
  let m := (n + kBlockTrailerSize) % 2 ^ 64
  match f.read h.offset m with
  | (s, none) => some (s, .unset)
  | (_, some d) =>
    if d.size ≠ m then some (.corruption "truncated block read", .unset)
    else if verifyChecksums then do
      let crc ← d.bytesAt (n + 1) 4
      let data ← d.bytesAt 0 (n + 1)
      if checksumOk data crc then decodeBlock sn junk d n
      else some (.corruption "block checksum mismatch", .unset)
    else decodeBlock sn junk d n

/-! ### Safety -/

namespace BlockHandle

/-- The bytes of the file that the handle is about. -/
def bytes (h : BlockHandle) (contents : Bytes) : Bytes := (contents.drop h.offset).take h.size

/-- The block is stored compressed, `ReadBlock` gets as far as decompressing it, and snappy writes
more than the buffer of the compressed block holds, or succeeds with a block that is not empty. -/
def SnappyLost (h : BlockHandle) (sn : Snappy) (verifyChecksums : Bool) (f : RandomAccessFile) :
    Prop :=
  (verifyChecksums = true → checksumOk ((f.contents.drop h.offset).take (h.size + 1))
    ((f.contents.drop (h.offset + (h.size + 1))).take 4) = true) ∧
  (f.contents.drop (h.offset + h.size)).take 1 = [1] ∧
  ∃ ulength, sn.getUncompressedLength (h.bytes f.contents) = some ulength ∧
    (h.size + kBlockTrailerSize < (sn.uncompress f.UsesScratch (h.bytes f.contents)).1.length ∨
      (sn.uncompress f.UsesScratch (h.bytes f.contents)).2 = true ∧ ulength ≠ 0)

/-- `data` is what the file holds there, as it is or decompressed. -/
def FromFile (h : BlockHandle) (sn : Snappy) (contents data : Bytes) : Prop :=
  h.offset + h.size ≤ contents.length ∧
    (data = h.bytes contents ∨ sn.uncompress false (h.bytes contents) = (data, true))

end BlockHandle

/-- `ReadBlock` makes no access outside of its memory, and returns an error, or what the file holds
in `[offset, offset + size)`. -/
def ReadSafe (sn : Snappy) (junk : ℕ → UInt8) (f : RandomAccessFile) (verifyChecksums : Bool)
    (h : BlockHandle) : Prop :=
  ∃ s c, readBlock sn junk f verifyChecksums h = some (s, c) ∧
    (s.ok = true → h.FromFile sn f.contents c.data)

/-- A slice of the file from `offset` on, all of whose `m` bytes are there. -/
def Loaded.Covers (d : Loaded) (contents : Bytes) (offset m : ℕ) : Prop :=
  offset + m ≤ contents.length ∧
    ∀ i n, i + n ≤ m → d.bytesAt i n = some ((contents.drop (offset + i)).take n)

variable {sn : Snappy} {junk : ℕ → UInt8} {f : RandomAccessFile} {verify : Bool} {h : BlockHandle}
  {d : Loaded} {s : Status}

theorem RandomAccessFile.covers_of_read {offset m : ℕ} (hread : f.read offset m = (s, some d))
    (hsize : d.size = m) (hpos : 0 < m) (hmmap : f.IsMmap → offset + m < 2 ^ 64) :
    d.Covers f.contents offset m := by
  rcases (read_some hread).2.2 with ⟨-, hmem, hlen, hzero⟩ | ⟨hm, hmem, hoff, -, hle⟩
  · rw [hsize] at hmem hlen
    have hle : offset + m ≤ f.contents.length := by
      rw [hmem, List.length_take, List.length_drop] at hlen
      omega
    refine ⟨hle, fun i n hin => ?_⟩
    rw [Loaded.bytesAt, hzero, Nat.zero_add, if_pos (by omega), hmem, List.drop_take,
      List.drop_drop, List.take_take, Nat.min_eq_left (by omega)]
  · rw [Nat.mod_eq_of_lt (hmmap hm)] at hle
    refine ⟨hle, fun i n hin => ?_⟩
    rw [Loaded.bytesAt, hoff, hmem, if_pos (by omega)]

/-- What `ReadBlock` does with a compressed block that is all there. -/
theorem decodeBlock_of_snappy (sn : Snappy) (junk : ℕ → UInt8)
    (hcov : d.Covers f.contents h.offset (h.size + 5)) (hlt : h.size + 5 < 2 ^ 64)
    (htype : (f.contents.drop (h.offset + h.size)).take 1 = [1]) :
    decodeBlock sn junk d h.size = match sn.getUncompressedLength (h.bytes f.contents) with
      | none => some (.corruption "corrupted compressed block contents", .unset)
      | some ulength =>
        if h.size + 5 < (sn.uncompress d.inScratch (h.bytes f.contents)).1.length then none
        else if (sn.uncompress d.inScratch (h.bytes f.contents)).2 = true then
          some (.success, ⟨newChars junk ulength, true, true⟩)
        else some (.corruption "corrupted compressed block contents", .unset) := by
  have hdata : d.bytesAt 0 h.size = some (h.bytes f.contents) := hcov.2 0 h.size (by omega)
  rw [decodeBlock, hcov.2 h.size 1 (by omega), htype]
  simp only [Option.bind_eq_bind, Option.bind_some, hdata, kBlockTrailerSize, Nat.mod_eq_of_lt hlt,
    show ¬ ([1] : Bytes) = [0] by decide, if_false, if_true]

/-- What `ReadBlock` does with any other block that is all there. -/
theorem decodeBlock_of_not_snappy (sn : Snappy) (junk : ℕ → UInt8)
    (hcov : d.Covers f.contents h.offset (h.size + 5))
    (htype : (f.contents.drop (h.offset + h.size)).take 1 ≠ [1]) :
    ∃ s c, decodeBlock sn junk d h.size = some (s, c) ∧
      (s.ok = true → c.data = h.bytes f.contents) := by
  have hdata : d.bytesAt 0 h.size = some (h.bytes f.contents) := hcov.2 0 h.size (by omega)
  rw [decodeBlock, hcov.2 h.size 1 (by omega)]
  simp only [Option.bind_eq_bind, Option.bind_some, hdata, if_neg htype]
  split
  · exact ⟨_, _, rfl, fun _ => rfl⟩
  · exact ⟨_, _, rfl, fun hok => by cases hok⟩

/-- A handle that wraps around makes the first access of the trailer an access outside. -/
theorem readBlock_of_wraps (hlen : f.contents.length < 2 ^ 63)
    (hdel : f.Delivers h.offset ((h.size + 5) % 2 ^ 64))
    (hwrap : 2 ^ 64 ≤ h.size + 5 ∨ f.IsMmap ∧ 2 ^ 64 ≤ h.offset + (h.size + 5)) :
    readBlock sn junk f verify h = none := by
  obtain ⟨s, d, hread, hsize⟩ := hdel
  have houtside : d.mem.length < d.offset + h.size + 1 := by
    rcases (RandomAccessFile.read_some hread).2.2 with ⟨hm, -, hmem, -⟩ | ⟨-, hmem, hoff, -, -⟩
    · rw [hmem, hsize]
      have hge := hwrap.resolve_right fun hw => hm hw.1
      omega
    · rw [hmem, hoff]
      omega
  rw [readBlock]
  simp only [kBlockTrailerSize, hread, hsize, ne_eq, not_true_eq_false, if_false]
  cases verify with
  | true => rw [if_pos rfl, Loaded.bytesAt, if_neg (by omega)]; rfl
  | false => rw [if_neg (by simp), decodeBlock, Loaded.bytesAt, if_neg (by omega)]; rfl

/-- What `ReadBlock` does with a block that is all there. -/
theorem readBlock_of_covers {m : ℕ} (hm : (h.size + 5) % 2 ^ 64 = m)
    (hread : f.read h.offset m = (s, some d)) (hsize : d.size = m)
    (hcov : d.Covers f.contents h.offset (h.size + 5)) :
    readBlock sn junk f verify h =
      if verify = true → checksumOk ((f.contents.drop h.offset).take (h.size + 1))
          ((f.contents.drop (h.offset + (h.size + 1))).take 4) = true then
        decodeBlock sn junk d h.size
      else some (.corruption "block checksum mismatch", .unset) := by
  have hcrc := hcov.2 (h.size + 1) 4 (by omega)
  have hdata : d.bytesAt 0 (h.size + 1) = some ((f.contents.drop h.offset).take (h.size + 1)) :=
    hcov.2 0 (h.size + 1) (by omega)
  rw [readBlock]
  simp only [kBlockTrailerSize, hm, hread, hsize, ne_eq, not_true_eq_false, if_false]
  cases verify with
  | true => simp only [if_true, hcrc, hdata, Option.bind_eq_bind, Option.bind_some, forall_const]
  | false => simp

theorem exists_ne_ne (a b : UInt8) : ∃ x, x ≠ a ∧ x ≠ b := by
  by_contra hall
  push Not at hall
  have h₀ := hall 0
  have h₁ := hall 1
  have h₂ := hall 2
  grind

/-- A compressed block is lost: the bytes do not fit into their buffer, or what is returned is
memory that nothing has been written to. -/
theorem BlockHandle.SnappyLost.not_readSafe {m : ℕ} (hlost : h.SnappyLost sn verify f)
    (hlt : h.size + 5 < 2 ^ 64) (hm : (h.size + 5) % 2 ^ 64 = m)
    (hread : f.read h.offset m = (s, some d)) (hsize : d.size = m)
    (hcov : d.Covers f.contents h.offset (h.size + 5)) :
    ∃ junk, ¬ ReadSafe sn junk f verify h := by
  obtain ⟨hcrc, htype, ulength, hul, hwrites⟩ := hlost
  -- memory that holds neither the decompressed bytes nor those of the file
  obtain ⟨x, hx, hx'⟩ := exists_ne_ne
    ((sn.uncompress false (h.bytes f.contents)).1.getD 0 0) ((h.bytes f.contents).getD 0 0)
  refine ⟨fun _ => x, ?_⟩
  rintro ⟨s, c, hsafe, hfrom⟩
  rw [readBlock_of_covers hm hread hsize hcov, if_pos hcrc,
    decodeBlock_of_snappy _ _ hcov hlt htype, hul, (RandomAccessFile.read_some hread).2.1] at hsafe
  by_cases hover : h.size + 5 < (sn.uncompress f.UsesScratch (h.bytes f.contents)).1.length
  · simp only [if_pos hover] at hsafe
    cases hsafe
  obtain ⟨hsuccess, hpos⟩ := hwrites.resolve_left hover
  simp only [if_neg hover, if_pos hsuccess] at hsafe
  cases hsafe
  have hhead : (newChars (fun _ => x) ulength).getD 0 0 = x := by
    simp [newChars, List.getD_eq_getElem?_getD, Nat.pos_of_ne_zero hpos]
  rcases (hfrom rfl).2 with heq | heq
  · exact hx' (by rw [← heq, hhead])
  · exact hx (by rw [heq, hhead])

theorem readSafe_of_covers (hsn : sn.Lawful) {m : ℕ} (hlt : h.size + 5 < 2 ^ 64)
    (hm : (h.size + 5) % 2 ^ 64 = m) (hread : f.read h.offset m = (s, some d)) (hsize : d.size = m)
    (hcov : d.Covers f.contents h.offset (h.size + 5)) (hsnappy : ¬ h.SnappyLost sn verify f)
    (junk : ℕ → UInt8) : ReadSafe sn junk f verify h := by
  have hle : h.offset + h.size ≤ f.contents.length := by
    have := hcov.1
    omega
  rw [ReadSafe, readBlock_of_covers hm hread hsize hcov]
  split
  · next hcrc =>
    by_cases htype : (f.contents.drop (h.offset + h.size)).take 1 = [1]
    · rw [decodeBlock_of_snappy sn junk hcov hlt htype, (RandomAccessFile.read_some hread).2.1]
      cases hul : sn.getUncompressedLength (h.bytes f.contents) with
      | none => exact ⟨_, _, rfl, fun hok => absurd hok (by decide)⟩
      | some ulength =>
        have hfits : ¬ h.size + 5 < (sn.uncompress f.UsesScratch (h.bytes f.contents)).1.length :=
          fun hover => hsnappy ⟨hcrc, htype, ulength, hul, .inl hover⟩
        simp only [if_neg hfits]
        split
        · next hsuccess =>
          -- only an empty block survives being decompressed
          have hempty : ulength = 0 := by
            by_contra hne
            exact hsnappy ⟨hcrc, htype, ulength, hul, .inr ⟨hsuccess, hne⟩⟩
          subst hempty
          have hplace : (sn.uncompress false (h.bytes f.contents)).2 = true := by
            cases hscratch : f.UsesScratch with
            | false => rwa [hscratch] at hsuccess
            | true => rwa [hscratch, hsn.inPlace_eq _ hul] at hsuccess
          have houtput : (sn.uncompress false (h.bytes f.contents)).1 = [] := by
            have hlen := hsn.length_eq (h.bytes f.contents)
              (sn.uncompress false (h.bytes f.contents)).1 (by rw [← hplace])
            rw [hul, Option.some.injEq] at hlen
            exact List.length_eq_zero_iff.mp hlen.symm
          exact ⟨_, _, rfl, fun _ => ⟨hle, .inr (Prod.ext houtput hplace)⟩⟩
        · exact ⟨_, _, rfl, fun hok => absurd hok (by decide)⟩
    · obtain ⟨s, c, hdecode, hok⟩ := decodeBlock_of_not_snappy sn junk hcov htype
      exact ⟨s, c, hdecode, fun hs => ⟨hle, .inl (hok hs)⟩⟩
  · exact ⟨_, _, rfl, fun hok => absurd hok (by decide)⟩

/-- **Exactly when `ReadBlock` is safe.** Once `Read` has returned as many bytes as it was asked
for, the size of the block with its trailer, and in a mapped file also its end, must not have
wrapped around, and the block must not be a compressed one: those are decompressed into a buffer
that may be too short for them, and what is returned is another one that nothing has been written
to. -/
theorem readBlock_safe_iff (hsn : sn.Lawful) (hlen : f.contents.length < 2 ^ 63) :
    (∀ junk, ReadSafe sn junk f verify h) ↔
      (f.Delivers h.offset ((h.size + 5) % 2 ^ 64) →
        h.size + 5 < 2 ^ 64 ∧ (f.IsMmap → h.offset + (h.size + 5) < 2 ^ 64) ∧
          ¬ h.SnappyLost sn verify f) := by
  constructor
  · intro hsafe hdel
    have hfits : ¬ (2 ^ 64 ≤ h.size + 5 ∨ f.IsMmap ∧ 2 ^ 64 ≤ h.offset + (h.size + 5)) := by
      intro hwrap
      obtain ⟨s, c, hread, -⟩ := hsafe fun _ => 0
      rw [readBlock_of_wraps hlen hdel hwrap] at hread
      cases hread
    rw [not_or, not_and, Nat.not_le, Nat.not_le] at hfits
    refine ⟨hfits.1, hfits.2, fun hlost => ?_⟩
    obtain ⟨s, d, hread, hsize⟩ := hdel
    have hmod := Nat.mod_eq_of_lt hfits.1
    rw [hmod] at hread hsize
    have hcov := RandomAccessFile.covers_of_read hread hsize (Nat.succ_pos _) hfits.2
    obtain ⟨junk, hnot⟩ := hlost.not_readSafe hfits.1 hmod hread hsize hcov
    exact hnot (hsafe junk)
  · intro hcond junk
    rcases hread : f.read h.offset ((h.size + 5) % 2 ^ 64) with ⟨s, _ | d⟩
    · refine ⟨s, .unset, by simp only [readBlock, kBlockTrailerSize, hread], fun hok => ?_⟩
      rw [RandomAccessFile.read_none hread] at hok
      cases hok
    by_cases hsize : d.size = (h.size + 5) % 2 ^ 64
    · obtain ⟨hlt, hmmap, hsnappy⟩ := hcond ⟨s, d, hread, hsize⟩
      have hmod := Nat.mod_eq_of_lt hlt
      rw [hmod] at hread hsize
      have hcov := RandomAccessFile.covers_of_read hread hsize (Nat.succ_pos _) hmmap
      exact readSafe_of_covers hsn hlt hmod hread hsize hcov hsnappy junk
    · refine ⟨.corruption "truncated block read", .unset, ?_, fun hok => absurd hok (by decide)⟩
      simp only [readBlock, kBlockTrailerSize, hread]
      exact if_pos hsize

/-- A snappy that has not been compiled in. -/
def Snappy.absent : Snappy := ⟨fun _ => none, fun _ => none, fun _ _ => ([], false)⟩

/-- A mapped file of two empty blocks, and the handle of the first of them. -/
theorem readSafe_empty_block :
    let f := RandomAccessFile.mmap "t" (List.replicate 10 0)
    Snappy.absent.Lawful ∧ f.contents.length < 2 ^ 63 ∧
      ∀ junk, ReadSafe .absent junk f false ⟨0, 0⟩ := by
  have hlawful : Snappy.absent.Lawful := ⟨fun _ _ h => (by cases h), fun _ h => by cases h⟩
  refine ⟨hlawful, by decide, (readBlock_safe_iff hlawful (by decide)).mpr fun _ => ?_⟩
  refine ⟨by decide, fun _ => by decide, ?_⟩
  rintro ⟨-, -, ulength, hul, -⟩
  cases hul

/-- **A size whose sum with the trailer is zero**: the buffer and the read have no bytes at all, and
`data[n]` is looked at all the same. -/
theorem readBlock_wraps :
    let f := RandomAccessFile.posix "t" [] fun _ n => .ok n
    ¬ ∀ junk, ReadSafe .absent junk f false ⟨0, 2 ^ 64 - 5⟩ := by
  intro f hsafe
  obtain ⟨s, c, hread, -⟩ := hsafe fun _ => 0
  have hnone : readBlock .absent (fun _ => 0) f false ⟨0, 2 ^ 64 - 5⟩ = none := by decide
  rw [hnone] at hread
  cases hread

end Squirrel
