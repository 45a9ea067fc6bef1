import Squirrel.Util.Crc32c

/-!
# The log format

A log file is a sequence of blocks of `kBlockSize` bytes. A *physical record* is a header of
`kHeaderSize` bytes — masked checksum, length, type — and its payload; it never crosses a block
boundary. Fewer than `kHeaderSize` bytes left in a block are a trailer, filled with zeros.

## Main results

* `checksum_rawRecord` — the checksum stored in a header verifies against the type byte and the
  payload behind it
* `rawRecord_prefix_of_checksum` — conversely, bytes whose checksum verifies are a record of the
  format
-/

namespace Squirrel

namespace Log

open Coding LittleEndian

/-- Record types. Zero is reserved for preallocated files; the last three are for fragments. -/
inductive RecordType
  | kZeroType
  | kFullType
  | kFirstType
  | kMiddleType
  | kLastType
  deriving DecidableEq, Repr

namespace RecordType

/-- The value of the enumerator. -/
def toNat : RecordType → ℕ
  | kZeroType => 0
  | kFullType => 1
  | kFirstType => 2
  | kMiddleType => 3
  | kLastType => 4

/-- The type byte of a header. -/
def byte (t : RecordType) : UInt8 := UInt8.ofNat t.toNat

@[simp] theorem toNat_byte (t : RecordType) : t.byte.toNat = t.toNat := by cases t <;> rfl

theorem toNat_le (t : RecordType) : t.toNat ≤ 4 := by cases t <;> decide

end RecordType

def kMaxRecordType : ℕ := RecordType.kLastType.toNat

def kBlockSize : ℕ := 32768

/-- Checksum (4 bytes), length (2 bytes), type (1 byte). -/
def kHeaderSize : ℕ := 4 + 2 + 1

/-! ### Physical records

The reader checks a header before it looks at the type, so what it accepts are the records of the
writer's format with any type byte. -/

/-- The header `EmitPhysicalRecord` formats for a payload, with the type byte `b`. Its `type_crc_`
holds the checksums of the bytes that are types. -/
def rawHeader (b : UInt8) (payload : Bytes) : Bytes :=
  encodeFixed32 (Crc32c.mask (Crc32c.extend (Crc32c.value [b]) payload)).toNat
    ++ [lowByte payload.length, UInt8.ofNat (payload.length >>> 8), b]

/-- A record in the format of `EmitPhysicalRecord`, with a correct checksum and any type byte. -/
def rawRecord (b : UInt8) (payload : Bytes) : Bytes := rawHeader b payload ++ payload

@[simp] theorem length_rawHeader (b : UInt8) (payload : Bytes) :
    (rawHeader b payload).length = kHeaderSize := by
  simp [rawHeader, kHeaderSize]

@[simp] theorem length_rawRecord (b : UInt8) (payload : Bytes) :
    (rawRecord b payload).length = kHeaderSize + payload.length := by
  simp [rawRecord]

/-- The header of a fragment. -/
def header (t : RecordType) (payload : Bytes) : Bytes := rawHeader t.byte payload

/-- A physical record: header and payload. -/
def physicalRecord (t : RecordType) (payload : Bytes) : Bytes := header t payload ++ payload

@[simp] theorem length_header (t : RecordType) (payload : Bytes) :
    (header t payload).length = kHeaderSize := length_rawHeader t.byte payload

@[simp] theorem length_physicalRecord (t : RecordType) (payload : Bytes) :
    (physicalRecord t payload).length = kHeaderSize + payload.length := by
  simp [physicalRecord]

/-! ### Reading a header back

The facts `ReadPhysicalRecord` relies on when it meets such a record, with any bytes behind it. -/

section Parse

variable (b : UInt8) (payload rest : Bytes)

theorem getD_rawRecord {i : ℕ} (h : i < kHeaderSize) :
    (rawRecord b payload ++ rest).getD i 0 = (rawHeader b payload).getD i 0 := by
  have hi : i < (rawHeader b payload).length := by rwa [length_rawHeader]
  rw [rawRecord, List.append_assoc, List.getD_append _ _ _ _ hi]

theorem decodeLength_rawRecord (h : payload.length < 2 ^ 16) :
    byteAt (rawRecord b payload ++ rest) 4
      ||| (byteAt (rawRecord b payload ++ rest) 5 <<< 8) = payload.length := by
  have hlow : (lowByte payload.length).toNat = payload.length % 256 := by
    rw [lowByte_eq, UInt8.toNat_ofNat']
  have hhigh : (UInt8.ofNat (payload.length >>> 8)).toNat = payload.length / 256 := by
    rw [UInt8.toNat_ofNat', Nat.shiftRight_eq_div_pow]
    omega
  have h4 : byteAt (rawRecord b payload ++ rest) 4 = payload.length % 256 := by
    rw [byteAt, getD_rawRecord _ _ _ (by decide), ← hlow]
    rfl
  have h5 : byteAt (rawRecord b payload ++ rest) 5 = payload.length / 256 := by
    rw [byteAt, getD_rawRecord _ _ _ (by decide), ← hhigh]
    rfl
  rw [h4, h5, or_shiftLeft _ (show payload.length % 256 < 2 ^ 8 by omega)]
  omega

theorem typeByte_rawRecord : (rawRecord b payload ++ rest).getD 6 0 = b := by
  rw [getD_rawRecord _ _ _ (by decide)]
  rfl

theorem drop_header_rawRecord :
    (rawRecord b payload ++ rest).drop kHeaderSize = payload ++ rest := by
  rw [rawRecord, List.append_assoc]
  exact List.drop_left' (length_rawHeader b payload)

/-- The bytes the checksum is computed over. -/
theorem body_rawRecord :
    ((rawRecord b payload ++ rest).drop 6).take (1 + payload.length) = b :: payload := by
  have hdrop : (rawRecord b payload ++ rest).drop 6 = b :: payload ++ rest := rfl
  rw [hdrop]
  exact List.take_left' (by simp [Nat.add_comm])

/-- **The stored checksum verifies.** It is computed by extending the checksum of the type byte, and
read back over type byte and payload together. -/
theorem checksum_rawRecord :
    Crc32c.unmask (BitVec.ofNat 32 (decodeFixed32 (rawRecord b payload ++ rest)))
      = Crc32c.value (((rawRecord b payload ++ rest).drop 6).take (1 + payload.length)) := by
  have hcrc : decodeFixed32 (rawRecord b payload ++ rest)
      = (Crc32c.mask (Crc32c.extend (Crc32c.value [b]) payload)).toNat := by
    rw [rawRecord, rawHeader, List.append_assoc, List.append_assoc, decodeFixed32_encodeFixed32]
    exact Nat.mod_eq_of_lt (BitVec.isLt _)
  rw [hcrc, BitVec.ofNat_toNat, BitVec.setWidth_eq, Crc32c.unmask_mask, body_rawRecord,
    Crc32c.value, Crc32c.value, show b :: payload = [b] ++ payload from rfl, Crc32c.extend_append]

end Parse

/-- **A checksum that verifies is the one the format prescribes**, so that what the reader accepts
is a record of the format. -/
theorem rawRecord_prefix_of_checksum {buffer : Bytes} {n : ℕ}
    (hlength : byteAt buffer 4 ||| (byteAt buffer 5 <<< 8) = n)
    (hfits : kHeaderSize + n ≤ buffer.length)
    (hcrc : Crc32c.value ((buffer.drop 6).take (1 + n))
      = Crc32c.unmask (BitVec.ofNat 32 (decodeFixed32 buffer))) :
    rawRecord (buffer.getD 6 0) ((buffer.drop kHeaderSize).take n) <+: buffer := by
  -- The seven bytes of the header, and what is behind them.
  obtain ⟨c₀, c₁, c₂, c₃, l₀, l₁, b, rest, rfl⟩ :
      ∃ c₀ c₁ c₂ c₃ l₀ l₁ b rest, buffer = c₀ :: c₁ :: c₂ :: c₃ :: l₀ :: l₁ :: b :: rest := by
    match buffer, hfits with
    | c₀ :: c₁ :: c₂ :: c₃ :: l₀ :: l₁ :: b :: rest, _ => exact ⟨_, _, _, _, _, _, _, _, rfl⟩
    | [], h | [_], h | [_, _], h | [_, _, _], h | [_, _, _, _], h | [_, _, _, _, _], h
    | [_, _, _, _, _, _], h =>
      simp only [kHeaderSize, List.length_cons, List.length_nil] at h
      omega
  have hl₀ : l₀.toNat < 256 := l₀.toNat_lt
  have hl₁ : l₁.toNat < 256 := l₁.toNat_lt
  have hn : n = l₀.toNat + l₁.toNat * 256 := by
    rw [← hlength]
    exact or_shiftLeft _ hl₀
  have hrest : (rest.take n).length = n := by
    rw [List.length_take]
    simp only [List.length_cons, kHeaderSize] at hfits
    omega
  have hlen₀ : lowByte n = l₀ := by
    apply UInt8.toNat_inj.mp
    rw [lowByte_eq, UInt8.toNat_ofNat']
    omega
  have hlen₁ : UInt8.ofNat (n >>> 8) = l₁ := by
    apply UInt8.toNat_inj.mp
    rw [UInt8.toNat_ofNat', Nat.shiftRight_eq_div_pow]
    omega
  have hbody : ((c₀ :: c₁ :: c₂ :: c₃ :: l₀ :: l₁ :: b :: rest).drop 6).take (1 + n)
      = [b] ++ rest.take n := by
    rw [Nat.add_comm]
    rfl
  have hstored : encodeFixed32 (Crc32c.mask (Crc32c.extend (Crc32c.value [b]) (rest.take n))).toNat
      = [c₀, c₁, c₂, c₃] := by
    rw [hbody, Crc32c.value, Crc32c.extend_append, decodeFixed32_cons] at hcrc
    have hlt : leValue [c₀, c₁, c₂, c₃] < 2 ^ 32 :=
      lt_of_lt_of_eq (leValue_lt [c₀, c₁, c₂, c₃]) (by norm_num)
    rw [Crc32c.value, hcrc, Crc32c.mask_unmask, BitVec.toNat_ofNat, Nat.mod_eq_of_lt hlt,
      encodeFixed32_eq]
    exact leBytes_leValue [c₀, c₁, c₂, c₃]
  refine ⟨rest.drop n, ?_⟩
  change rawHeader b (rest.take n) ++ rest.take n ++ rest.drop n = _
  rw [List.append_assoc, List.take_append_drop, rawHeader, hrest, hstored, hlen₀, hlen₁]
  rfl

/-! ### The record types of the writer -/

section Parse

variable (t : RecordType) (payload rest : Bytes)

theorem decodeLength_physicalRecord (h : payload.length < 2 ^ 16) :
    byteAt (physicalRecord t payload ++ rest) 4
      ||| (byteAt (physicalRecord t payload ++ rest) 5 <<< 8) = payload.length :=
  decodeLength_rawRecord t.byte payload rest h

end Parse

end Log

end Squirrel
