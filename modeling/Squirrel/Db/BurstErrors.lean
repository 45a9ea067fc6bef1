import Squirrel.Db.LogPosition
import Squirrel.Table.Format

/-!
# Short bursts of corruption

A log and a table keep a checksum for each record and each block. A CRC of 32 bits does not detect
all corruption, but it detects a burst that fits in 32 bits, wherever it is. `Burst` says that a
file was damaged that way, within a given range of its bytes. Since the range is the one that a
checksum is computed over, the stored checksum and the length are the old ones, and the computed
checksum is not.

## Main results

* `Burst.value_ne` — the checksum of the range changes
* `Reader.At.readPhysicalRecord_of_burst` — a damaged log record is bad
* `readBlock_of_burst` — a damaged block is corrupt
-/

namespace Squirrel

open Coding Crc32c Log

/-- The files differ, and only within four consecutive bytes, all of them in `[low, high)`. -/
structure Burst (data data' : Bytes) (low high : ℕ) : Prop where
  length_eq : data'.length = data.length
  ne : data ≠ data'
  same : ∃ start, ∀ i, ¬ (low ≤ i ∧ i < high ∧ start ≤ i ∧ i < start + 4) → data'[i]? = data[i]?

variable {data data' : Bytes} {low high : ℕ}

theorem Burst.getElem?_eq (h : Burst data data' low high) {i : ℕ} (hi : i < low ∨ high ≤ i) :
    data'[i]? = data[i]? := by
  obtain ⟨start, hsame⟩ := h.same
  exact hsame i (by omega)

/-- Bytes in front of the range, or behind it. -/
theorem Burst.drop_take_eq (h : Burst data data' low high) {i n : ℕ}
    (hi : i + n ≤ low ∨ high ≤ i) : (data'.drop i).take n = (data.drop i).take n := by
  apply List.ext_getElem?
  intro j
  rw [List.getElem?_take, List.getElem?_take]
  split
  · next hj =>
    rw [List.getElem?_drop, List.getElem?_drop]
    exact h.getElem?_eq (by omega)
  · rfl

/-- Inside the range, it is a burst of the bytes of the range. -/
theorem Burst.sameOutside (h : Burst data data' low high) :
    ∃ start, SameOutside start ((data.drop low).take (high - low))
      ((data'.drop low).take (high - low)) := by
  obtain ⟨start, hsame⟩ := h.same
  refine ⟨start - low, ?_, fun i hi => ?_⟩
  · rw [List.length_take, List.length_take, List.length_drop, List.length_drop, h.length_eq]
  · rw [List.getElem?_take, List.getElem?_take]
    split
    · rw [List.getElem?_drop, List.getElem?_drop]
      exact (hsame _ (by omega)).symm
    · rfl

/-- **The checksum of the range changes.** -/
theorem Burst.value_ne (h : Burst data data' low high) :
    value ((data'.drop low).take (high - low)) ≠ value ((data.drop low).take (high - low)) := by
  obtain ⟨start, hsame⟩ := h.sameOutside
  refine (Crc32c.value_ne hsame fun heq => h.ne ?_).symm
  apply List.ext_getElem?
  intro i
  by_cases hi : low ≤ i ∧ i < high
  · have hget := congrArg (fun l : Bytes => l[i - low]?) heq
    simp only [List.getElem?_take, List.getElem?_drop] at hget
    rwa [if_pos (by omega), if_pos (by omega), Nat.add_sub_cancel' hi.1] at hget
  · exact (h.getElem?_eq (by omega)).symm

/-! ### Log records -/

/-- Where the type byte and the payload of a record are. -/
def bodyStart (q : ℕ) : ℕ := q + 6

def bodyLimit (q : ℕ) (payload : Bytes) : ℕ := q + kHeaderSize + payload.length

/-- **A damaged record is bad.** The reader stands in front of the record, in the damaged file. -/
theorem Log.Reader.At.readPhysicalRecord_of_burst {p : ℕ} {r : Reader} {b : UInt8} {payload : Bytes}
    (h : Reader.At data' p r) (hcheck : r.checksum = true)
    (hv : Valid data (nextHeader p) b payload)
    (hburst : Burst data data' (bodyStart (nextHeader p)) (bodyLimit (nextHeader p) payload))
    (result : Bytes) : (r.readPhysicalRecord result).1 = kBadRecord := by
  have hlimit := hv.limit_le
  have hin := hv.inBlock
  have hpos : kHeaderSize = 7 := rfl
  have hskip : skipTrailer data'.length p = nextHeader p :=
    skipTrailer_eq_nextHeader (by rw [hburst.length_eq]; omega)
  obtain ⟨r₀, hload, hmoved, hread⟩ := h.refill result
  rw [hskip] at hload
  generalize nextHeader p = q at *
  obtain ⟨rest, hrest⟩ := hv.stored
  rw [bodyStart, bodyLimit] at hburst
  -- The stored checksum and the length are the old ones.
  have hbyte : ∀ i < 6, byteAt r₀.buffer i = byteAt (rawRecord b payload ++ rest) i := by
    intro i hi
    have hget : data'[q + i]? = data[q + i]? := hburst.getElem?_eq (by omega)
    rw [byteAt, byteAt, hrest, hload.buffer_eq, List.getD_eq_getElem?_getD,
      List.getD_eq_getElem?_getD, List.getElem?_take, if_pos (by omega), List.getElem?_drop,
      List.getElem?_drop, hget]
  have hlength : byteAt r₀.buffer 4 ||| (byteAt r₀.buffer 5 <<< 8) = payload.length := by
    rw [hbyte 4 (by omega), hbyte 5 (by omega), decodeLength_rawRecord b payload rest hv.length_lt]
  have hstored : decodeFixed32 r₀.buffer = decodeFixed32 (rawRecord b payload ++ rest) := by
    rw [decodeFixed32, decodeFixed32, hbyte 0 (by omega), hbyte 1 (by omega), hbyte 2 (by omega),
      hbyte 3 (by omega)]
  -- What the checksum is computed over is not.
  have hbody : (r₀.buffer.drop 6).take (1 + payload.length)
      = (data'.drop (q + 6)).take (q + kHeaderSize + payload.length - (q + 6)) := by
    rw [hload.buffer_eq, List.drop_take, List.drop_drop, List.take_take]
    congr 1
    omega
  have hcrc : value ((r₀.buffer.drop 6).take (1 + payload.length))
      ≠ unmask (BitVec.ofNat 32 (decodeFixed32 r₀.buffer)) := by
    rw [hbody, hstored, checksum_rawRecord, hrest, List.drop_drop]
    have hne := hburst.value_ne
    rwa [show q + kHeaderSize + payload.length - (q + 6) = 1 + payload.length by omega] at hne ⊢
  have hlen : kHeaderSize + payload.length ≤ r₀.buffer.length := by
    rw [hload.buffer_eq, List.length_take, List.length_drop, hburst.length_eq]
    omega
  rw [hread, if_neg (by omega), Reader.parseRecord]
  dsimp only
  rw [hlength, if_neg (by omega)]
  split
  · rfl
  · rw [if_pos ⟨hmoved.checksum.trans hcheck, hcrc⟩]

/-! ### Blocks -/

/-- **A damaged block is corrupt**, unless the file cannot be read at all. -/
theorem readBlock_of_burst (sn : Snappy) (junk : ℕ → UInt8) {f f' : RandomAccessFile}
    {h : BlockHandle} (hlen : f.contents.length < 2 ^ 63)
    (hle : h.offset + h.size + kBlockTrailerSize ≤ f.contents.length)
    (hcrc : checksumOk ((f.contents.drop h.offset).take (h.size + 1))
      ((f.contents.drop (h.offset + (h.size + 1))).take 4) = true)
    (hburst : Burst f.contents f'.contents h.offset (h.offset + (h.size + 1)))
    (hread : (f'.read h.offset (h.size + kBlockTrailerSize)).1.ok = true) :
    ∃ msg, readBlock sn junk f' true h = some (.corruption msg, .unset) := by
  have htrailer : kBlockTrailerSize = 5 := rfl
  rw [htrailer] at hle hread
  have hmod : (h.size + 5) % 2 ^ 64 = h.size + 5 := Nat.mod_eq_of_lt (by omega)
  cases hr : f'.read h.offset (h.size + 5) with
  | mk s d =>
    rw [hr] at hread
    cases d with
    | none =>
      rw [RandomAccessFile.read_none hr] at hread
      cases hread
    | some d =>
      by_cases hsize : d.size = h.size + 5
      · have hcov := RandomAccessFile.covers_of_read hr hsize (Nat.succ_pos _) fun _ => by omega
        refine ⟨"block checksum mismatch", ?_⟩
        rw [readBlock_of_covers hmod hr hsize hcov, if_neg]
        intro hok
        have hok := hok rfl
        rw [checksumOk, decide_eq_true_eq] at hcrc hok
        rw [hburst.drop_take_eq (.inr le_rfl), ← hcrc] at hok
        have hne := hburst.value_ne
        rw [Nat.add_sub_cancel_left] at hne
        exact hne hok
      · exact ⟨"truncated block read", by
          simp only [readBlock, htrailer, hmod, hr, ne_eq, hsize, not_false_eq_true, if_true]⟩

/-! ### All three -/

/-- **Short bursts are always detected**: by the checksum of any two strings, by a reader of the log
that verifies checksums, and by a reader of blocks that does. -/
theorem burst_detected :
    (∀ (start : ℕ) (a b : Bytes), SameOutside start a b → a ≠ b → value a ≠ value b) ∧
    (∀ (data data' : Bytes) (p : ℕ) (r : Reader) (b : UInt8) (payload result : Bytes),
      Valid data (nextHeader p) b payload →
      Burst data data' (bodyStart (nextHeader p)) (bodyLimit (nextHeader p) payload) →
      Reader.At data' p r → r.checksum = true → (r.readPhysicalRecord result).1 = kBadRecord) ∧
    (∀ (sn : Snappy) (junk : ℕ → UInt8) (f f' : RandomAccessFile) (h : BlockHandle),
      f.contents.length < 2 ^ 63 →
      h.offset + h.size + kBlockTrailerSize ≤ f.contents.length →
      checksumOk ((f.contents.drop h.offset).take (h.size + 1))
        ((f.contents.drop (h.offset + (h.size + 1))).take 4) = true →
      Burst f.contents f'.contents h.offset (h.offset + (h.size + 1)) →
      (f'.read h.offset (h.size + kBlockTrailerSize)).1.ok = true →
      ∃ msg, readBlock sn junk f' true h = some (.corruption msg, .unset)) := by
  refine ⟨?_, ?_, ?_⟩
  · intro start a b hsame hne
    exact Crc32c.value_ne hsame hne
  · intro data data' p r b payload result hv hburst hat hcheck
    exact hat.readPhysicalRecord_of_burst hcheck hv hburst result
  · intro sn junk f f' h hlen hle hcrc hburst hread
    exact readBlock_of_burst sn junk hlen hle hcrc hburst hread

/-- The checksum that a table stores behind a block. -/
theorem checksumOk_mask (data : Bytes) :
    checksumOk data (encodeFixed32 (mask (value data)).toNat) = true := by
  have hdecode := decodeFixed32_encodeFixed32 (mask (value data)).toNat []
  rw [List.append_nil, Nat.mod_eq_of_lt (BitVec.isLt _)] at hdecode
  rw [checksumOk, hdecode, BitVec.ofNat_toNat, BitVec.setWidth_eq, unmask_mask]
  exact decide_eq_true rfl

theorem burst_append (front back : Bytes) {x y : Bytes} (hlen : x.length = y.length)
    (hx : x.length ≤ 4) (hne : x ≠ y) :
    Burst (front ++ (x ++ back)) (front ++ (y ++ back)) front.length (front.length + x.length) where
  length_eq := by rw [List.length_append, List.length_append, List.length_append,
    List.length_append, hlen]
  ne heq := hne (List.append_cancel_right (List.append_cancel_left heq))
  same := by
    refine ⟨front.length, fun i hi => ?_⟩
    rcases Nat.lt_or_ge i front.length with hlt | hge
    · rw [List.getElem?_append_left hlt, List.getElem?_append_left hlt]
    · rw [List.getElem?_append_right hge, List.getElem?_append_right hge,
        List.getElem?_append_right (by omega), List.getElem?_append_right (by omega), hlen]

theorem burst_detected_five :
    value [1, 5] ≠ value [1, 6] ∧
    ((Reader.new ⟨rawHeader 1 [5] ++ [6], 0, fun _ => .success⟩ false true 0).readPhysicalRecord
      []).1 = kBadRecord ∧
    ∃ msg, readBlock .absent (fun _ => 0)
      (.mmap "t" ([6, 0] ++ encodeFixed32 (mask (value [5, 0])).toNat)) true ⟨0, 1⟩
        = some (.corruption msg, .unset) := by
  obtain ⟨hvalue, hlog, hblock⟩ := burst_detected
  refine ⟨hvalue 1 _ _ ⟨rfl, ?_⟩ (by decide), ?_, ?_⟩
  · rintro (_ | i) hi
    · rfl
    · obtain ⟨j, rfl⟩ : ∃ j, i = j + 1 := ⟨i - 1, by omega⟩
      rfl
  · refine hlog (rawRecord 1 [5]) _ 0 _ 1 [5] [] ⟨List.prefix_rfl, by decide⟩ ?_
      (Reader.at_new (fun _ => rfl) false true 0) rfl
    -- the type byte and the payload, behind the checksum and the length
    exact burst_append (x := [1, 5]) (y := [1, 6]) ((rawHeader 1 [5]).take 6) [] rfl (by decide)
      (by decide)
  · have hcrc := checksumOk_mask [5, 0]
    have hlen := length_encodeFixed32 (mask (value [5, 0])).toNat
    generalize encodeFixed32 (mask (value [5, 0])).toNat = crc at hcrc hlen ⊢
    refine hblock .absent _ (.mmap "t" ([5, 0] ++ crc)) _ _ ?_ ?_ ?_
      (burst_append (x := [5, 0]) (y := [6, 0]) [] _ rfl (by decide) (by decide)) ?_
    · simp [RandomAccessFile.contents, hlen]
    · simp [RandomAccessFile.contents, kBlockTrailerSize, hlen]
    · show checksumOk [5, 0] (crc.take 4) = true
      rw [List.take_of_length_le hlen.le]
      exact hcrc
    · simp [RandomAccessFile.read, kBlockTrailerSize, hlen, Status.ok]

end Squirrel
