import Squirrel.Table.Table

/-!
# Opening a table of unknown origin

`Table::Open` is told how long the file is and reads the footer from there. The argument may be
wrong, and a `Read` may return fewer bytes than it was asked for without failing. `ReadBlock` checks
for that and `Footer::DecodeFrom` does not: it looks for the magic number where it would be in a
whole footer, behind the end of the slice if need be, and computes what it leaves of its input from
there.

So opening is safe exactly if the read of the footer does not come back short.

## Main results

* `Footer.appendsTo_iff` — when `EncodeTo` appends a footer that can be read back
* `Footer.decodeFromSlice_inside` — what `DecodeFrom` leaves is a part of what it was given
* `Table.opensSafely_iff` — when opening a table looks at bytes of the footer only, and refuses what
  is not one
-/

namespace Squirrel

open Coding

/-- A part of a slice: where it starts, and how long it is. -/
structure SliceAt where
  start : ℕ
  size : ℕ

/-- The part of `input` that is its suffix `rest`. -/
def SliceAt.ofSuffix (input rest : Bytes) : SliceAt := ⟨input.length - rest.length, rest.length⟩

/-! ### What decoding leaves -/

/-- What `BlockHandle::DecodeFrom` leaves in `*input`, also when it fails. -/
def BlockHandle.leftover (input : Bytes) : Bytes :=
  match getVarint64 input with
  | none => input
  | some (_, input) =>
    match getVarint64 input with
    | none => input
    | some (_, input) => input

namespace Footer

/-- The magic number of a footer that is long enough. -/
def magic (input : Bytes) : ℕ :=
  let magicPtr := input.drop (kEncodedLength - 8)
  decodeFixed32 (magicPtr.drop 4) * 2 ^ 32 + decodeFixed32 magicPtr

/-- `DecodeFrom` with what it leaves in `*input`; nothing if it reads behind the end of its
input. -/
def decodeFromSlice (input : Bytes) : Option (Except Status Footer × SliceAt) :=
  if input.length < kEncodedLength - 8 + 8 then none
  else if magic input ≠ kTableMagicNumber then
    some (.error (.corruption "not an sstable (bad magic number)"), .ofSuffix input input)
  else
    match BlockHandle.decodeFrom input with
    | .error s => some (.error s, .ofSuffix input (BlockHandle.leftover input))
    | .ok (metaindexHandle, rest) =>
      match BlockHandle.decodeFrom rest with
      | .error s => some (.error s, .ofSuffix input (BlockHandle.leftover rest))
      | .ok (indexHandle, _) =>
        -- what is left of the input ends where the input ends
        let endPtr := kEncodedLength - 8 + 8
        some (.ok ⟨metaindexHandle, indexHandle⟩, ⟨endPtr, input.length - endPtr⟩)

/-- The status and the footer are those of `decodeFrom`. -/
theorem decodeFromSlice_fst (input : Bytes) :
    (decodeFromSlice input).map Prod.fst = decodeFrom input := by
  have hlen : kEncodedLength - 8 + 8 = kEncodedLength := rfl
  rw [decodeFromSlice, decodeFrom, hlen]
  split
  · rfl
  · show Option.map Prod.fst (if magic input ≠ kTableMagicNumber then _ else _)
      = if magic input ≠ kTableMagicNumber then _ else _
    split
    · rfl
    · cases hmeta : BlockHandle.decodeFrom input with
      | error s => rfl
      | ok m =>
        obtain ⟨metaindexHandle, rest⟩ := m
        simp only [bind, Except.bind]
        cases hindex : BlockHandle.decodeFrom rest with
        | error s => rfl
        | ok i => rfl

/-- The only read that can go wrong is that of the magic number. -/
theorem decodeFromSlice_eq_none_iff {input : Bytes} :
    decodeFromSlice input = none ↔ input.length < kEncodedLength := by
  rw [← Option.map_eq_none_iff (f := Prod.fst), decodeFromSlice_fst, decodeFrom]
  split
  · next hlt => exact ⟨fun _ => hlt, fun _ => rfl⟩
  · next hge =>
    refine ⟨fun h => ?_, fun h => absurd h hge⟩
    dsimp only at h
    split at h
    · cases h
    · cases h

/-- Of a footer that can be decoded, `DecodeFrom` leaves what comes behind. -/
theorem decodeFromSlice_of_ok {input : Bytes} {f : Footer} (h : decodeFrom input = some (.ok f)) :
    decodeFromSlice input = some (.ok f, ⟨kEncodedLength, input.length - kEncodedLength⟩) := by
  have hfst := decodeFromSlice_fst input
  rw [h] at hfst
  obtain ⟨⟨r, slice⟩, hdecode, rfl⟩ := Option.map_eq_some_iff.mp hfst
  rw [hdecode]
  rw [decodeFromSlice] at hdecode
  split at hdecode
  · cases hdecode
  · split at hdecode
    · cases hdecode
    · split at hdecode
      · cases hdecode
      · split at hdecode
        · cases hdecode
        · cases hdecode
          rfl

/-! ### Appending a footer

`EncodeTo` pads the handles by resizing all of `*dst`, so it can append to an empty string only. -/

/-- What `EncodeTo` is for: the footer is appended, and can be decoded whatever comes behind it. -/
def AppendsTo (f : Footer) (dst : Bytes) : Prop :=
  ∃ appended, f.encodeTo dst = some (dst ++ appended) ∧ appended.length = kEncodedLength ∧
    ∀ rest, decodeFromSlice (appended ++ rest) = some (.ok f, ⟨appended.length, rest.length⟩)

theorem length_resize (n : ℕ) (s : Bytes) : (resize n s).length = n := by
  rw [resize, List.length_append, List.length_take, List.length_replicate]
  omega

/-- The closing assertion fails if there was anything in the string. -/
theorem encodeTo_of_ne_nil (f : Footer) {dst : Bytes} (h : dst ≠ []) : f.encodeTo dst = none := by
  have hpos : 0 < dst.length := List.length_pos_iff.mpr h
  rw [encodeTo]
  cases f.metaindexHandle.encodeTo dst with
  | none => rfl
  | some d =>
    rw [Option.bind_eq_bind, Option.bind_some]
    cases f.indexHandle.encodeTo d with
    | none => rfl
    | some d' =>
      have hlen : (putFixed32 (putFixed32 (resize (2 * BlockHandle.kMaxEncodingLength) d')
          (kTableMagicNumber % 2 ^ 32)) (kTableMagicNumber / 2 ^ 32)).length = kEncodedLength := by
        rw [putFixed32, putFixed32, List.length_append, List.length_append, length_resize]
        rfl
      rw [Option.bind_some]
      refine if_neg ?_
      rw [hlen]
      omega

/-- **Footers are appended to the empty string only**, and then they can be read back. -/
theorem appendsTo_iff {f : Footer} (hmeta : f.metaindexHandle.Set) (hindex : f.indexHandle.Set)
    (dst : Bytes) : f.AppendsTo dst ↔ dst = [] := by
  constructor
  · rintro ⟨appended, hencode, -⟩
    by_contra hne
    rw [encodeTo_of_ne_nil f hne] at hencode
    cases hencode
  · rintro rfl
    have hlen := length_encoding hmeta hindex
    refine ⟨f.encoding, encodeTo_nil hmeta hindex, hlen, fun rest => ?_⟩
    rw [decodeFromSlice_of_ok (decodeFrom_encoding_append hmeta hindex rest), List.length_append,
      hlen, Nat.add_sub_cancel_left]

/-- Handles of one and of several bytes. -/
theorem appendsTo_nil : AppendsTo ⟨⟨0, 8⟩, ⟨2 ^ 40, 2 ^ 64 - 2⟩⟩ [] :=
  (appendsTo_iff (by decide) (by decide) []).mpr rfl

/-- **Nothing is appended behind a byte.** -/
theorem not_appendsTo : ¬ AppendsTo ⟨⟨0, 8⟩, ⟨13, 20⟩⟩ [7] := by
  rintro ⟨appended, hencode, -⟩
  rw [encodeTo_of_ne_nil _ (by decide)] at hencode
  cases hencode

end Footer

theorem getVarint64_length_le {input rest : Bytes} {v : ℕ}
    (h : getVarint64 input = some (v, rest)) : rest.length ≤ input.length := by
  obtain ⟨front, -, -, rfl⟩ := getVarintLoop_suffix h
  rw [List.length_append]
  exact Nat.le_add_left _ _

theorem BlockHandle.length_leftover_le (input : Bytes) :
    (leftover input).length ≤ input.length := by
  rw [leftover]
  cases hoffset : getVarint64 input with
  | none => exact le_rfl
  | some a =>
    obtain ⟨offset, rest⟩ := a
    dsimp only
    have hle := getVarint64_length_le hoffset
    cases hsize : getVarint64 rest with
    | none => exact hle
    | some b => exact (getVarint64_length_le hsize).trans hle

theorem BlockHandle.length_of_decodeFrom {input rest : Bytes} {h : BlockHandle}
    (hdecode : decodeFrom input = .ok (h, rest)) : rest.length ≤ input.length := by
  rw [decodeFrom] at hdecode
  cases hoffset : getVarint64 input with
  | none => rw [hoffset] at hdecode; cases hdecode
  | some a =>
    obtain ⟨offset, rest'⟩ := a
    rw [hoffset] at hdecode
    dsimp only at hdecode
    cases hsize : getVarint64 rest' with
    | none => rw [hsize] at hdecode; cases hdecode
    | some b =>
      rw [hsize] at hdecode
      cases hdecode
      exact (getVarint64_length_le hsize).trans (getVarint64_length_le hoffset)

theorem BlockHandle.not_ok_of_error {input : Bytes} {s : Status}
    (h : decodeFrom input = .error s) : s.ok = false := by
  rw [decodeFrom] at h
  split at h
  · cases h
    rfl
  · split at h
    · cases h
      rfl
    · cases h

theorem SliceAt.ofSuffix_inside {input rest : Bytes} (h : rest.length ≤ input.length) :
    (ofSuffix input rest).start + (ofSuffix input rest).size ≤ input.length := by
  rw [ofSuffix]
  dsimp only
  omega

namespace Footer

/-- **What `DecodeFrom` leaves is a part of what it was given**, whenever it reads nothing else. -/
theorem decodeFromSlice_inside {input : Bytes} {r : Except Status Footer} {slice : SliceAt}
    (h : decodeFromSlice input = some (r, slice)) : slice.start + slice.size ≤ input.length := by
  rw [decodeFromSlice] at h
  split at h
  · cases h
  · next hlen =>
    split at h
    · cases h
      exact SliceAt.ofSuffix_inside le_rfl
    · cases hmeta : BlockHandle.decodeFrom input with
      | error s =>
        rw [hmeta] at h
        cases h
        exact SliceAt.ofSuffix_inside (BlockHandle.length_leftover_le input)
      | ok m =>
        obtain ⟨metaindexHandle, rest⟩ := m
        have hrest := BlockHandle.length_of_decodeFrom hmeta
        rw [hmeta] at h
        dsimp only at h
        cases hindex : BlockHandle.decodeFrom rest with
        | error s =>
          rw [hindex] at h
          cases h
          exact SliceAt.ofSuffix_inside ((BlockHandle.length_leftover_le rest).trans hrest)
        | ok i =>
          rw [hindex] at h
          cases h
          dsimp only
          omega

/-- A whole footer: long enough, with the magic number and two handles. -/
def WellFormed (input : Bytes) : Prop :=
  kEncodedLength ≤ input.length ∧ magic input = kTableMagicNumber ∧
    ∃ metaindexHandle indexHandle rest rest', BlockHandle.decodeFrom input
      = .ok (metaindexHandle, rest) ∧
      BlockHandle.decodeFrom rest = .ok (indexHandle, rest')

/-- Anything else of that length is refused. -/
theorem decodeFrom_of_not_wellFormed {input : Bytes} (hlen : kEncodedLength ≤ input.length)
    (h : ¬ WellFormed input) : ∃ s, decodeFrom input = some (.error s) ∧ s.ok = false := by
  rw [← decodeFromSlice_fst, decodeFromSlice,
    if_neg (show ¬ input.length < kEncodedLength - 8 + 8 from Nat.not_lt.mpr hlen)]
  split
  · exact ⟨_, rfl, rfl⟩
  · next hmagic =>
    cases hmeta : BlockHandle.decodeFrom input with
    | error s => exact ⟨s, rfl, BlockHandle.not_ok_of_error hmeta⟩
    | ok m =>
      obtain ⟨metaindexHandle, rest⟩ := m
      dsimp only
      cases hindex : BlockHandle.decodeFrom rest with
      | error s => exact ⟨s, rfl, BlockHandle.not_ok_of_error hindex⟩
      | ok i =>
        obtain ⟨indexHandle, rest'⟩ := i
        exact absurd ⟨hlen, not_not.mp hmagic, _, _, _, _, hmeta, hindex⟩ h

end Footer

/-! ### `Open` -/

/-- The slice of a read that stays below `2 ^ 64` is in memory, and no longer than asked for. -/
theorem RandomAccessFile.bytesAt_of_read {f : RandomAccessFile} {offset n : ℕ} {s : Status}
    {d : Loaded} (hread : f.read offset n = (s, some d)) (hlt : offset + n < 2 ^ 64) :
    ∃ input, d.bytesAt 0 d.size = some input ∧ input.length = d.size ∧ d.size ≤ n := by
  cases f with
  | posix filename contents pread =>
    rw [read] at hread
    split at hread
    · cases hread
    · split at hread
      · cases hread
      · cases hread
        refine ⟨_, if_pos (by dsimp only; omega), ?_, ?_⟩
        · rw [List.length_take, List.length_drop]
          dsimp only
          omega
        · rw [List.length_take]
          dsimp only
          omega
  | mmap filename contents =>
    rw [read] at hread
    split at hread
    · cases hread
    · next hle =>
      cases hread
      rw [Nat.mod_eq_of_lt hlt] at hle
      refine ⟨_, if_pos (by dsimp only; omega), ?_, le_rfl⟩
      rw [List.length_take, List.length_drop]
      dsimp only
      omega

namespace Table

/-- `input` is the slice that `Open` gives to `Footer::DecodeFrom`. -/
def FooterInput (file : RandomAccessFile) (size : ℕ) (input : Bytes) : Prop :=
  Footer.kEncodedLength ≤ size ∧ ∃ s d,
    file.read (size - Footer.kEncodedLength) Footer.kEncodedLength = (s, some d) ∧
      d.bytesAt 0 d.size = some input

/-- `DecodeFrom` inspects only bytes of the slice it is given and leaves a part of it, and unless
that slice is a whole footer, `Open` returns an error and no table. -/
def OpensSafely (sn : Snappy) (junk : ℕ → UInt8) (options : Options) (file : RandomAccessFile)
    (size : ℕ) : Prop :=
  (∀ input, FooterInput file size input →
    ∃ r slice, Footer.decodeFromSlice input = some (r, slice) ∧
      slice.start + slice.size ≤ input.length) ∧
  ((∀ input, FooterInput file size input → ¬ Footer.WellFormed input) →
    ∃ s, openTable sn junk options file size = some (s, none) ∧ s.ok = false)

/-- The read of the footer does not come back short: it is not made, it fails, or it returns all of
the bytes. -/
def FooterReadWhole (file : RandomAccessFile) (size : ℕ) : Prop :=
  Footer.kEncodedLength ≤ size →
    (file.read (size - Footer.kEncodedLength) Footer.kEncodedLength).1.ok = true →
    file.Delivers (size - Footer.kEncodedLength) Footer.kEncodedLength

theorem FooterReadWhole.length_eq {file : RandomAccessFile} {size : ℕ} {input : Bytes}
    (h : FooterReadWhole file size) (hsize : size < 2 ^ 64) (hinput : FooterInput file size input) :
    input.length = Footer.kEncodedLength := by
  obtain ⟨hle, s, d, hread, hbytes⟩ := hinput
  obtain ⟨input', hbytes', hlen, -⟩ := RandomAccessFile.bytesAt_of_read hread (by omega)
  obtain rfl := Option.some.inj (hbytes.symm.trans hbytes')
  have hok : s.ok = true := by
    rw [(RandomAccessFile.read_some hread).1]
    rfl
  obtain ⟨s', d', hread', hsize'⟩ := h hle (by rw [hread]; exact hok)
  rw [hread] at hread'
  cases hread'
  rw [hlen, hsize']

theorem openTable_refuses {sn : Snappy} {junk : ℕ → UInt8} {options : Options}
    {file : RandomAccessFile} {size : ℕ} (hsize : size < 2 ^ 64) (h : FooterReadWhole file size)
    (hbad : ∀ input, FooterInput file size input → ¬ Footer.WellFormed input) :
    ∃ s, openTable sn junk options file size = some (s, none) ∧ s.ok = false := by
  rw [openTable]
  split
  · exact ⟨_, rfl, rfl⟩
  · next hle =>
    cases hread : file.read (size - Footer.kEncodedLength) Footer.kEncodedLength with
    | mk s d =>
      cases d with
      | none => exact ⟨s, rfl, RandomAccessFile.read_none hread⟩
      | some d =>
        obtain ⟨input, hbytes, -, -⟩ := RandomAccessFile.bytesAt_of_read hread (by omega)
        have hinput : FooterInput file size input := ⟨Nat.not_lt.mp hle, s, d, hread, hbytes⟩
        obtain ⟨s', hdecode, hok⟩ := Footer.decodeFrom_of_not_wellFormed
          (h.length_eq hsize hinput).ge (hbad input hinput)
        refine ⟨s', ?_, hok⟩
        simp only [hbytes, hdecode, Option.bind_eq_bind, Option.bind_some]

/-- **When opening is safe.** For any file and any size, exactly if the read of the footer does not
come back short. -/
theorem opensSafely_iff (sn : Snappy) (junk : ℕ → UInt8) (options : Options)
    (file : RandomAccessFile) (size : ℕ) (hsize : size < 2 ^ 64) :
    OpensSafely sn junk options file size ↔ FooterReadWhole file size := by
  constructor
  · rintro ⟨hinside, -⟩ hle hok
    cases hread : file.read (size - Footer.kEncodedLength) Footer.kEncodedLength with
    | mk s d =>
      rw [hread] at hok
      cases d with
      | none =>
        rw [RandomAccessFile.read_none hread] at hok
        cases hok
      | some d =>
        obtain ⟨input, hbytes, hlen, hshort⟩ :=
          RandomAccessFile.bytesAt_of_read hread (by omega)
        obtain ⟨r, slice, hdecode, -⟩ := hinside input ⟨hle, s, d, hread, hbytes⟩
        refine ⟨s, d, hread, le_antisymm hshort ?_⟩
        by_contra hlt
        rw [Footer.decodeFromSlice_eq_none_iff.mpr (by omega)] at hdecode
        cases hdecode
  · intro h
    refine ⟨fun input hinput => ?_, fun hbad => openTable_refuses hsize h hbad⟩
    have hlen := h.length_eq hsize hinput
    cases hdecode : Footer.decodeFromSlice input with
    | none =>
      have hlt := Footer.decodeFromSlice_eq_none_iff.mp hdecode
      omega
    | some a =>
      obtain ⟨r, slice⟩ := a
      exact ⟨r, slice, rfl, Footer.decodeFromSlice_inside hdecode⟩

theorem opensSafely_zeros :
    OpensSafely .absent (fun _ => 0) ⟨bytewiseComparator, false, 4096, 16, .kNoCompression, none⟩
      (.mmap "t" (List.replicate 48 0)) 48 := by
  refine (opensSafely_iff _ _ _ _ 48 (by decide)).mpr fun _ _ => ?_
  exact ⟨_, _, rfl, rfl⟩

/-- An empty file that `Open` is told has 48 bytes: the magic number is read from memory that
nothing has been read into. -/
theorem not_opensSafely :
    ¬ OpensSafely .absent (fun _ => 0) ⟨bytewiseComparator, false, 4096, 16, .kNoCompression, none⟩
      (.posix "t" [] fun _ n => .ok n) 48 := by
  rintro ⟨hinside, -⟩
  obtain ⟨r, slice, hdecode, -⟩ := hinside [] ⟨by decide, _, _, rfl, rfl⟩
  rw [Footer.decodeFromSlice_eq_none_iff.mpr (by decide)] at hdecode
  cases hdecode

end Table

end Squirrel
