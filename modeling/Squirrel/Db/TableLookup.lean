import Squirrel.Db.DbFormat
import Squirrel.Table.SingleTable
import Squirrel.Table.TableRoundTrip

/-!
# Snapshot lookups in tables

In the database the keys of tables are internal keys, and a lookup of a user key at a sequence
number asks for the first entry that is not before the seek key. `InternalGet` looks for it in one
block only. That is enough since an index key never comes between a seek key and an entry of the
same user key: it is a key of its block, or it has a user key that is less than all of those behind
it.

The filter knows user keys only, so it treats the seek key and the entry alike.

## Main results

* `Table.internalGet_build` — what lookups in a table find
* `Table.not_internalGet_build` — and that the format cannot hold values of four gigabytes
-/

namespace Squirrel

open Std Coding

/-- A key with the value it has in a table. -/
structure TableRecord where
  key : ParsedInternalKey
  value : Bytes
  deriving DecidableEq

namespace TableRecord

variable {e e' : TableRecord} {entries : List TableRecord} {u : Bytes} {s : ℕ}

/-- What is added to the table. -/
def pair (e : TableRecord) : Bytes × Bytes :=
  (encodeInternalKey e.key.userKey e.key.sequence e.key.type, e.value)

/-- The snapshot `s` sees the entry, and it is one of the user key. -/
def Visible (u : Bytes) (s : ℕ) (e : TableRecord) : Prop := e.key.userKey = u ∧ e.key.sequence ≤ s

/-- The entry of the user key with the largest sequence number and type that the snapshot sees. -/
structure Newest (entries : List TableRecord) (u : Bytes) (s : ℕ) (e : TableRecord) : Prop where
  mem : e ∈ entries
  visible : e.Visible u s
  largest : ∀ e' ∈ entries, e'.Visible u s → e'.key.sequence < e.key.sequence ∨
    e'.key.sequence = e.key.sequence ∧ e'.key.type.toNat ≤ e.key.type.toNat

theorem userKey_pair (e : TableRecord) : extractUserKey e.pair.1 = e.key.userKey :=
  extractUserKey_encode _ _ _

/-- An entry of the user key is visible if it is not before the seek key. -/
theorem visible_iff (hseq : e.key.sequence ≤ kMaxSequenceNumber) (hs : s ≤ kMaxSequenceNumber)
    (hu : e.key.userKey = u) :
    (internalKeyComparator bytewiseComparator).compare e.pair.1
      (encodeInternalKey u s kValueTypeForSeek) ≠ .lt ↔ e.Visible u s := by
  have htrans := bytewiseComparator_lawful.trans
  subst hu
  rw [compare_internalKeyComparator, ne_eq, pair, InternalKeyComparator.compare_seek_eq_lt_iff _ _
    hseq hs]
  simp [Visible]

/-- Where the snapshot sees an entry, the first one that is not before the seek key is the
newest. -/
theorem newest_of_first (hseq : ∀ e ∈ entries, e.key.sequence ≤ kMaxSequenceNumber)
    (hs : s ≤ kMaxSequenceNumber) (he' : e' ∈ entries) (hvisible : e'.Visible u s)
    (he : e ∈ entries)
    (hfirst : Table.First (internalKeyComparator bytewiseComparator).compare (entries.map pair)
      (encodeInternalKey u s kValueTypeForSeek) e.pair) :
    e.key.userKey = u ∧ Newest entries u s e := by
  have htrans := bytewiseComparator_lawful.trans
  have hnot_lt := hfirst.not_lt
  have hlt_of_lt := hfirst.lt_of_lt
  rw [compare_internalKeyComparator] at hnot_lt hlt_of_lt
  have heq : LawfulEqCmp bytewiseComparator.compare :=
    inferInstanceAs (LawfulEqCmp Slice.compare)
  -- every entry that is seen comes behind the first
  have hle : ∀ x ∈ entries, x.Visible u s →
      InternalKeyComparator.compare bytewiseComparator e.pair.1 x.pair.1 ≠ .gt := by
    intro x hx hseen hgt
    have hlt : InternalKeyComparator.compare bytewiseComparator x.pair.1 e.pair.1 = .lt :=
      OrientedCmp.gt_iff_lt.mp hgt
    have hseek := (visible_iff (hseq x hx) hs hseen.1).mpr hseen
    rw [compare_internalKeyComparator] at hseek
    exact hseek (hlt_of_lt x.pair (List.mem_map_of_mem hx) hlt)
  have hu : e.key.userKey = u := by
    rw [← userKey_pair]
    have huser : extractUserKey e'.pair.1
        = extractUserKey (encodeInternalKey u s kValueTypeForSeek) := by
      rw [userKey_pair, extractUserKey_encode, hvisible.1]
    rw [InternalKeyComparator.userKey_of_between hnot_lt (hle e' he' hvisible) huser,
      extractUserKey_encode]
  refine ⟨hu, he, (visible_iff (hseq e he) hs hu).mp hfirst.not_lt, fun x hx hseen => ?_⟩
  have hle' := hle x hx hseen
  rw [pair, pair, hu, hseen.1, InternalKeyComparator.compare_encode_self, ne_eq,
    Nat.compare_eq_gt, tag_lt_tag_iff (hseq e he) (hseq x hx)] at hle'
  omega

end TableRecord

/-- What a lookup of the user key `u` at `s` has to find: the newest entry that is visible, or no
entry of the user key. -/
structure FindsNewest (entries : List TableRecord) (u : Bytes) (s : ℕ)
    (result : Option (Status × List (Bytes × Bytes))) : Prop where
  found : (∃ e ∈ entries, e.Visible u s) →
    ∃ e, TableRecord.Newest entries u s e ∧ result = some (.success, [e.pair])
  missing : (¬ ∃ e ∈ entries, e.Visible u s) → ∃ saved, result = some (.success, saved) ∧
    (saved = [] ∨ ∃ e ∈ entries, saved = [e.pair] ∧ e.key.userKey ≠ u)

namespace Table

variable {sn : Snappy} {junk : ℕ → UInt8} {K : CompressionType → Prop} {q : FilterPolicy}
  {f : RandomAccessFile} {blocks : List DataBlock} {options : Options} {table : Table}
  {entries : List TableRecord} {u : Bytes} {s : ℕ}

/-- Index keys do not come between a seek key and the first entry behind it, if that has the same
user key. -/
theorem separator_lt_seek {b : DataBlock} {e : TableRecord} {es : List (Bytes × Bytes)}
    (hmem : ∀ a ∈ b.entries, a ∈ es)
    (hparts : b.Parts (internalKeyComparator bytewiseComparator) (fun k => 8 ≤ k.length) e.pair.1)
    (hu : e.key.userKey = u)
    (hfirst : First (internalKeyComparator bytewiseComparator).compare es
      (encodeInternalKey u s kValueTypeForSeek) e.pair) :
    (internalKeyComparator bytewiseComparator).compare b.separator
      (encodeInternalKey u s kValueTypeForSeek) = .lt := by
  have htrans := bytewiseComparator_lawful.trans
  have htrans' := internalKeyComparator_lawful.trans
  obtain ⟨start, hstart, limit, -, -, hlt, hfind, hle⟩ := hparts
  rcases InternalKeyComparator.findShortestSeparator_cases hfind with hsep | hsep
  · rw [hsep]
    exact hfirst.lt_of_lt start (hmem start hstart)
      (TransCmp.lt_of_lt_of_isLE hlt (Ordering.isLE_iff_ne_gt.mpr hle))
  · rw [compare_internalKeyComparator] at hle ⊢
    refine InternalKeyComparator.compare_of_user_lt ?_
    have huser := InternalKeyComparator.user_ne_gt hle
    rw [TableRecord.userKey_pair, hu] at huser
    rw [extractUserKey_encode]
    exact TransCmp.lt_of_lt_of_isLE hsep (Ordering.isLE_iff_ne_gt.mpr huser)

/-- A filter on user keys treats internal keys of one user key alike. -/
theorem keyMayMatch_of_userKey {reader : FilterBlockReader} {user : FilterPolicy}
    (hpolicy : reader.policy = internalFilterPolicy user) {k k' : Bytes}
    (hk : extractUserKey k = extractUserKey k') (offset : ℕ) :
    reader.keyMayMatch offset k = reader.keyMayMatch offset k' := by
  have hmatch : reader.policy.keyMayMatch k = reader.policy.keyMayMatch k' := by
    funext filter
    rw [hpolicy]
    exact congrArg (user.keyMayMatch · filter) hk
  rw [FilterBlockReader.keyMayMatch, FilterBlockReader.keyMayMatch, hmatch]

/-- Lookups in a table that has been opened. -/
theorem findsNewest_of_tableFile
    (ht : TableFile sn K (internalKeyComparator bytewiseComparator) (fun k => 8 ≤ k.length) q
      f.contents blocks)
    (hK : Uncompressed sn K) (hread : f.Readable) (hsmall : SmallTable sn K q f.contents blocks)
    (hopened : Opened q options f blocks table)
    (hcmp : options.comparator = internalKeyComparator bytewiseComparator)
    (hpolicy : ∀ p, options.filterPolicy = some p → p = q ∧ ∃ user, p = internalFilterPolicy user)
    (hentries : (blocks.map DataBlock.entries).flatten = entries.map TableRecord.pair)
    (hseq : ∀ e ∈ entries, e.key.sequence ≤ kMaxSequenceNumber) (junk : ℕ → UInt8) (verify : Bool)
    (u : Bytes) {s : ℕ} (hs : s ≤ kMaxSequenceNumber) :
    FindsNewest entries u s
      (internalGet sn junk verify table (encodeInternalKey u s kValueTypeForSeek)) where
  found := by
    rintro ⟨e', he', hvisible⟩
    have hc := internalKeyComparator_lawful
    have htrans := hc.trans
    have hsorted := ht.layout.sorted
    rw [allEntries, restEntries, Option.map_none, Option.getD_none, List.append_nil,
      List.append_nil, hentries] at hsorted
    obtain ⟨a, hfirst⟩ := exists_first hsorted (List.mem_map_of_mem he')
      ((TableRecord.visible_iff (hseq e' he') hs hvisible.1).mpr hvisible)
    obtain ⟨e, he, rfl⟩ := List.mem_map.mp hfirst.mem
    obtain ⟨hu, hnewest⟩ := TableRecord.newest_of_first hseq hs he' hvisible he hfirst
    refine ⟨e, hnewest, ?_⟩
    rw [← hentries] at hfirst
    refine internalGet_of_first hc ht hK hread hsmall hopened hcmp junk verify hfirst ?_ ?_
    · intro b hb hparts
      refine separator_lt_seek (fun a ha => ?_) hparts hu hfirst
      exact List.mem_flatten.mpr ⟨_, List.mem_map_of_mem hb, ha⟩
    · intro reader hreader b hb heb
      obtain ⟨hoption, hmatch⟩ := hopened.filter reader hreader
      obtain ⟨hq, user, huser⟩ := hpolicy _ hoption
      have hkey : extractUserKey (encodeInternalKey u s kValueTypeForSeek)
          = extractUserKey e.pair.1 := by
        rw [extractUserKey_encode, TableRecord.userKey_pair, hu]
      rw [keyMayMatch_of_userKey huser hkey]
      exact hmatch hq b hb e.pair heb
  missing := by
    intro hnone
    obtain ⟨saved, hget, hsaved⟩ :=
      internalGet_cases internalKeyComparator_lawful ht hK hread hsmall
      hopened hcmp junk verify (encodeInternalKey u s kValueTypeForSeek)
    refine ⟨saved, hget, hsaved.imp_right ?_⟩
    rintro ⟨a, ha, rfl, hge⟩
    rw [hentries] at ha
    obtain ⟨e, he, rfl⟩ := List.mem_map.mp ha
    refine ⟨e, he, rfl, fun hu => hnone ⟨e, he, ?_⟩⟩
    exact (TableRecord.visible_iff (hseq e he) hs hu).mp hge

open TableBuilder in
/-- No assertion fails, `Finish` succeeds, and the table can be opened and finds what it has to. -/
def LooksUp (sn : Snappy) (r : TableBuilder) (options : Options) (calls : List Call)
    (entries : List TableRecord) : Prop :=
  ∃ r', r.build sn calls = .ok r' ∧ r'.status = .success ∧
    ∀ f : RandomAccessFile, f.contents = r'.file.contents → f.Readable → ∀ junk : ℕ → UInt8,
      ∃ table, openTable sn junk options f r'.fileSize = some (.success, some table) ∧
        ∀ verify u s, s ≤ kMaxSequenceNumber → FindsNewest entries u s
          (internalGet sn junk verify table (encodeInternalKey u s kValueTypeForSeek))

open TableBuilder in
/-- **Snapshot lookups in tables** with blocks below `2 ^ 32` bytes. -/
theorem internalGet_build {r : TableBuilder} {file : WritableFile} {calls : List Call}
    (hnew : TableBuilder.new options file = some r)
    (hcmp : options.comparator = internalKeyComparator bytewiseComparator)
    (hcomp : options.compression = .kNoCompression)
    (hpolicy : ∀ p, options.filterPolicy = some p →
      ∃ user : FilterPolicy, user.NoFalseNegatives ∧ p = internalFilterPolicy user)
    (hempty : file.contents = []) (hsound : file.Sound) (hcalls : ∀ c ∈ calls, c.Steady)
    (hadded : added calls = entries.map TableRecord.pair)
    (hseq : ∀ e ∈ entries, e.key.sequence ≤ kMaxSequenceNumber)
    (hsorted : (added calls).Pairwise
      fun a b => (internalKeyComparator bytewiseComparator).compare a.1 b.1 = .lt)
    (hsmall : (outcome (r.build sn calls)).file.contents.length < 2 ^ 63)
    (hblocks : BlocksFit sn r calls) : LooksUp sn r options calls entries := by
  have hinterval := interval_of_new hnew
  obtain ⟨q, hq⟩ := exists_policy options.filterPolicy
  have hfinal := finalOptions_of_steady hcalls options
  obtain ⟨r₁, hnew₁, hopt, hcounter⟩ := exists_new options file hinterval
  obtain rfl : r₁ = r := Option.some.inj (hnew₁.symm.trans hnew)
  have hcounters := countersFit_of_steady sn hcalls (by rw [hopt]; exact hinterval)
    (show r₁.dataBlock.counter ≤ _ by rw [hcounter]; exact Nat.zero_le _)
  have hpolicy' : PolicyFits options calls := by
    intro p hp
    obtain ⟨user, huser, rfl⟩ := hpolicy p hp
    exact ⟨_, by rw [hfinal]; exact hp,
      FilterPolicy.readBy_self (internalFilterPolicy_noFalseNegatives huser)⟩
  have hkeys : ∀ a ∈ added calls, 8 ≤ a.1.length := by
    intro a ha
    rw [hadded] at ha
    obtain ⟨e, -, rfl⟩ := List.mem_map.mp ha
    rw [TableRecord.pair, length_encodeInternalKey]
    exact Nat.le_add_left 8 _
  obtain ⟨r', blocks, hbuild, hstatus, hoffset, -, htable, hentries, -, hsizes⟩ :=
    build_of_new (K := (· = .kNoCompression)) hnew (hcmp ▸ internalKeyComparator_lawful) hinterval
      hcomp hempty hsound (fun same o hmem => (hcalls _ hmem).elim) hcounters hpolicy'
      (by rw [hfinal]; exact hq) hkeys (hcmp ▸ hsorted) hsmall
  refine ⟨r', hbuild, hstatus, fun f hf hreadable junk => ?_⟩
  have hK : Uncompressed sn (· = .kNoCompression) := uncompressed_kNoCompression sn
  have hsmallTable := hsizes hblocks
  rw [← hf] at hsmallTable
  rw [← hf, hcmp] at htable
  obtain ⟨table, hopen, hopened⟩ :=
    openTable_of_tableFile htable hK hreadable hsmallTable junk options
  refine ⟨table, ?_, fun verify u s hs => ?_⟩
  · rw [fileSize, hoffset, ← hf]
    exact hopen
  · refine findsNewest_of_tableFile htable hK hreadable hsmallTable hopened hcmp (fun p hp => ?_)
      (hentries.trans hadded) hseq junk verify u hs
    obtain ⟨user, -, huser⟩ := hpolicy p hp
    exact ⟨hq p hp, user, huser⟩

open TableBuilder in
/-- Two versions of a user key, in two blocks. -/
theorem internalGet_two_versions :
    let options : Options := ⟨internalKeyComparator bytewiseComparator, false, 4096, 16,
      .kNoCompression, some (internalFilterPolicy acceptAll)⟩
    let entries : List TableRecord :=
      [⟨⟨[107], 2, .kTypeDeletion⟩, []⟩, ⟨⟨[107], 1, .kTypeValue⟩, [1]⟩]
    let calls : List Call := [.add (encodeInternalKey [107] 2 .kTypeDeletion) [], .flush,
      .add (encodeInternalKey [107] 1 .kTypeValue) [1]]
    ∃ r, TableBuilder.new options .fresh = some r ∧ LooksUp .absent r options calls entries := by
  intro options entries calls
  obtain ⟨r, hnew, -, -⟩ := exists_new options .fresh (by decide)
  refine ⟨r, hnew, internalGet_build hnew rfl rfl ?_ rfl (fun _ => rfl) ?_ rfl ?_ ?_ ?_ ?_⟩
  · rintro _ ⟨⟩
    exact ⟨acceptAll, acceptAll_noFalseNegatives, rfl⟩
  · simp [calls, Call.Steady]
  · decide +kernel
  · decide +kernel
  · rw [← Option.some.inj hnew]
    decide +kernel
  · rw [← Option.some.inj hnew]
    decide +kernel

/-! ### A value that is too long

Lengths in blocks and the offsets of restart points have 32 bits. A value of `2 ^ 32` bytes is
written with the length zero, and the block is so long that its reader looks for the restart points
in the value. With zeros there, the block looks like one whose only value is empty. -/

section

open TableBuilder Block

/-- Options under which each entry is a block. -/
def bigOptions : Options :=
  ⟨internalKeyComparator bytewiseComparator, false, 0, 16, .kNoCompression, none⟩

/-- The first internal key of the empty user key. -/
def bigKey : Bytes := [1, 0, 0, 0, 0, 0, 0, 0]

/-- The data block for the key and a value that starts with four zeros. A length of `2 ^ 32` has
become a zero, and the restart point that the block ends with is not where its reader will look for
it. -/
def bigBlock (w : Bytes) : Bytes :=
  [0, 8, 0, 1, 0, 0, 0, 0, 0, 0, 0, 0, 0, 0, 0] ++ (w ++ [0, 0, 0, 0, 1, 0, 0, 0])

theorem length_bigBlock {w : Bytes} (hw : w.length = 2 ^ 32 - 4) :
    (bigBlock w).length = 4294967315 := by
  simp [bigBlock, hw]

/-- The block before it is finished. -/
def bigBuilder (w : Bytes) : BlockBuilder :=
  ⟨[0, 8, 0, 1, 0, 0, 0, 0, 0, 0, 0, 0, 0, 0, 0] ++ w, [0], 1, false, bigKey⟩

theorem addWith_big {w : Bytes} (hw : w.length = 2 ^ 32 - 4) :
    BlockBuilder.reset.addWith bigOptions bigKey (0 :: 0 :: 0 :: 0 :: w) = some (bigBuilder w) := by
  have hlen : (0 :: 0 :: 0 :: 0 :: w : Bytes).length = 2 ^ 32 := by simp [hw]
  rw [BlockBuilder.addWith, BlockBuilder.add, hlen]
  rfl

theorem finish_bigBuilder (w : Bytes) : (bigBuilder w).finish.1 = bigBlock w := by
  have htrailer : BlockBuilder.trailer [0] = [0, 0, 0, 0, 1, 0, 0, 0] := by decide
  rw [BlockBuilder.finish, bigBuilder, bigBlock, htrailer, List.append_assoc]

/-- The index block, in which the handle says `2 ^ 32 + 19` bytes. -/
def bigIndex : Bytes :=
  [0, 8, 6, 1, 0, 0, 0, 0, 0, 0, 0, 0, 147, 128, 128, 128, 16, 0, 0, 0, 0, 1, 0, 0, 0]

theorem length_bigFile_lt {w : Bytes} (hw : w.length = 2 ^ 32 - 4) :
    (singleFile (bigBlock w) bigIndex).length < 2 ^ 63 := by
  refine length_singleFile_lt ?_
  rw [length_bigBlock hw, bigIndex]
  decide

/-- The file of a run with the one call of `Add`. -/
theorem build_big (sn : Snappy) {w : Bytes} (hw : w.length = 2 ^ 32 - 4) :
    ∃ r', (initial bigOptions .fresh none).build sn [.add bigKey (0 :: 0 :: 0 :: 0 :: w)] = .ok r' ∧
      r'.file.contents = singleFile (bigBlock w) bigIndex ∧
      r'.fileSize = (singleFile (bigBlock w) bigIndex).length := by
  have hplain : Plain bigOptions := ⟨rfl, rfl, by decide⟩
  have hhandle : BlockHandle.encoding ⟨0, 4294967315⟩ = [0, 147, 128, 128, 128, 16] := by
    decide +kernel
  have hindex : BlockBuilder.reset.addWith { bigOptions with blockRestartInterval := 1 } bigKey
      (BlockHandle.encoding ⟨0, (bigBuilder w).finish.1.length⟩)
      = some ⟨[0, 8, 6, 1, 0, 0, 0, 0, 0, 0, 0, 0, 147, 128, 128, 128, 16], [0], 1, false,
        bigKey⟩ := by
    rw [finish_bigBuilder, length_bigBlock hw, hhandle]
    rfl
  have hfinish :
    (⟨[0, 8, 6, 1, 0, 0, 0, 0, 0, 0, 0, 0, 147, 128, 128, 128, 16], [0], 1, false, bigKey⟩
      : BlockBuilder).finish.1 = bigIndex := by decide +kernel
  have hbuild := build_single sn hplain (addWith_big hw) rfl (by decide +kernel) hindex
  rw [finish_bigBuilder, hfinish] at hbuild
  exact hbuild (length_bigFile_lt hw)

theorem seek_bigBlock {w : Bytes} (hw : w.length = 2 ^ 32 - 4) (target : Bytes)
    (hcmp : InternalKeyComparator.compare bytewiseComparator bigKey target ≠ .lt) :
    ∃ it, (Block.newIterator (.new (bigBlock w))).step
        (internalKeyComparator bytewiseComparator).compare decodeEntry (.seek target) = some it ∧
      it.status = .success ∧ it.entry = some (bigKey, []) := by
  have hlen := length_bigBlock hw
  have hnum : numRestarts (bigBlock w) = 1 := by
    have hsplit : bigBlock w
        = ([0, 8, 0, 1, 0, 0, 0, 0, 0, 0, 0, 0, 0, 0, 0] ++ w ++ [0, 0, 0, 0]) ++ [1, 0, 0, 0] := by
      simp [bigBlock]
    have hdrop : (bigBlock w).drop ((bigBlock w).length - 4) = [1, 0, 0, 0] := by
      rw [hlen, hsplit, List.drop_left']
      simp [hw]
    rw [numRestarts, hdrop]
    rfl
  have hblock : Block.new (bigBlock w) = ⟨bigBlock w, 4294967315, 11⟩ := by
    rw [Block.new, hnum, hlen]
    norm_num
  have hpoint : Region.getRestartPoint ⟨bigBlock w, 11, 1⟩ 0 = some 0 := by
    simp [Region.getRestartPoint, Region.read, bigBlock]
    decide
  have hdecode : decodeEntry (bigBlock w) 11 0 = some ⟨0, 8, 0, 3⟩ := by
    have htake : (bigBlock w).take 11 = [0, 8, 0, 1, 0, 0, 0, 0, 0, 0, 0] := rfl
    rw [decodeEntry, htake]
    decide
  have hread : Region.read ⟨bigBlock w, 11, 1⟩ 3 8 = some bigKey := by
    simp [Region.read, bigBlock, bigKey]
  have hparse : Iter.parseNextKey decodeEntry ⟨bigBlock w, 11, 1⟩
      ⟨11, 0, [], some ⟨0, 0⟩, .success⟩
        = some (true, ⟨0, 0, bigKey, some ⟨11, 0⟩, .success⟩) := by
    simp [Iter.parseNextKey, Iter.nextEntryOffset, hdecode, hread, Region.skipRestarts,
      Block.Entry.valuePtr]
  refine ⟨.entries ⟨bigBlock w, 11, 1⟩ ⟨0, 0, bigKey, some ⟨11, 0⟩, .success⟩, ?_, rfl, ?_⟩
  · have hnew : Block.newIterator ⟨bigBlock w, 4294967315, 11⟩
        = .entries ⟨bigBlock w, 11, 1⟩ (.new ⟨bigBlock w, 11, 1⟩) := by
      simp [Block.newIterator, hnum]
    rw [hblock, hnew, compare_internalKeyComparator]
    simp [AnyIter.step, Block.Iter.step, Iter.seek, Iter.bisect, Iter.seekToRestartPoint, Iter.new,
      hpoint, Iter.parseUpTo, hparse, hcmp]
  · simp [AnyIter.entry, Iter.Valid]

theorem internalGet_big (sn : Snappy) (junk : ℕ → UInt8) (verify : Bool) {w : Bytes}
    (hw : w.length = 2 ^ 32 - 4) :
    internalGet sn junk verify (single bigOptions (bigBlock w) bigIndex) bigKey
      = some (.success, [(bigKey, [])]) := by
  have hindex : ((Block.new bigIndex).newIterator.step
      (internalKeyComparator bytewiseComparator).compare decodeEntry (.seek bigKey)).map
        (fun it => (it.status, it.entry))
      = some (.success, some (bigKey, [0, 147, 128, 128, 128, 16])) := by
    decide +kernel
  obtain ⟨iiter, hiiter, hpair⟩ := Option.map_eq_some_iff.mp hindex
  obtain ⟨hstatus, hentry⟩ := Prod.mk.inj hpair
  have hdecode : BlockHandle.decodeFrom [0, 147, 128, 128, 128, 16]
      = .ok (⟨0, (bigBlock w).length⟩, []) := by
    rw [length_bigBlock hw]
    decide +kernel
  obtain ⟨c, hc, hdata⟩ := readBlock_single_data sn junk (length_bigFile_lt hw) verify
  obtain ⟨it, hit, hitstatus, hitentry⟩ := seek_bigBlock hw bigKey (by decide +kernel)
  have hreader : blockReader sn junk verify (single bigOptions (bigBlock w) bigIndex)
      [0, 147, 128, 128, 128, 16] = some (Block.newIterator (.new (bigBlock w))) := by
    rw [blockReader, hdecode]
    simp only [single, hc, hdata, Option.bind_eq_bind, Option.bind_some, Status.ok_success, if_true]
  rw [internalGet]
  change (do
    let iiter ← (Block.new bigIndex).newIterator.step
      (internalKeyComparator bytewiseComparator).compare decodeEntry (.seek bigKey)
    _) = _
  rw [hiiter]
  simp only [Option.bind_eq_bind, Option.bind_some, hentry, filterExcludes, hreader, hstatus]
  change (do
    let blockIter ← (Block.newIterator (.new (bigBlock w))).step
      (internalKeyComparator bytewiseComparator).compare decodeEntry (.seek bigKey)
    _) = _
  rw [hit]
  simp [hitstatus, hitentry]

/-- No such table gives the value back. -/
theorem not_looksUp_big {w : Bytes} (hw : w.length = 2 ^ 32 - 4) :
    ¬ LooksUp .absent (initial bigOptions .fresh none) bigOptions
      [.add bigKey (0 :: 0 :: 0 :: 0 :: w)] [⟨⟨[], 0, .kTypeValue⟩, 0 :: 0 :: 0 :: 0 :: w⟩] := by
  rintro ⟨r', hbuild, -, hlookup⟩
  obtain ⟨r, hrun, hfile, hsize⟩ := build_big .absent hw
  obtain rfl := Except.ok.inj (hrun.symm.trans hbuild)
  have hsmall := length_bigFile_lt hw
  obtain ⟨table, hopen, hfinds⟩ := hlookup (.mmap "t" (singleFile (bigBlock w) bigIndex)) hfile.symm
    (readable_singleFile hsmall) fun _ => 0
  rw [hsize, openTable_single .absent _ rfl hsmall] at hopen
  obtain rfl := Option.some.inj (Prod.mk.inj (Option.some.inj hopen)).2
  obtain ⟨e, hnewest, hget⟩ := (hfinds false [] 0 (Nat.zero_le _)).found
    ⟨_, List.mem_singleton_self _, rfl, Nat.le_refl 0⟩
  have hkey : encodeInternalKey [] 0 kValueTypeForSeek = bigKey := by decide +kernel
  rw [hkey, internalGet_big .absent _ _ hw] at hget
  obtain rfl := List.mem_singleton.mp hnewest.mem
  have hpair := List.singleton_inj.mp (Prod.mk.inj (Option.some.inj hget)).2
  cases (Prod.mk.inj hpair).2

theorem replicate_add_four (n : ℕ) :
    (List.replicate (n + 4) 0 : Bytes) = 0 :: 0 :: 0 :: 0 :: List.replicate n 0 := rfl

/-- **A value of four gigabytes is lost**: the lookup of its key calls `saver` with an empty one. -/
theorem not_internalGet_build :
    ∃ r, TableBuilder.new bigOptions .fresh = some r ∧
      ¬ LooksUp .absent r bigOptions
        [.add (encodeInternalKey [] 0 .kTypeValue) (List.replicate (2 ^ 32) 0)]
        [⟨⟨[], 0, .kTypeValue⟩, List.replicate (2 ^ 32) 0⟩] := by
  have hkey : encodeInternalKey [] 0 .kTypeValue = bigKey := by decide +kernel
  have hvalue := replicate_add_four (2 ^ 32 - 4)
  rw [Nat.sub_add_cancel (by norm_num)] at hvalue
  refine ⟨initial bigOptions .fresh none, rfl, ?_⟩
  rw [hkey, hvalue]
  exact not_looksUp_big List.length_replicate

end

end Table

end Squirrel
