import Squirrel.Lib.Simulation
import Squirrel.Table.TableInvariant

/-!
# Finished tables

What `Finish` leaves in the file (`TableFile`): data blocks, perhaps a filter block, the metaindex
that says where it is, the index of the data blocks, and a footer. A run of the builder is a list of
calls with a `Finish` at the end.

Lengths and offsets in a block are 32-bit numbers, so each block has to be below `2 ^ 32` bytes to
be read (`SmallTable`). The file as a whole does not.

## Main results

* `TableBuilder.Ready.finish` — `Finish`, in any state that a run can reach
* `TableBuilder.Ready.build` — whole runs
* `TableFile.small` — a file below `2 ^ 32` bytes only has such blocks
-/

namespace Squirrel

open Coding

/-- The filter block: it has all keys, and no others. -/
def FilterStored (q : FilterPolicy) (file : Bytes) (blocks : List DataBlock) (h : BlockHandle) :
    Prop :=
  ∃ fb filters, Stored file h (FilterBlockBuilder.finish fb) .kNoCompression ∧
    fb.policy.ReadBy q ∧ fb.Built q filters ∧
    (∀ b ∈ blocks, ∀ a ∈ b.entries, fb.InFilter filters b.handle.offset a.1) ∧
    ∀ i, (fb.keysOf filters i).length ≤ entriesIn (blocks.map DataBlock.placed) i

/-- The entries of the metaindex block. -/
def TableBuilder.metaEntries (q : FilterPolicy) : Option BlockHandle → List (Bytes × Bytes)
  | none => []
  | some h => [(filterPrefix ++ q.name, h.encoding)]

/-- What is behind the data blocks. There may be a filter block. -/
structure Sections (sn : Snappy) (K : CompressionType → Prop) (q : FilterPolicy) (file : Bytes)
    (blocks : List DataBlock) (footer : Footer) (filter : Option BlockHandle) : Prop where
  ends : ∃ front, file = front ++ Footer.encoding footer
  index : BlockStored sn K file footer.indexHandle (blocks.map DataBlock.indexEntry)
  metaindex : BlockStored sn K file footer.metaindexHandle (TableBuilder.metaEntries q filter)
  filter_stored : ∀ h, filter = some h → FilterStored q file blocks h

/-- **A finished table.** -/
structure TableFile (sn : Snappy) (K : CompressionType → Prop) (c : Comparator) (P : Bytes → Prop)
    (q : FilterPolicy) (file : Bytes) (blocks : List DataBlock) : Prop where
  layout : Layout c P blocks none []
  contiguous : ∃ stop, Contiguous 0 (blocks.map DataBlock.handle) stop
  stored : ∀ b ∈ blocks, BlockStored sn K file b.handle b.entries
  sections : ∃ footer filter, Sections sn K q file blocks footer filter

/-- A table whose blocks are all below `2 ^ 32` bytes. -/
structure SmallTable (sn : Snappy) (K : CompressionType → Prop) (q : FilterPolicy) (file : Bytes)
    (blocks : List DataBlock) : Prop where
  file_lt : file.length < 2 ^ 63
  data_lt : ∀ b ∈ blocks, b.handle.size < 2 ^ 32
  sections : ∃ footer filter, Sections sn K q file blocks footer filter ∧
    footer.indexHandle.size < 2 ^ 32 ∧ footer.metaindexHandle.size < 2 ^ 32 ∧
    ∀ h, filter = some h → h.size < 2 ^ 32

/-- The footer at the end of a file. -/
theorem decodeFrom_footer {contents front : Bytes} {footer : Footer}
    (hfile : contents = front ++ footer.encoding) (hmeta : footer.metaindexHandle.Set)
    (hindex : footer.indexHandle.Set) :
    Footer.decodeFrom (contents.drop (contents.length - Footer.kEncodedLength))
      = some (.ok footer) := by
  have hlen := Footer.length_encoding hmeta hindex
  rw [hfile, List.length_append, hlen, Nat.add_sub_cancel, List.drop_left]
  exact Footer.decodeFrom_encodeTo hmeta hindex

section

variable {sn : Snappy} {K : CompressionType → Prop} {q : FilterPolicy} {file : Bytes}
  {h : BlockHandle} {entries : List (Bytes × Bytes)}

theorem BlockStored.size_lt (hs : BlockStored sn K file h entries) : h.size < file.length := by
  obtain ⟨b, compression, -, -, hs⟩ := hs
  have := hs.lt.1
  omega

/-- **In a file below `2 ^ 32` bytes, each block is below `2 ^ 32` bytes.** -/
theorem TableFile.small {c : Comparator} {P : Bytes → Prop} {blocks : List DataBlock}
    (ht : TableFile sn K c P q file blocks) (hlt : file.length < 2 ^ 32) :
    SmallTable sn K q file blocks := by
  obtain ⟨footer, filter, hsections⟩ := ht.sections
  refine ⟨hlt.trans (by norm_num), fun b hb => (ht.stored b hb).size_lt.trans hlt, footer, filter,
    hsections, hsections.index.size_lt.trans hlt, hsections.metaindex.size_lt.trans hlt,
    fun h hh => ?_⟩
  obtain ⟨fb, filters, hstored, -⟩ := hsections.filter_stored h hh
  have := hstored.lt.1
  omega

end

/-- The metaindex block is behind the data blocks. -/
def MetaindexBehind (file : Bytes) (blocks : List DataBlock) : Prop :=
  ∃ front footer, file = front ++ Footer.encoding footer ∧ footer.metaindexHandle.Set ∧
    footer.indexHandle.Set ∧ footer.metaindexHandle.offset < file.length ∧
    ∀ b ∈ blocks, b.handle.offset < footer.metaindexHandle.offset

namespace TableBuilder

variable {sn : Snappy} {K : CompressionType → Prop} {c : Comparator} {P : Bytes → Prop}
  {q : FilterPolicy} {r : TableBuilder} {blocks : List DataBlock}
    {pending : Option (BlockHandle × List (Bytes × Bytes))}
  {current : List (Bytes × Bytes)}

/-! ### The steps of `Finish` -/

/-- What the steps of `Finish` leave alone. -/
structure Extends (r r' : TableBuilder) : Prop where
  file_eq : ∃ more, r'.file.contents = r.file.contents ++ more
  options_eq : r'.options = r.options
  filterBlock_eq : r'.filterBlock = r.filterBlock
  lastKey_eq : r'.lastKey = r.lastKey

theorem Indexed.writeRawBlock (hb : Indexed sn K c P r blocks pending current) (contents : Bytes)
    (type : CompressionType)
    (hsmall : (r.writeRawBlock contents type).1.file.contents.length < 2 ^ 63) :
    Indexed sn K c P (r.writeRawBlock contents type).1 blocks pending current ∧
      Extends r (r.writeRawBlock contents type).1 ∧
      Stored (r.writeRawBlock contents type).1.file.contents (r.writeRawBlock contents type).2
        contents type := by
  rw [writeRawBlock_of_sound hb.sound] at hsmall ⊢
  have hlength : (r.file.contents ++ storedBlock contents type).length
      = r.file.contents.length + (contents.length + 5) := by
    rw [List.length_append, length_storedBlock]
  refine ⟨{ hb with
    status_eq := rfl
    sound := hb.sound
    offset_eq := ?_
    small := hsmall
    stored := fun w hw => (hb.stored w hw).append _ }, ⟨⟨_, rfl⟩, rfl, rfl, rfl⟩, ?_⟩
  · dsimp only at hsmall ⊢
    rw [hlength, hb.offset_eq, Nat.mod_eq_of_lt (by omega)]
  · dsimp only
    rw [hb.offset_eq]
    exact stored_append_block _ _ _

/-- A block that holds some entries is appended. -/
theorem Indexed.writeBlock (hb : Indexed sn K c P r blocks pending current) {block : BlockBuilder}
    {entries : List (Bytes × Bytes)} (hholds : block.Holds entries) :
    ∃ r' h, r.writeBlock sn block = .ok (r', h) ∧ h.offset = r.offset ∧
      (r'.file.contents.length < 2 ^ 63 → Indexed sn K c P r' blocks pending current ∧
        Extends r r' ∧ BlockStored sn K r'.file.contents h entries) := by
  refine ⟨_, _, writeBlock_of_ok hb.status_eq block,
    congrArg (fun p => p.2.offset) (writeRawBlock_of_sound hb.sound _ _), fun hsmall => ?_⟩
  obtain ⟨hb', hext, hstored⟩ := hb.writeRawBlock _ _ hsmall
  exact ⟨hb', hext, block, r.options.compression, hholds, hb.allowed, hstored⟩

/-- The metaindex block can be built if the policy in the options is there. -/
theorem Indexed.metaIndexBlock (hb : Indexed sn K c P r blocks pending current) {h : BlockHandle}
    (hfilter : r.filterBlock ≠ none →
      r.options.filterPolicy.map FilterPolicy.name = some q.name ∧ h.Set) :
    ∃ block, r.metaIndexBlock h = some block ∧
      block.Holds (metaEntries q (r.filterBlock.map fun _ => h)) := by
  have hnew : BlockBuilder.new r.options.blockRestartInterval = some .reset :=
    if_pos hb.interval_pos
  rw [TableBuilder.metaIndexBlock, hnew]
  cases hfb : r.filterBlock with
  | none => exact ⟨.reset, rfl, BlockBuilder.holds_reset⟩
  | some fb =>
    obtain ⟨hpolicy, hset⟩ := hfilter (by rw [hfb]; exact by simp)
    obtain ⟨p, hp, hname⟩ := Option.map_eq_some_iff.mp hpolicy
    obtain ⟨block, hadd, hholds, -⟩ := BlockBuilder.holds_reset.add r.options.comparator.compare
      (filterPrefix ++ q.name) h.encoding hb.interval_pos (Nat.zero_le _)
      fun a ha => by cases ha
    refine ⟨block, ?_, hholds⟩
    simp only [hp, hname, BlockHandle.encodeTo_of_set hset, Option.bind_eq_bind, Option.bind_some,
      List.nil_append, BlockBuilder.addWith, hadd]

/-- The last block gets its index entry. -/
theorem Indexed.addLast (hc : c.Lawful P) (hb : Indexed sn K c P r blocks pending [])
    (hlast : ∀ a, (allEntries blocks pending []).getLast? = some a → r.lastKey = a.1) :
    ∃ r' blocks', r.addLast = .ok r' ∧ Indexed sn K c P r' blocks' none [] ∧ r'.file = r.file ∧
      r'.options = r.options ∧ r'.filterBlock = r.filterBlock ∧
      placedBlocks blocks' none = placedBlocks blocks pending := by
  have htrans := hc.trans
  rw [TableBuilder.addLast, hb.pending_eq]
  cases pending with
  | none => exact ⟨r, blocks, rfl, hb, rfl, rfl, rfl, rfl⟩
  | some w =>
    obtain ⟨h, es⟩ := w
    obtain ⟨x, -, hx, -, hPx, hle⟩ := hb.layout.pending_last hc
    obtain ⟨succ, hsucc, hge⟩ := hc.successor hPx
    have hsep : ∀ a ∈ es, c.compare a.1 succ ≠ .gt := by
      intro a ha
      exact Ordering.isLE_iff_ne_gt.mp (Std.TransCmp.isLE_trans
        (Ordering.isLE_iff_ne_gt.mpr (hle a ha)) (Ordering.isLE_iff_ne_gt.mpr hge))
    obtain ⟨indexBlock, hadd, hindexed⟩ := hb.addIndexEntry hc hsep
    refine ⟨_, _, ?_, hindexed, rfl, rfl, rfl, placedBlocks_close _ _ _ _⟩
    rw [hb.comparator_eq, hlast x hx, hsucc]
    exact hadd

theorem writeFilter_of_none (hfb : r.filterBlock = none) : r.writeFilter = (r, .new) := by
  rw [writeFilter, hfb]
  cases r.status.ok <;> rfl

theorem writeFilter_of_some {fb : FilterBlockBuilder} (hok : r.status = .success)
    (hfb : r.filterBlock = some fb) :
    r.writeFilter = r.writeRawBlock fb.finish .kNoCompression := by
  rw [writeFilter, hok, hfb]
  rfl

/-- The filter block is written, if there is one. -/
theorem Indexed.writeFilter (hb : Indexed sn K c P r blocks pending current)
    (hsmall : r.writeFilter.1.file.contents.length < 2 ^ 63) :
    Indexed sn K c P r.writeFilter.1 blocks pending current ∧ Extends r r.writeFilter.1 ∧
      ∀ fb, r.filterBlock = some fb → Stored r.writeFilter.1.file.contents r.writeFilter.2 fb.finish
        .kNoCompression := by
  cases hfb : r.filterBlock with
  | none =>
    rw [writeFilter_of_none hfb]
    exact ⟨hb, ⟨⟨[], (List.append_nil _).symm⟩, rfl, rfl, rfl⟩, by simp⟩
  | some fb =>
    rw [writeFilter_of_some hb.status_eq hfb] at hsmall ⊢
    obtain ⟨hb', hext, hstored⟩ := hb.writeRawBlock fb.finish .kNoCompression hsmall
    refine ⟨hb', hext, ?_⟩
    rintro _ ⟨⟩
    exact hstored

/-- The index is written. -/
theorem Indexed.writeIndex (hc : c.Lawful P) (hb : Indexed sn K c P r blocks pending [])
    (hlast : ∀ a, (allEntries blocks pending []).getLast? = some a → r.lastKey = a.1) :
    ∃ r' blocks' h, r.writeIndex sn = .ok (r', h) ∧ Layout c P blocks' none [] ∧
      placedBlocks blocks' none = placedBlocks blocks pending ∧
      (r'.file.contents.length < 2 ^ 63 →
        r'.status = .success ∧ r'.file.Sound ∧ r'.offset = r'.file.contents.length ∧
        r'.options = r.options ∧ (∃ more, r'.file.contents = r.file.contents ++ more) ∧
        BlockStored sn K r'.file.contents h (blocks'.map DataBlock.indexEntry)) := by
  obtain ⟨r₁, blocks', hadd, hb₁, hfile, hopt, -, hplaced⟩ := hb.addLast hc hlast
  obtain ⟨r₂, h, hwrite, -, hrest⟩ := hb₁.writeBlock hb₁.index_eq
  refine ⟨{ r₂ with indexBlock := .reset }, blocks', h, ?_, hb₁.layout, hplaced, fun hsmall => ?_⟩
  · rw [TableBuilder.writeIndex, hb.status_eq, if_pos Status.ok_success, hadd]
    simp only [bind, Except.bind, hwrite]
  · obtain ⟨hb₂, hext, hstored⟩ := hrest hsmall
    refine ⟨hb₂.status_eq, hb₂.sound, hb₂.offset_eq, hext.options_eq.trans hopt, ?_, hstored⟩
    rw [← hfile]
    exact hext.file_eq

/-- The footer is written. -/
theorem writeFooter_of_sound (hok : r.status = .success) (hf : r.file.Sound) {hm hi : BlockHandle}
    (hmeta : hm.Set) (hindex : hi.Set) :
    ∃ r', r.writeFooter hm hi = .ok r' ∧ r'.status = .success ∧ r'.options = r.options ∧
      r'.file.contents = r.file.contents ++ Footer.encoding ⟨hm, hi⟩ ∧
      r'.offset = (r.offset + (Footer.encoding ⟨hm, hi⟩).length) % 2 ^ 64 := by
  have hencode : Footer.encodeTo ⟨hm, hi⟩ [] = some (Footer.encoding ⟨hm, hi⟩) :=
    Footer.encodeTo_nil hmeta hindex
  rw [writeFooter, hok, if_pos Status.ok_success, hencode]
  simp only [orAbort, bind, Except.bind, WritableFile.append_of_sound hf, Status.ok_success,
    if_true]
  exact ⟨_, rfl, rfl, rfl, rfl, rfl⟩

/-- The blocks of a table with their entries, from where they are. -/
theorem entries_of_placed {blocks' : List DataBlock}
    (h : placedBlocks blocks' none = placedBlocks blocks pending) :
    (blocks'.map DataBlock.entries).flatten = allEntries blocks pending [] := by
  have hmap := congrArg (fun l => (l.map Prod.snd).flatten) h
  cases pending with
  | none =>
    simpa [placedBlocks, allEntries, restEntries, DataBlock.placed, Function.comp_def] using hmap
  | some w =>
    simpa [placedBlocks, allEntries, restEntries, DataBlock.placed, Function.comp_def] using hmap

theorem placed_mem {blocks' : List DataBlock}
    (h : placedBlocks blocks' none = placedBlocks blocks pending) {b : DataBlock}
    (hb : b ∈ blocks') :
    b.placed ∈ placedBlocks blocks pending :=
  h ▸ List.mem_append_left _ (List.mem_map_of_mem hb)

/-- The filter block that is left when all entries are in blocks has all their keys. -/
theorem Building.filterStored (hb : Building sn K c P q r blocks pending [])
    {fb : FilterBlockBuilder} (hfb : r.filterBlock = some fb) {blocks' : List DataBlock}
    (hplaced : placedBlocks blocks' none = placedBlocks blocks pending) {file : Bytes}
    {h : BlockHandle} (hstored : Stored file h fb.finish .kNoCompression) :
    FilterStored q file blocks' h := by
  obtain ⟨hread, filters, hbuilt, -, hin, -, hcount⟩ := hb.filtered fb hfb
  refine ⟨fb, filters, hstored, hread, hbuilt, fun b hb a ha => hin _ (placed_mem hplaced hb) a ha,
    fun i => ?_⟩
  have hi := hcount i
  have hplaced' : blocks'.map DataBlock.placed = placedBlocks blocks pending := by
    rw [← hplaced, placedBlocks, Option.toList_none, List.append_nil]
  rw [hplaced']
  rwa [entriesIn_append, entriesIn_singleton, List.length_nil, ite_self, Nat.add_zero] at hi

/-- The metaindex, the index and the footer. -/
theorem Indexed.writeTail (hc : c.Lawful P) (hb : Indexed sn K c P r blocks pending [])
    (hlast : ∀ a, (allEntries blocks pending []).getLast? = some a → r.lastKey = a.1)
    {h : BlockHandle} (hfilter : r.filterBlock ≠ none →
      r.options.filterPolicy.map FilterPolicy.name = some q.name ∧ h.Set)
    (hsmall : (outcome (do
      let (r, hm) ← r.writeMetaindex sn h
      let (r, hi) ← r.writeIndex sn
      r.writeFooter hm hi)).file.contents.length < 2 ^ 63) :
    ∃ r' blocks' footer, (do
      let (r, hm) ← r.writeMetaindex sn h
      let (r, hi) ← r.writeIndex sn
      r.writeFooter hm hi) = .ok r' ∧ r'.status = .success ∧
      r'.offset = r'.file.contents.length ∧ r'.options = r.options ∧ Layout c P blocks' none [] ∧
      placedBlocks blocks' none = placedBlocks blocks pending ∧
      (∃ more, r'.file.contents = r.file.contents ++ more) ∧
      (∃ front, r'.file.contents = front ++ Footer.encoding footer) ∧
      BlockStored sn K r'.file.contents footer.indexHandle (blocks'.map DataBlock.indexEntry) ∧
      BlockStored sn K r'.file.contents footer.metaindexHandle
        (metaEntries q (r.filterBlock.map fun _ => h)) ∧
      footer.metaindexHandle.offset = r.offset := by
  obtain ⟨block, hblock, hholds⟩ := hb.metaIndexBlock hfilter
  obtain ⟨r₁, hm, hwrite, hoff₁, hrest₁⟩ := hb.writeBlock hholds
  have hmeta : r.writeMetaindex sn h = .ok (r₁, hm) := by
    rw [writeMetaindex, hb.status_eq, if_pos Status.ok_success, hblock]
    exact hwrite
  rw [hmeta] at hsmall ⊢
  have hsmall₁ := Nat.lt_of_le_of_lt (writeIndex_writeFooter_grows sn hm r₁).outcome_ge hsmall
  obtain ⟨hb₁, hext₁, hstored₁⟩ := hrest₁ hsmall₁
  obtain ⟨r₂, blocks', hi, hindex, hlayout, hplaced, hrest⟩ :=
    hb₁.writeIndex hc (hext₁.lastKey_eq ▸ hlast)
  change (outcome (do
    let (r, hi) ← r₁.writeIndex sn
    r.writeFooter hm hi)).file.contents.length < 2 ^ 63 at hsmall
  rw [hindex] at hsmall
  have hsmall₂ := Nat.lt_of_le_of_lt (writeFooter_grows hm hi r₂).outcome_ge hsmall
  obtain ⟨hok, hsound, hoffset, hopt, ⟨more, hmore⟩, hstored₂⟩ := hrest hsmall₂
  have hstored₁' : BlockStored sn K r₂.file.contents hm
      (metaEntries q (r.filterBlock.map fun _ => h)) := by
    rw [hmore]
    exact hstored₁.append more
  obtain ⟨r₃, hfooter, hok₃, hopt₃, hfile₃, hoff₃⟩ :=
    writeFooter_of_sound hok hsound (hstored₁'.set hsmall₂) (hstored₂.set hsmall₂)
  obtain ⟨more₁, hmore₁⟩ := hext₁.file_eq
  change (outcome (r₂.writeFooter hm hi)).file.contents.length < 2 ^ 63 at hsmall
  rw [hfooter] at hsmall
  change r₃.file.contents.length < 2 ^ 63 at hsmall
  refine ⟨r₃, blocks', ⟨hm, hi⟩, ?_, hok₃, ?_, (hopt₃.trans hopt).trans hext₁.options_eq, hlayout,
    hplaced, ⟨more₁ ++ (more ++ Footer.encoding ⟨hm, hi⟩), ?_⟩, ⟨r₂.file.contents, hfile₃⟩, ?_, ?_,
    hoff₁⟩
  · change (do
      let (r, hi) ← r₁.writeIndex sn
      r.writeFooter hm hi) = _
    rw [hindex]
    exact hfooter
  · rw [hfile₃, List.length_append] at hsmall
    rw [hoff₃, hfile₃, List.length_append, hoffset, Nat.mod_eq_of_lt (by omega)]
  · rw [hfile₃, hmore, hmore₁, List.append_assoc, List.append_assoc]
  · rw [hfile₃]
    exact hstored₂.append _
  · rw [hfile₃]
    exact hstored₁'.append _

/-- The index and the metaindex block that the footer of the file is about are below `2 ^ 32`
bytes. -/
def FooterFits (file : Bytes) : Prop :=
  ∀ footer,
    Footer.decodeFrom (file.drop (file.length - Footer.kEncodedLength)) = some (.ok footer) →
    footer.indexHandle.size < 2 ^ 32 ∧ footer.metaindexHandle.size < 2 ^ 32

/-- The blocks that `Finish` writes are below `2 ^ 32` bytes: the last data block, the filter block,
and those that the footer is about. -/
structure FinishFits (sn : Snappy) (r : TableBuilder) : Prop where
  flush : ∀ r₁, r.flush sn = .ok r₁ → r₁.PendingFits ∧
    ∀ fb, r₁.filterBlock = some fb → fb.finish.length < 2 ^ 32
  footer : ∀ r', r.finish sn = .ok r' → FooterFits r'.file.contents

/-- **`Finish`**, in any state between calls. If there is a filter block, there must be a policy in
the options, with the name of the one that the filters will be read with. -/
theorem Ready.finish (hc : c.Lawful P) (hr : Ready sn K c P q r blocks pending current)
    (hpolicy : r.filterBlock ≠ none → r.options.filterPolicy.map FilterPolicy.name = some q.name)
    (hsmall : (outcome (r.finish sn)).file.contents.length < 2 ^ 63) :
    ∃ r' blocks', r.finish sn = .ok r' ∧ r'.status = .success ∧
      r'.offset = r'.file.contents.length ∧ r'.options = r.options ∧
      TableFile sn K c P q r'.file.contents blocks' ∧
      (blocks'.map DataBlock.entries).flatten = allEntries blocks pending current ∧
      MetaindexBehind r'.file.contents blocks' ∧
      (FinishFits sn r → PlacedFit blocks pending →
        SmallTable sn K q r'.file.contents blocks') := by
  -- the last data block
  have hflush := Nat.lt_of_le_of_lt (outcome_bind_ge fun r₁ => Grows.trans
    (writeFilter_grows { r₁ with closed := true }) (writeMetaindex_writeFooter_grows sn _ _)) hsmall
  obtain ⟨r₁, pending₁, hr₁, hb₁, hrest₁, hopt₁, hlast₁, hnone₁, -⟩ := hr.toBuilding.flush hflush
  have hall₁ : allEntries blocks pending₁ [] = allEntries blocks pending current := by
    rw [allEntries, allEntries, hrest₁]
  have heq : r.finish sn = (do
      let (r, hm) ← (writeFilter { r₁ with closed := true }).1.writeMetaindex sn
        (writeFilter { r₁ with closed := true }).2
      let (r, hi) ← r.writeIndex sn
      r.writeFooter hm hi) := by
    rw [TableBuilder.finish, hr₁]
    rfl
  rw [heq] at hsmall ⊢
  -- the filter block
  have hsmall₂ := Nat.lt_of_le_of_lt (writeMetaindex_writeFooter_grows sn _ _).outcome_ge hsmall
  have hindexed : Indexed sn K c P { r₁ with closed := true } blocks pending₁ [] :=
    { hb₁.toIndexed with }
  obtain ⟨hb₂, hext₂, hstored₂⟩ := hindexed.writeFilter hsmall₂
  generalize hr₂ : writeFilter { r₁ with closed := true } = p at *
  obtain ⟨r₂, h⟩ := p
  have hfb₂ : r₂.filterBlock = r₁.filterBlock := hext₂.filterBlock_eq
  -- the rest
  obtain ⟨r', blocks', footer, hrun, hok, hoffset, hopt, hlayout, hplaced, ⟨more, hmore⟩,
    ⟨front, hfront⟩, hindex, hmeta, hbehind⟩ := hb₂.writeTail hc (q := q) (h := h) (by
      rw [hall₁]
      exact fun a ha => (hext₂.lastKey_eq.trans hlast₁).trans (hr.lastKey_eq a ha)) (by
      intro hne
      rw [hfb₂] at hne
      obtain ⟨fb, hfb⟩ := Option.ne_none_iff_exists'.mp hne
      refine ⟨?_, (hstored₂ fb hfb).set hsmall₂⟩
      rw [hext₂.options_eq]
      have hopt : ({ r₁ with closed := true } : TableBuilder).options = r.options := hopt₁
      rw [hopt]
      exact hpolicy fun hnone => hne (hnone₁.mpr hnone)) hsmall
  have hentries := entries_of_placed hplaced
  have hplaced₁ := fun b hb => placed_mem hplaced (b := b) hb
  have hsmall₃ : r'.file.contents.length < 2 ^ 63 := by
    rw [hrun] at hsmall
    exact hsmall
  have hsections : Sections sn K q r'.file.contents blocks' footer
      (r₁.filterBlock.map fun _ => h) := by
    refine ⟨⟨front, hfront⟩, hindex, by rw [← hfb₂]; exact hmeta, fun h' hh' => ?_⟩
    obtain ⟨fb, hfb, rfl⟩ := Option.map_eq_some_iff.mp hh'
    have hstored := (hstored₂ fb hfb).append more
    rw [← hmore] at hstored
    exact hb₁.filterStored hfb hplaced hstored
  refine ⟨r', blocks', hrun, hok, hoffset, (hopt.trans hext₂.options_eq).trans hopt₁,
    ⟨hlayout, ⟨r₁.offset, ?_⟩, fun b hb => ?_, footer, _, hsections⟩, hentries.trans hall₁, ?_,
    fun hfits hfit => ?_⟩
  · have hcont := hb₁.contiguous
    rw [← hplaced, placedBlocks, Option.toList_none, List.append_nil, List.map_map] at hcont
    exact hcont
  · rw [hmore]
    exact (hb₂.stored _ (hplaced₁ b hb)).append more
  · -- the metaindex block is behind the data blocks
    obtain ⟨more₂, hmore₂⟩ := hext₂.file_eq
    have hlt : footer.metaindexHandle.offset < r'.file.contents.length := by
      obtain ⟨_, _, -, -, hmetaStored⟩ := hmeta
      have hle := hmetaStored.lt.1
      omega
    refine ⟨front, footer, hfront, hmeta.set hsmall₃, hindex.set hsmall₃, hlt, fun b hb => ?_⟩
    have hmem : b.handle ∈ (placedBlocks blocks pending₁).map Prod.fst :=
      List.mem_map.mpr ⟨b.placed, hplaced₁ b hb, rfl⟩
    have hin := (hb₁.contiguous.pairwise.1 _ hmem).2
    have hoff₂ : r₁.offset ≤ footer.metaindexHandle.offset := by
      rw [hbehind]
      show r₁.offset ≤ r₂.offset
      rw [hb₂.offset_eq, hb₁.offset_eq, hmore₂, List.length_append]
      exact Nat.le_add_right _ _
    omega
  · -- the sizes
    obtain ⟨hpending, hfilterFits⟩ := hfits.flush r₁ hr₁
    have hfit₁ : PlacedFit blocks pending₁ := hb₁.placedFit hpending fun b hb =>
      hfit b.placed (List.mem_append_left _ (List.mem_map_of_mem hb))
    obtain ⟨hindexFits, hmetaFits⟩ := hfits.footer r' (heq.trans hrun) footer
      (decodeFrom_footer hfront (hmeta.set hsmall₃) (hindex.set hsmall₃))
    refine ⟨hsmall₃, fun b hb => hfit₁ _ (hplaced₁ b hb), footer, _, hsections, hindexFits,
      hmetaFits, fun h' hh' => ?_⟩
    obtain ⟨fb, hfb, rfl⟩ := Option.map_eq_some_iff.mp hh'
    rw [(hstored₂ fb hfb).lt.2]
    exact hfilterFits fb hfb

/-! ### Runs -/

/-- The options that are in force after some calls. -/
def finalOptions (options : Options) : List Call → Options
  | [] => options
  | .changeOptions true options' :: calls =>
    finalOptions { options' with comparator := options.comparator } calls
  | _ :: calls => finalOptions options calls

/-- At each call of `Add`, the number of entries since the last restart point is one that the
restart interval in force allows. -/
def CountersFit (sn : Snappy) : TableBuilder → List Call → Prop
  | _, [] => True
  | r, c :: calls =>
    (∀ key value, c = .add key value → r.dataBlock.counter ≤ r.options.blockRestartInterval) ∧
      ∀ r', r.call sn c = .ok r' → CountersFit sn r' calls

/-- The blocks that are written are below `2 ^ 32` bytes: the data blocks, each of which waits for
its index entry when its call returns, and those that `Finish` writes. -/
def BlocksFit (sn : Snappy) : TableBuilder → List Call → Prop
  | r, [] => FinishFits sn r
  | r, c :: calls => ∀ r', r.call sn c = .ok r' → r'.PendingFits ∧ BlocksFit sn r' calls

instance (r : TableBuilder) : Decidable r.PendingFits :=
  inferInstanceAs (Decidable (r.pendingIndexEntry = true → r.pendingHandle.size < 2 ^ 32))

instance (file : Bytes) : Decidable (FooterFits file) :=
  decidableForallSomeOk (p := fun footer : Footer =>
    footer.indexHandle.size < 2 ^ 32 ∧ footer.metaindexHandle.size < 2 ^ 32) _

instance (sn : Snappy) (r : TableBuilder) : Decidable (FinishFits sn r) :=
  decidable_of_iff ((∀ r₁, r.flush sn = .ok r₁ → r₁.PendingFits ∧
      ∀ fb, r₁.filterBlock = some fb → fb.finish.length < 2 ^ 32) ∧
    ∀ r', r.finish sn = .ok r' → FooterFits r'.file.contents)
    ⟨fun ⟨hflush, hfooter⟩ => ⟨hflush, hfooter⟩, fun ⟨hflush, hfooter⟩ => ⟨hflush, hfooter⟩⟩

instance decidableBlocksFit (sn : Snappy) :
    (r : TableBuilder) → (calls : List Call) → Decidable (BlocksFit sn r calls)
  | r, [] => inferInstanceAs (Decidable (FinishFits sn r))
  | r, c :: calls =>
    have := fun r' => decidableBlocksFit sn r' calls
    inferInstanceAs
      (Decidable (∀ r', r.call sn c = .ok r' → r'.PendingFits ∧ BlocksFit sn r' calls))

/-- The options that are asked for are such that blocks can be built and stored. -/
def OptionsFit (K : CompressionType → Prop) (calls : List Call) : Prop :=
  ∀ same options, Call.changeOptions same options ∈ calls →
    1 ≤ options.blockRestartInterval ∧ K options.compression

theorem Ready.changeOptions (hr : Ready sn K c P q r blocks pending current) (same : Bool)
    {options : Options} (hinterval : 1 ≤ options.blockRestartInterval)
    (hK : K options.compression) :
    Ready sn K c P q (r.changeOptions same options).2 blocks pending current := by
  cases same with
  | false => exact hr
  | true =>
    exact { hr with
      comparator_eq := hr.comparator_eq
      allowed := hK
      interval_pos := hinterval
      indexComparator_eq := hr.comparator_eq
      indexInterval_eq := rfl }

theorem ready_initial {options : Options} {file : WritableFile} (hempty : file.contents = [])
    (hsound : file.Sound) (hinterval : 1 ≤ options.blockRestartInterval)
    (hK : K options.compression) {filterBlock : Option FilterBlockBuilder}
    (hfilter : ∀ fb, filterBlock = some fb → Filtered q fb 0 [] []) :
    Ready sn K options.comparator P q (initial options file filterBlock) [] none [] where
  status_eq := rfl
  sound := hsound
  offset_eq := by rw [initial, hempty]; rfl
  small := by rw [initial, hempty]; exact Nat.two_pow_pos 63
  comparator_eq := rfl
  allowed := hK
  interval_pos := hinterval
  indexComparator_eq := rfl
  indexInterval_eq := rfl
  layout := .empty _ _
  stored := fun w hw => by cases hw
  pending_eq := rfl
  pending_handle := by simp
  index_eq := BlockBuilder.holds_reset
  indexCounter_le := Nat.zero_le _
  closed_eq := rfl
  data_eq := BlockBuilder.holds_reset
  numEntries_eq := rfl
  contiguous := rfl
  filtered := hfilter
  start_eq := .inr rfl
  lastKey_eq := fun a ha => by cases ha

/-- A new builder is ready. -/
theorem ready_new (sn : Snappy) {options : Options} {file : WritableFile}
    (hempty : file.contents = []) (hsound : file.Sound)
    (hinterval : 1 ≤ options.blockRestartInterval) (hK : K options.compression)
    (hread : ∀ p, options.filterPolicy = some p → p.ReadBy q) :
    ∃ r, TableBuilder.new options file = some r ∧
      Ready sn K options.comparator P q r [] none [] ∧ r.options = options ∧
      (r.filterBlock = none ↔ options.filterPolicy = none) ∧ r.dataBlock.counter = 0 := by
  have hnew : BlockBuilder.new options.blockRestartInterval = some .reset := if_pos hinterval
  obtain ⟨fb, hfb, hiff, hfilter⟩ : ∃ fb, newFilterBlock options.filterPolicy = some fb ∧
      (fb = none ↔ options.filterPolicy = none) ∧
      ∀ fb', fb = some fb' → Filtered q fb' 0 [] [] := by
    cases hpolicy : options.filterPolicy with
    | none => exact ⟨none, rfl, by simp, by simp⟩
    | some p =>
      refine ⟨some (.new p), rfl, by simp, ?_⟩
      rintro _ ⟨⟩
      exact ⟨hread p hpolicy, [], FilterBlockBuilder.built_new p, rfl, by simp, by simp⟩
  refine ⟨initial options file fb, ?_, ready_initial hempty hsound hinterval hK hfilter, rfl, hiff,
    rfl⟩
  rw [TableBuilder.new, hnew]
  simp only [Option.bind_eq_bind, Option.bind_some, hfb]
  rfl

theorem runCalls_cons {call : Call} {calls : List Call} {r₁ : TableBuilder}
    (h : r.call sn call = .ok r₁) : r.runCalls sn (call :: calls) = r₁.runCalls sn calls := by
  rw [TableBuilder.runCalls, h]
  rfl

theorem build_cons {call : Call} {calls : List Call} {r₁ : TableBuilder}
    (h : r.call sn call = .ok r₁) : r.build sn (call :: calls) = r₁.build sn calls := by
  rw [TableBuilder.build, h]
  rfl

/-- First the calls, then `Finish`. -/
theorem build_eq_bind (sn : Snappy) (r : TableBuilder) (calls : List Call) :
    r.build sn calls = r.runCalls sn calls >>= TableBuilder.finish sn := by
  induction calls generalizing r with
  | nil => rfl
  | cons c calls ih =>
    rw [TableBuilder.build, TableBuilder.runCalls]
    cases r.call sn c with
    | error r₁ => rfl
    | ok r₁ => exact ih r₁

theorem added_cons (call : Call) (calls : List Call) :
    added (call :: calls) = added [call] ++ added calls :=
  List.filterMap_append (l := [call])

theorem finalOptions_cons (options : Options) (call : Call) (calls : List Call) :
    finalOptions options (call :: calls) = finalOptions (finalOptions options [call]) calls := by
  cases call with
  | changeOptions same options' => cases same <;> rfl
  | add => rfl
  | flush => rfl

theorem optionsFit_cons {call : Call} {calls : List Call} :
    OptionsFit K (call :: calls) ↔ OptionsFit K [call] ∧ OptionsFit K calls := by
  constructor
  · intro hfit
    refine ⟨fun same options hmem => hfit same options ?_,
      fun same options hmem => hfit same options (List.mem_cons_of_mem _ hmem)⟩
    rw [List.mem_singleton.mp hmem]
    exact List.mem_cons_self
  · rintro ⟨hcall, hcalls⟩ same options hmem
    rcases List.mem_cons.mp hmem with heq | hmem
    · exact hcall same options (by rw [heq]; exact List.mem_cons_self)
    · exact hcalls same options hmem

theorem Ready.flush (hr : Ready sn K c P q r blocks pending current)
    (hsmall : (outcome (r.flush sn)).file.contents.length < 2 ^ 63) :
    ∃ r' pending', r.flush sn = .ok r' ∧ Ready sn K c P q r' blocks pending' [] ∧
      allEntries blocks pending' [] = allEntries blocks pending current ∧
      r'.options = r.options ∧ (r'.filterBlock = none ↔ r.filterBlock = none) := by
  obtain ⟨r', pending', hr', hb, hrest, hopt, hlast, hnone, -⟩ := hr.toBuilding.flush hsmall
  have hall : allEntries blocks pending' [] = allEntries blocks pending current := by
    rw [allEntries, allEntries, hrest]
  refine ⟨r', pending', hr', ⟨hb, by rw [hrest]; exact hr.start_eq, ?_⟩, hall, hopt, hnone⟩
  rw [hall, hlast]
  exact hr.lastKey_eq

/-- **One call.** A call of `Add` has to meet the assertions on the order of keys and on the
number of entries since the last restart point. -/
theorem Ready.call (hc : c.Lawful P) (hr : Ready sn K c P q r blocks pending current) {call : Call}
    (hadd : ∀ key value, call = .add key value → P key ∧
      (∀ a ∈ allEntries blocks pending current, c.compare a.1 key = .lt) ∧
      r.dataBlock.counter ≤ r.options.blockRestartInterval)
    (hoption : OptionsFit K [call])
    (hsmall : (outcome (r.call sn call)).file.contents.length < 2 ^ 63) :
    ∃ r' blocks' pending' current', r.call sn call = .ok r' ∧
      Ready sn K c P q r' blocks' pending' current' ∧
      allEntries blocks' pending' current' = allEntries blocks pending current ++ added [call] ∧
      r'.options = finalOptions r.options [call] ∧
      (r'.filterBlock = none ↔ r.filterBlock = none) ∧
      ∀ b ∈ blocks', b.placed ∈ placedBlocks blocks pending := by
  have hkept : ∀ b ∈ blocks, b.placed ∈ placedBlocks blocks pending := fun b hb =>
    List.mem_append_left _ (List.mem_map_of_mem hb)
  cases call with
  | add key value =>
    obtain ⟨hkey, hlt, hcounter⟩ := hadd key value rfl
    obtain ⟨r', blocks', pending', current', hr', hready, hall, hopt, hnone, -, hplaced⟩ :=
      hr.add hc hkey hlt hcounter hsmall
    exact ⟨r', blocks', pending', current', hr', hready, hall, hopt, hnone, hplaced⟩
  | flush =>
    obtain ⟨r', pending', hr', hready, hall, hopt, hnone⟩ := hr.flush hsmall
    exact ⟨r', blocks, pending', [], hr', hready, hall.trans (List.append_nil _).symm, hopt, hnone,
      hkept⟩
  | changeOptions same options =>
    obtain ⟨hinterval, hK⟩ := hoption same options List.mem_cons_self
    refine ⟨_, blocks, pending, current, rfl, hr.changeOptions same hinterval hK,
      (List.append_nil _).symm, ?_, ?_, hkept⟩
    · cases same <;> rfl
    · cases same <;> exact Iff.rfl

/-- **Runs of calls.** The induction is on the calls; the file at the end bounds all files
before. -/
theorem Ready.runCalls (hc : c.Lawful P) {calls : List Call}
    (hr : Ready sn K c P q r blocks pending current) (hfit : CountersFit sn r calls)
    (hoptions : OptionsFit K calls) (hkeys : ∀ a ∈ added calls, P a.1)
    (hsorted : (allEntries blocks pending current ++ added calls).Pairwise
      fun a b => c.compare a.1 b.1 = .lt)
    (hsmall : (outcome (r.runCalls sn calls)).file.contents.length < 2 ^ 63) :
    ∃ r' blocks' pending' current', r.runCalls sn calls = .ok r' ∧
      Ready sn K c P q r' blocks' pending' current' ∧
      allEntries blocks' pending' current' = allEntries blocks pending current ++ added calls ∧
      r'.options = finalOptions r.options calls ∧
      (r'.filterBlock = none ↔ r.filterBlock = none) ∧
      (BlocksFit sn r calls → PlacedFit blocks pending →
        FinishFits sn r' ∧ PlacedFit blocks' pending') := by
  induction calls generalizing r blocks pending current with
  | nil =>
    exact ⟨r, blocks, pending, current, rfl, hr, (List.append_nil _).symm, rfl, Iff.rfl, And.intro⟩
  | cons call calls ih =>
    obtain ⟨hcount, hnext⟩ := hfit
    obtain ⟨hoption, hoptions'⟩ := optionsFit_cons.mp hoptions
    have hcall := Nat.lt_of_le_of_lt (outcome_bind_ge fun r₁ => runCalls_grows sn r₁ calls) hsmall
    have hadd : ∀ key value, call = .add key value → P key ∧
        (∀ a ∈ allEntries blocks pending current, c.compare a.1 key = .lt) ∧
        r.dataBlock.counter ≤ r.options.blockRestartInterval := by
      rintro key value rfl
      refine ⟨hkeys (key, value) List.mem_cons_self, fun a ha => ?_, hcount key value rfl⟩
      exact (List.pairwise_append.mp hsorted).2.2 a ha (key, value) List.mem_cons_self
    obtain ⟨r₁, blocks₁, pending₁, current₁, hr₁, hready, hall, hopt, hnone, hplaced⟩ :=
      hr.call hc hadd hoption hcall
    rw [added_cons] at hkeys
    rw [added_cons, ← List.append_assoc, ← hall] at hsorted
    rw [runCalls_cons hr₁] at hsmall ⊢
    obtain ⟨r', blocks', pending', current', hrun, hready', hall', hopt', hnone', hsizes⟩ :=
      ih hready (hnext r₁ hr₁) hoptions' (fun a ha => hkeys a (List.mem_append_right _ ha)) hsorted
        hsmall
    refine ⟨r', blocks', pending', current', hrun, hready', ?_, ?_, hnone'.trans hnone,
      fun hfits hfit => ?_⟩
    · rw [hall', hall, added_cons call calls, List.append_assoc]
    · rw [hopt', hopt, finalOptions_cons _ call calls]
    · obtain ⟨hpending, hfits'⟩ := hfits r₁ hr₁
      exact hsizes hfits' (hready.placedFit hpending fun b hb => hfit _ (hplaced b hb))

/-- **Whole runs**, with `Finish` at the end. -/
theorem Ready.build (hc : c.Lawful P) {calls : List Call}
    (hr : Ready sn K c P q r blocks pending current) (hfit : CountersFit sn r calls)
    (hoptions : OptionsFit K calls)
    (hpolicy : r.filterBlock ≠ none →
      (finalOptions r.options calls).filterPolicy.map FilterPolicy.name = some q.name)
    (hkeys : ∀ a ∈ added calls, P a.1)
    (hsorted : (allEntries blocks pending current ++ added calls).Pairwise
      fun a b => c.compare a.1 b.1 = .lt)
    (hsmall : (outcome (r.build sn calls)).file.contents.length < 2 ^ 63) :
    ∃ r' blocks', r.build sn calls = .ok r' ∧ r'.status = .success ∧
      r'.offset = r'.file.contents.length ∧ r'.options = finalOptions r.options calls ∧
      TableFile sn K c P q r'.file.contents blocks' ∧
      (blocks'.map DataBlock.entries).flatten
        = allEntries blocks pending current ++ added calls ∧
      MetaindexBehind r'.file.contents blocks' ∧
      (BlocksFit sn r calls → PlacedFit blocks pending →
        SmallTable sn K q r'.file.contents blocks') := by
  rw [build_eq_bind] at hsmall ⊢
  have hcalls := Nat.lt_of_le_of_lt (outcome_bind_ge fun r₁ => finish_grows sn r₁) hsmall
  obtain ⟨r₁, blocks₁, pending₁, current₁, hrun, hready, hall, hopt, hnone, hsizes⟩ :=
    hr.runCalls hc hfit hoptions hkeys hsorted hcalls
  rw [hrun] at hsmall ⊢
  obtain ⟨r', blocks', hfinish, hok, hoffset, hopt', htable, hentries, hbehind, hsmallTable⟩ :=
    hready.finish hc (by
      intro hne
      rw [hopt]
      exact hpolicy fun hnil => hne (hnone.mpr hnil)) hsmall
  refine ⟨r', blocks', hfinish, hok, hoffset, hopt'.trans hopt, htable, hentries.trans hall,
    hbehind, fun hfits hfit => ?_⟩
  obtain ⟨hfinishFits, hfit'⟩ := hsizes hfits hfit
  exact hsmallTable hfinishFits hfit'

end TableBuilder

end Squirrel
