import Squirrel.Table.BlockRoundTrip
import Squirrel.Table.TableBuilder

/-!
# The invariant of the table builder

The entries that have been added are in three places: in data blocks that are in the index, in a
block that has been written and waits for its index entry, and in the block builder. `Layout` is
about the lists alone: everything is sorted, and index keys lie between the blocks. `Indexed` and
`Building` tie them to the state of a builder.

How an index key was made is remembered (`DataBlock.Parts`), not only where it lies. The order is
all that iterators need, but lookups of internal keys depend on more.

The options are not fixed: each step says what it needs of those in force. That file offsets do not
wrap around is also a condition on a step, for which it is enough to look at the file at the end of
the run, as files only grow.

## Main definitions

* `Layout`, `TableBuilder.Indexed`, `TableBuilder.Building`, `TableBuilder.Ready`

## Main results

* `TableBuilder.runCalls_grows` — files only grow
* `TableBuilder.Building.flush`, `TableBuilder.Ready.add` — the calls keep the invariant
-/

namespace Squirrel

open Coding

namespace TableBuilder

/-! ### Files only grow -/

/-- The file of the builder that a computation ends with, one way or the other, is not shorter than
that of `r`. -/
def Grows {α : Type} (get : α → TableBuilder) (r : TableBuilder) : Except TableBuilder α → Prop
  | .ok a => r.file.contents.length ≤ (get a).file.contents.length
  | .error r' => r.file.contents.length ≤ r'.file.contents.length

section

variable {α β : Type} {get : α → TableBuilder} {get' : β → TableBuilder} {r : TableBuilder}

theorem Grows.trans {r₀ : TableBuilder} {x : Except TableBuilder α}
    (hle : r₀.file.contents.length ≤ r.file.contents.length) (h : Grows get r x) :
    Grows get r₀ x := by
  cases x with
  | ok a => exact Nat.le_trans hle h
  | error r' => exact Nat.le_trans hle h

theorem Grows.bind {x : Except TableBuilder α} {f : α → Except TableBuilder β} (hx : Grows get r x)
    (hf : ∀ a, Grows get' (get a) (f a)) : Grows get' r (x >>= f) := by
  cases x with
  | error r' => exact hx
  | ok a =>
    exact Grows.trans hx (hf a)

theorem grows_orAbort (r : TableBuilder) (a : Option α) : Grows (fun _ => r) r (r.orAbort a) := by
  cases a <;> exact Nat.le_refl _

theorem length_append_ge (f : WritableFile) (data : Bytes) :
    f.contents.length ≤ (f.append data).2.contents.length := by
  rw [WritableFile.append]
  dsimp only
  split
  · rw [List.length_append]
    exact Nat.le_add_right _ _
  · exact Nat.le_refl _

theorem writeRawBlock_grows (r : TableBuilder) (contents : Bytes) (type : CompressionType) :
    r.file.contents.length ≤ (r.writeRawBlock contents type).1.file.contents.length := by
  have h₁ := length_append_ge r.file contents
  have h₂ := length_append_ge (r.file.append contents).2 (blockTrailer contents type)
  rw [writeRawBlock]
  dsimp only
  split
  · split <;> exact Nat.le_trans h₁ h₂
  · exact h₁

theorem writeBlock_grows (sn : Snappy) (r : TableBuilder) (block : BlockBuilder) :
    Grows Prod.fst r (r.writeBlock sn block) := by
  rw [writeBlock]
  split
  · exact writeRawBlock_grows _ _ _
  · exact Nat.le_refl _

theorem startFilterBlock_grows (r : TableBuilder) : Grows id r r.startFilterBlock := by
  rw [startFilterBlock]
  split
  · exact Nat.le_refl _
  · exact (grows_orAbort r _).bind fun _ => Nat.le_refl _

theorem flush_grows (sn : Snappy) (r : TableBuilder) : Grows id r (r.flush sn) := by
  rw [flush]
  split_ifs
  · exact Nat.le_refl _
  · exact Nat.le_refl _
  · exact Nat.le_refl _
  · exact Nat.le_refl _
  · refine (writeBlock_grows sn r r.dataBlock).bind ?_
    rintro ⟨r₁, handle⟩
    dsimp only
    generalize hr₂ : (if r₁.status.ok = true then _ else _ : TableBuilder) = r₂
    have hfile : r₂.file.contents = r₁.file.contents := by
      subst hr₂
      split <;> rfl
    exact Grows.trans (Nat.le_of_eq (by rw [hfile])) (startFilterBlock_grows r₂)

theorem addIndexEntry_grows (separator : Option Bytes) (r : TableBuilder) :
    Grows id r (r.addIndexEntry separator) := by
  refine (grows_orAbort r _).bind fun separator => ?_
  refine (grows_orAbort r _).bind fun handleEncoding => ?_
  exact (grows_orAbort r _).bind fun indexBlock => Nat.le_refl _

theorem addPending_grows (key : Bytes) (r : TableBuilder) : Grows id r (r.addPending key) := by
  rw [addPending]
  split_ifs
  · exact addIndexEntry_grows _ r
  · exact Nat.le_refl _
  · exact Nat.le_refl _

theorem addEntry_grows (sn : Snappy) (key value : Bytes) (r : TableBuilder) :
    Grows id r (r.addEntry sn key value) := by
  have hadd : ∀ block : Option BlockBuilder, Grows (fun _ => r) r (orAbort { r with
      filterBlock := r.filterBlock.map (FilterBlockBuilder.addKey key)
      lastKey := key
      numEntries := r.numEntries + 1 } block) := by
    intro block
    cases block <;> exact Nat.le_refl _
  refine (hadd _).bind fun dataBlock => ?_
  dsimp only
  split
  · exact flush_grows sn _
  · exact Nat.le_refl _

theorem add_grows (sn : Snappy) (key value : Bytes) (r : TableBuilder) :
    Grows id r (r.add sn key value) := by
  rw [add]
  split_ifs
  · exact Nat.le_refl _
  · exact Nat.le_refl _
  · exact Nat.le_refl _
  · exact (addPending_grows key r).bind fun r₁ => addEntry_grows sn key value r₁

theorem writeFilter_grows (r : TableBuilder) :
    r.file.contents.length ≤ r.writeFilter.1.file.contents.length := by
  rw [writeFilter]
  split
  · exact writeRawBlock_grows _ _ _
  · exact Nat.le_refl _

theorem writeMetaindex_grows (sn : Snappy) (h : BlockHandle) (r : TableBuilder) :
    Grows Prod.fst r (r.writeMetaindex sn h) := by
  rw [writeMetaindex]
  split
  · exact (grows_orAbort r _).bind fun block => writeBlock_grows sn r block
  · exact Nat.le_refl _

theorem addLast_grows (r : TableBuilder) : Grows id r r.addLast := by
  rw [addLast]
  split
  · exact addIndexEntry_grows _ r
  · exact Nat.le_refl _

theorem writeIndex_grows (sn : Snappy) (r : TableBuilder) :
    Grows Prod.fst r (r.writeIndex sn) := by
  rw [writeIndex]
  split
  · refine (addLast_grows r).bind fun r₁ => ?_
    exact (writeBlock_grows sn r₁ r₁.indexBlock).bind fun _ => Nat.le_refl _
  · exact Nat.le_refl _

theorem writeFooter_grows (hm hi : BlockHandle) (r : TableBuilder) :
    Grows id r (r.writeFooter hm hi) := by
  rw [writeFooter]
  split
  · refine (grows_orAbort r _).bind fun footerEncoding => ?_
    have h := length_append_ge r.file footerEncoding
    dsimp only
    split <;> exact h
  · exact Nat.le_refl _

/-- The last two steps of `Finish`. -/
theorem writeIndex_writeFooter_grows (sn : Snappy) (hm : BlockHandle) (r : TableBuilder) :
    Grows id r (do let (r, hi) ← r.writeIndex sn; r.writeFooter hm hi) :=
  (writeIndex_grows sn r).bind fun p => writeFooter_grows hm p.2 p.1

/-- The last three. -/
theorem writeMetaindex_writeFooter_grows (sn : Snappy) (h : BlockHandle) (r : TableBuilder) :
    Grows id r (do
      let (r, hm) ← r.writeMetaindex sn h
      let (r, hi) ← r.writeIndex sn
      r.writeFooter hm hi) :=
  (writeMetaindex_grows sn h r).bind fun p => writeIndex_writeFooter_grows sn p.2 p.1

theorem finish_grows (sn : Snappy) (r : TableBuilder) : Grows id r (r.finish sn) := by
  refine (flush_grows sn r).bind fun r₁ => ?_
  exact Grows.trans (writeFilter_grows { r₁ with closed := true })
    (writeMetaindex_writeFooter_grows sn _ _)

theorem call_grows (sn : Snappy) (r : TableBuilder) (c : Call) : Grows id r (r.call sn c) := by
  cases c with
  | add key value => exact add_grows sn key value r
  | flush => exact flush_grows sn r
  | changeOptions same options =>
    change r.file.contents.length ≤ (r.changeOptions same options).2.file.contents.length
    rw [changeOptions]
    split <;> exact Nat.le_refl _

theorem runCalls_grows (sn : Snappy) (r : TableBuilder) (calls : List Call) :
    Grows id r (r.runCalls sn calls) := by
  induction calls generalizing r with
  | nil => exact Nat.le_refl _
  | cons c calls ih => exact (call_grows sn r c).bind ih

theorem Grows.outcome_ge {x : Except TableBuilder TableBuilder} (h : Grows id r x) :
    r.file.contents.length ≤ (outcome x).file.contents.length := by
  cases x with
  | ok r' => exact h
  | error r' => exact h

/-- The first part of a run leaves no more in the file than the whole run. -/
theorem outcome_bind_ge {x : Except TableBuilder TableBuilder}
    {f : TableBuilder → Except TableBuilder TableBuilder} (hf : ∀ r, Grows id r (f r)) :
    (outcome x).file.contents.length ≤ (outcome (x >>= f)).file.contents.length := by
  cases x with
  | error r' => exact Nat.le_refl _
  | ok r' => exact (hf r').outcome_ge

end


end TableBuilder

/-! ### Blocks in files -/

/-- The file holds a block with these contents and of this type, and `h` says where. -/
def Stored (file : Bytes) (h : BlockHandle) (contents : Bytes) (type : CompressionType) : Prop :=
  ∃ front back, file = front ++ (TableBuilder.storedBlock contents type ++ back) ∧
    h = ⟨front.length, contents.length⟩

/-- The file holds a block with these entries, written under a compression setting that `K`
allows. -/
def BlockStored (sn : Snappy) (K : CompressionType → Prop) (file : Bytes) (h : BlockHandle)
    (entries : List (Bytes × Bytes)) : Prop :=
  ∃ (b : BlockBuilder) (compression : CompressionType), b.Holds entries ∧ K compression ∧
    Stored file h (TableBuilder.compressBlock sn compression b.finish.1).1
      (TableBuilder.compressBlock sn compression b.finish.1).2

variable {sn : Snappy} {K : CompressionType → Prop} {file contents : Bytes} {h : BlockHandle}
  {type : CompressionType} {entries : List (Bytes × Bytes)}

theorem stored_append_block (file contents : Bytes) (type : CompressionType) :
    Stored (file ++ TableBuilder.storedBlock contents type) ⟨file.length, contents.length⟩ contents
      type :=
  ⟨file, [], by rw [List.append_nil], rfl⟩

theorem Stored.append (hs : Stored file h contents type) (more : Bytes) :
    Stored (file ++ more) h contents type := by
  obtain ⟨front, back, rfl, rfl⟩ := hs
  exact ⟨front, back ++ more, by simp only [List.append_assoc], rfl⟩

theorem Stored.lt (hs : Stored file h contents type) :
    h.offset + (h.size + 5) ≤ file.length ∧ h.size = contents.length := by
  obtain ⟨front, back, rfl, rfl⟩ := hs
  rw [List.length_append, List.length_append, TableBuilder.length_storedBlock]
  exact ⟨by dsimp only; omega, rfl⟩

theorem Stored.set (hs : Stored file h contents type) (hlen : file.length < 2 ^ 63) : h.Set := by
  obtain ⟨hle, -⟩ := hs.lt
  rw [BlockHandle.Set]
  omega

theorem BlockStored.append (hs : BlockStored sn K file h entries) (more : Bytes) :
    BlockStored sn K (file ++ more) h entries := by
  obtain ⟨b, compression, hb, hK, hs⟩ := hs
  exact ⟨b, compression, hb, hK, hs.append more⟩

theorem BlockStored.set (hs : BlockStored sn K file h entries) (hlen : file.length < 2 ^ 63) :
    h.Set := by
  obtain ⟨b, compression, -, -, hs⟩ := hs
  exact hs.set hlen

/-! ### Blocks and their index keys -/

/-- A data block of a table: its index key, where it is, and its entries. -/
structure DataBlock where
  separator : Bytes
  handle : BlockHandle
  entries : List (Bytes × Bytes)

namespace DataBlock

/-- Its entry in the index. -/
def indexEntry (b : DataBlock) : Bytes × Bytes := (b.separator, b.handle.encoding)

/-- Where it is, and its entries. -/
def placed (b : DataBlock) : BlockHandle × List (Bytes × Bytes) := (b.handle, b.entries)

/-- The index key parts the block from `key`: it is what the comparator made of a key of the block
and a limit that `key` is not below. -/
def Parts (c : Comparator) (P : Bytes → Prop) (b : DataBlock) (key : Bytes) : Prop :=
  ∃ start ∈ b.entries, ∃ limit, P start.1 ∧ P limit ∧ c.compare start.1 limit = .lt ∧
    c.findShortestSeparator start.1 limit = some b.separator ∧ c.compare limit key ≠ .gt

variable {c : Comparator} {P : Bytes → Prop} {b : DataBlock} {key key' : Bytes}

theorem Parts.separator_lt (hc : c.Lawful P) (hp : b.Parts c P key) :
    c.compare b.separator key = .lt := by
  obtain ⟨start, -, limit, hstart, hlimit, hlt, hfind, hle⟩ := hp
  obtain ⟨sep, hsep, -, hsep_lt⟩ := hc.separator hstart hlimit hlt
  obtain rfl : sep = b.separator := Option.some.inj (hsep.symm.trans hfind)
  have htrans := hc.trans
  exact Std.TransCmp.lt_of_lt_of_isLE hsep_lt (Ordering.isLE_iff_ne_gt.mpr hle)

theorem Parts.of_lt (hc : c.Lawful P) (hp : b.Parts c P key) (hlt : c.compare key key' = .lt) :
    b.Parts c P key' := by
  obtain ⟨start, hmem, limit, hstart, hlimit, hlt', hfind, hle⟩ := hp
  have htrans := hc.trans
  have hlt'' := Std.TransCmp.lt_of_isLE_of_lt (Ordering.isLE_iff_ne_gt.mpr hle) hlt
  exact ⟨start, hmem, limit, hstart, hlimit, hlt', hfind, by rw [hlt'']; decide⟩

end DataBlock

/-- The entries behind the blocks that are in the index: those of a block that waits for its index
entry, and those that have not been written. -/
def restEntries (pending : Option (BlockHandle × List (Bytes × Bytes)))
    (current : List (Bytes × Bytes)) : List (Bytes × Bytes) :=
  (pending.map Prod.snd).getD [] ++ current

/-- All entries, in order. -/
def allEntries (blocks : List DataBlock) (pending : Option (BlockHandle × List (Bytes × Bytes)))
    (current : List (Bytes × Bytes)) : List (Bytes × Bytes) :=
  (blocks.map DataBlock.entries).flatten ++ restEntries pending current

/-- The blocks that have been written. -/
def placedBlocks (blocks : List DataBlock) (pending : Option (BlockHandle × List (Bytes × Bytes))) :
    List (BlockHandle × List (Bytes × Bytes)) :=
  blocks.map DataBlock.placed ++ pending.toList

theorem allEntries_close (blocks : List DataBlock) (sep : Bytes) (h : BlockHandle)
    (es : List (Bytes × Bytes)) :
    allEntries (blocks ++ [⟨sep, h, es⟩]) none [] = allEntries blocks (some (h, es)) [] := by
  simp [allEntries, restEntries]

theorem placedBlocks_close (blocks : List DataBlock) (sep : Bytes) (h : BlockHandle)
    (es : List (Bytes × Bytes)) :
    placedBlocks (blocks ++ [⟨sep, h, es⟩]) none = placedBlocks blocks (some (h, es)) := by
  simp [placedBlocks, DataBlock.placed]

/-- **The order of things**: sorted entries in blocks, with index keys between the blocks. -/
structure Layout (c : Comparator) (P : Bytes → Prop) (blocks : List DataBlock)
    (pending : Option (BlockHandle × List (Bytes × Bytes))) (current : List (Bytes × Bytes)) :
    Prop where
  nonempty : ∀ w ∈ placedBlocks blocks pending, w.2 ≠ []
  pending_current : pending ≠ none → current = []
  keys : ∀ a ∈ allEntries blocks pending current, P a.1
  sorted : (allEntries blocks pending current).Pairwise fun a b => c.compare a.1 b.1 = .lt
  le_separator : ∀ b ∈ blocks, ∀ a ∈ b.entries, c.compare a.1 b.separator ≠ .gt
  parts : blocks.Pairwise fun b b' => ∀ a ∈ b'.entries, b.Parts c P a.1
  parts_rest : ∀ b ∈ blocks, ∀ a ∈ restEntries pending current, b.Parts c P a.1

namespace Layout

variable {c : Comparator} {P : Bytes → Prop} {blocks : List DataBlock}
  {pending : Option (BlockHandle × List (Bytes × Bytes))} {current es : List (Bytes × Bytes)}
  {key value sep : Bytes}

theorem empty (c : Comparator) (P : Bytes → Prop) : Layout c P [] none [] where
  nonempty := by simp [placedBlocks]
  pending_current := fun _ => rfl
  keys := by simp [allEntries, restEntries]
  sorted := List.Pairwise.nil
  le_separator := by simp
  parts := List.Pairwise.nil
  parts_rest := by simp

/-- The block that was being filled is written. -/
theorem flush (hl : Layout c P blocks none current) (hne : current ≠ []) (h : BlockHandle) :
    Layout c P blocks (some (h, current)) [] := by
  have hrest : restEntries (some (h, current)) [] = restEntries none current :=
    List.append_nil current
  have hall : allEntries blocks (some (h, current)) [] = allEntries blocks none current := by
    rw [allEntries, allEntries, hrest]
  refine ⟨?_, fun _ => rfl, hall ▸ hl.keys, hall ▸ hl.sorted, hl.le_separator, hl.parts,
    hrest ▸ hl.parts_rest⟩
  intro w hw
  rcases List.mem_append.mp hw with hw | hw
  · exact hl.nonempty w (List.mem_append_left _ hw)
  · rw [List.mem_singleton.mp hw]
    exact hne

/-- The block that was waiting gets its index key. -/
theorem close (hl : Layout c P blocks (some (h, es)) [])
    (hsep : ∀ a ∈ es, c.compare a.1 sep ≠ .gt) :
    Layout c P (blocks ++ [⟨sep, h, es⟩]) none [] := by
  refine ⟨?_, fun _ => rfl, ?_, ?_, ?_, ?_, ?_⟩
  · rw [placedBlocks_close]
    exact hl.nonempty
  · rw [allEntries_close]
    exact hl.keys
  · rw [allEntries_close]
    exact hl.sorted
  · intro b hb
    rcases List.mem_append.mp hb with hb | hb
    · exact hl.le_separator b hb
    · rw [List.mem_singleton.mp hb]
      exact hsep
  · refine List.pairwise_append.mpr ⟨hl.parts, List.pairwise_singleton _ _, fun b hb b' hb' a ha =>
      ?_⟩
    rw [List.mem_singleton.mp hb'] at ha
    exact hl.parts_rest b hb a (List.mem_append_left _ ha)
  · intro b _ a ha
    cases ha

/-- One more entry. -/
theorem snoc (hl : Layout c P blocks none current) (hkey : P key)
    (hlt : ∀ a ∈ allEntries blocks none current, c.compare a.1 key = .lt)
    (hparts : ∀ b ∈ blocks, b.Parts c P key) :
    Layout c P blocks none (current ++ [(key, value)]) := by
  have hall : allEntries blocks none (current ++ [(key, value)])
      = allEntries blocks none current ++ [(key, value)] := by
    simp [allEntries, restEntries]
  refine ⟨hl.nonempty, fun hne => absurd rfl hne, ?_, ?_, hl.le_separator, hl.parts, ?_⟩
  · rw [hall]
    intro a ha
    rcases List.mem_append.mp ha with ha | ha
    · exact hl.keys a ha
    · rw [List.mem_singleton.mp ha]
      exact hkey
  · rw [hall]
    refine List.pairwise_append.mpr ⟨hl.sorted, List.pairwise_singleton _ _, fun a ha b hb => ?_⟩
    rw [List.mem_singleton.mp hb]
    exact hlt a ha
  · intro b hb a ha
    rcases List.mem_append.mp (show a ∈ current ++ [(key, value)] from ha) with ha | ha
    · exact hl.parts_rest b hb a ha
    · rw [List.mem_singleton.mp ha]
      exact hparts b hb

/-- Index keys part their blocks from all that is still to come. -/
theorem parts_next (hc : c.Lawful P) (hl : Layout c P blocks pending current)
    (hne : restEntries pending current ≠ [] ∨ blocks = [])
    (hlt : ∀ a ∈ allEntries blocks pending current, c.compare a.1 key = .lt) :
    ∀ b ∈ blocks, b.Parts c P key := by
  intro b hb
  rcases hne with hne | rfl
  · obtain ⟨a, ha⟩ := List.exists_mem_of_ne_nil _ hne
    exact (hl.parts_rest b hb a ha).of_lt hc (hlt a (List.mem_append_right _ ha))
  · cases hb

/-- A block that is waiting has a last entry, which is the last of all. -/
theorem pending_last (hc : c.Lawful P) (hl : Layout c P blocks (some (h, es)) []) :
    ∃ x ∈ es, (allEntries blocks (some (h, es)) []).getLast? = some x ∧
      x ∈ allEntries blocks (some (h, es)) [] ∧ P x.1 ∧ ∀ a ∈ es, c.compare a.1 x.1 ≠ .gt := by
  have htrans := hc.trans
  have hne : es ≠ [] :=
    hl.nonempty (h, es) (List.mem_append_right _ (List.mem_singleton_self _))
  have hall : allEntries blocks (some (h, es)) []
      = (blocks.map DataBlock.entries).flatten ++ es := by
    simp [allEntries, restEntries]
  obtain ⟨init, x, rfl⟩ : ∃ init x, es = init ++ [x] :=
    ⟨_, _, (List.dropLast_concat_getLast hne).symm⟩
  have hlast : x ∈ init ++ [x] := List.mem_append_right _ (List.mem_singleton_self x)
  have hxall : x ∈ allEntries blocks (some (h, init ++ [x])) [] :=
    hall ▸ List.mem_append_right _ hlast
  have hsorted := hl.sorted
  rw [hall] at hsorted
  have hinit := (List.pairwise_append.mp (List.pairwise_append.mp hsorted).2.1).2.2
  refine ⟨x, hlast, ?_, hxall, hl.keys x hxall, fun a ha => ?_⟩
  · rw [hall, ← List.append_assoc, List.getLast?_concat]
  · rcases List.mem_append.mp ha with ha | ha
    · rw [hinit a ha x (List.mem_singleton_self x)]
      decide
    · have heq : c.compare x.1 x.1 = .eq := Std.ReflCmp.compare_self
      rw [List.mem_singleton.mp ha, heq]
      decide

end Layout

/-- The blocks of these handles follow each other, from `start` to `stop`. -/
def Contiguous : ℕ → List BlockHandle → ℕ → Prop
  | start, [], stop => start = stop
  | start, h :: hs, stop => h.offset = start ∧ Contiguous (start + (h.size + 5)) hs stop

theorem Contiguous.snoc {hs : List BlockHandle} {start stop : ℕ} (hcont : Contiguous start hs stop)
    (hoffset : h.offset = stop) : Contiguous start (hs ++ [h]) (stop + (h.size + 5)) := by
  induction hs generalizing start with
  | nil =>
    obtain rfl : start = stop := hcont
    exact ⟨hoffset, rfl⟩
  | cons h' hs ih => exact ⟨hcont.1, ih hcont.2⟩

theorem Contiguous.pairwise {hs : List BlockHandle} {start stop : ℕ}
    (hcont : Contiguous start hs stop) :
    (∀ h ∈ hs, start ≤ h.offset ∧ h.offset + (h.size + 5) ≤ stop) ∧ start ≤ stop ∧
      hs.Pairwise fun h h' => h.offset + (h.size + 5) ≤ h'.offset := by
  induction hs generalizing start with
  | nil => exact ⟨by simp, Nat.le_of_eq hcont, List.Pairwise.nil⟩
  | cons h hs ih =>
    obtain ⟨hoffset, hrest⟩ := hcont
    obtain ⟨hmem, hle, hpair⟩ := ih hrest
    refine ⟨?_, by omega, List.pairwise_cons.mpr ⟨fun h' hh' => ?_, hpair⟩⟩
    · intro h' hh'
      rcases List.mem_cons.mp hh' with rfl | hh'
      · omega
      · have := hmem h' hh'
        omega
    · have := hmem h' hh'
      omega

/-! ### The filter -/

/-- The number of entries in the blocks that start in filter range `i`. -/
def entriesIn (placed : List (BlockHandle × List (Bytes × Bytes))) (i : ℕ) : ℕ :=
  ((placed.filter fun w => w.1.offset / kFilterBase = i).map fun w => w.2.length).sum

theorem entriesIn_append (placed placed' : List (BlockHandle × List (Bytes × Bytes))) (i : ℕ) :
    entriesIn (placed ++ placed') i = entriesIn placed i + entriesIn placed' i := by
  rw [entriesIn, List.filter_append, List.map_append, List.sum_append]
  rfl

theorem entriesIn_singleton (h : BlockHandle) (es : List (Bytes × Bytes)) (i : ℕ) :
    entriesIn [(h, es)] i = if h.offset / kFilterBase = i then es.length else 0 := by
  rw [entriesIn]
  by_cases hi : h.offset / kFilterBase = i
  · simp [hi]
  · simp [hi]

/-- **The entries of one range can be counted in an `int`.** An entry takes three bytes or more, and
all blocks of a range but the last end within its two kilobytes. The induction is on the blocks,
from the front; behind the range there is nothing more to count. -/
theorem entriesIn_le {placed : List (BlockHandle × List (Bytes × Bytes))} {start stop : ℕ}
    (hcont : Contiguous start (placed.map Prod.fst) stop)
    (hsize : ∀ w ∈ placed, 3 * w.2.length ≤ w.1.size ∧ w.1.size < 2 ^ 32) (i : ℕ) :
    3 * entriesIn placed i ≤ min kFilterBase ((i + 1) * kFilterBase - start) + 2 ^ 32 ∧
      ((i + 1) * kFilterBase ≤ start → entriesIn placed i = 0) := by
  have hbase : kFilterBase = 2048 := rfl
  rw [hbase]
  induction placed generalizing start with
  | nil => exact ⟨Nat.zero_le _, fun _ => rfl⟩
  | cons w placed ih =>
    obtain ⟨h, es⟩ := w
    obtain ⟨hoffset, hrest⟩ := hcont
    obtain ⟨hthree, hlt⟩ := hsize (h, es) List.mem_cons_self
    obtain ⟨hle, hzero⟩ := ih hrest fun w hw => hsize w (List.mem_cons_of_mem _ hw)
    dsimp only at hthree hlt hoffset hle hzero
    have hsplit : entriesIn ((h, es) :: placed) i
        = (if start / 2048 = i then es.length else 0) + entriesIn placed i := by
      rw [← List.singleton_append, entriesIn_append, entriesIn_singleton, hbase, hoffset]
    rw [hsplit]
    by_cases hi : start / 2048 = i
    · rw [if_pos hi]
      exact ⟨by omega, fun _ => by omega⟩
    · rw [if_neg hi]
      exact ⟨by omega, fun _ => by omega⟩

/-- The filters made so far are in step with the file, and every key is in the filter of its block,
or will be. They have no keys but those. -/
def Filtered (q : FilterPolicy) (fb : FilterBlockBuilder) (offset : ℕ)
    (placed : List (BlockHandle × List (Bytes × Bytes))) (current : List (Bytes × Bytes)) : Prop :=
  fb.policy.ReadBy q ∧ ∃ filters, fb.Built q filters ∧ filters.length = offset / kFilterBase ∧
    (∀ w ∈ placed, ∀ a ∈ w.2, fb.InFilter filters w.1.offset a.1) ∧
    (∀ a ∈ current, fb.InFilter filters offset a.1) ∧
    ∀ i, (fb.keysOf filters i).length ≤ entriesIn (placed ++ [(⟨offset, 0⟩, current)]) i

theorem Filtered.addKey {q : FilterPolicy} {fb : FilterBlockBuilder} {offset : ℕ}
    {placed : List (BlockHandle × List (Bytes × Bytes))} {current : List (Bytes × Bytes)}
    (hf : Filtered q fb offset placed current) (key value : Bytes) :
    Filtered q (fb.addKey key) offset placed (current ++ [(key, value)]) := by
  obtain ⟨hread, filters, hbuilt, hlen, hplaced, hcurrent, hcount⟩ := hf
  refine ⟨hread, filters, hbuilt.addKey key, hlen,
    fun w hw a ha => (hplaced w hw a ha).addKey key, fun a ha => ?_, fun i => ?_⟩
  · rcases List.mem_append.mp ha with ha | ha
    · exact (hcurrent a ha).addKey key
    · rw [List.mem_singleton.mp ha]
      exact .inr ⟨hlen.symm, List.mem_append_right _ (List.mem_singleton_self _)⟩
  · have hi := hcount i
    rw [entriesIn_append, entriesIn_singleton] at hi ⊢
    by_cases heq : i = filters.length
    · rw [FilterBlockBuilder.keysOf, if_pos heq] at hi ⊢
      rw [if_pos (hlen.symm.trans heq.symm)] at hi ⊢
      rw [FilterBlockBuilder.addKey, List.length_append, List.length_append, List.length_singleton,
        List.length_singleton]
      omega
    · rw [FilterBlockBuilder.keysOf, if_neg heq] at hi ⊢
      rwa [if_neg fun h => heq (h.symm.trans hlen.symm)] at hi ⊢

theorem Filtered.startBlock {q : FilterPolicy} {fb : FilterBlockBuilder} {offset offset' : ℕ}
    {placed : List (BlockHandle × List (Bytes × Bytes))} {current : List (Bytes × Bytes)}
    (hf : Filtered q fb offset placed current) (hle : offset ≤ offset') (size : ℕ) :
    ∃ fb', fb.startBlock offset' = some fb' ∧
      Filtered q fb' offset' (placed ++ [(⟨offset, size⟩, current)]) [] := by
  obtain ⟨hread, filters, hbuilt, hlen, hplaced, hcurrent, hcount⟩ := hf
  obtain ⟨fb', filters', hstart, hbuilt', hlen', hpolicy, hkeys, hin⟩ :=
    hbuilt.startBlock hread (hlen ▸ Nat.div_le_div_right hle)
  refine ⟨fb', hstart, hpolicy ▸ hread, filters', hbuilt', hlen', fun w hw a ha => ?_, by simp,
    fun i => ?_⟩
  · rcases List.mem_append.mp hw with hw | hw
    · exact hin _ _ (hplaced w hw a ha)
    · rw [List.mem_singleton.mp hw] at ha ⊢
      exact hin _ _ (hcurrent a ha)
  · rw [hkeys, entriesIn_append, entriesIn_append]
    have hi := hcount i
    rw [entriesIn_append, entriesIn_singleton] at hi
    rw [entriesIn_singleton]
    exact Nat.le_add_right_of_le hi

/-! ### The invariant -/

namespace TableBuilder

/-- The part of the invariant that also holds while the table is finished: the blocks are in the
file, and the index has their entries. -/
structure Indexed (sn : Snappy) (K : CompressionType → Prop) (c : Comparator) (P : Bytes → Prop)
    (r : TableBuilder) (blocks : List DataBlock)
    (pending : Option (BlockHandle × List (Bytes × Bytes))) (current : List (Bytes × Bytes)) :
    Prop where
  status_eq : r.status = .success
  sound : r.file.Sound
  offset_eq : r.offset = r.file.contents.length
  small : r.file.contents.length < 2 ^ 63
  comparator_eq : r.options.comparator = c
  allowed : K r.options.compression
  interval_pos : 1 ≤ r.options.blockRestartInterval
  indexComparator_eq : r.indexBlockOptions.comparator = c
  indexInterval_eq : r.indexBlockOptions.blockRestartInterval = 1
  layout : Layout c P blocks pending current
  stored : ∀ w ∈ placedBlocks blocks pending, BlockStored sn K r.file.contents w.1 w.2
  pending_eq : r.pendingIndexEntry = pending.isSome
  pending_handle : ∀ w, pending = some w → r.pendingHandle = w.1
  index_eq : r.indexBlock.Holds (blocks.map DataBlock.indexEntry)
  indexCounter_le : r.indexBlock.counter ≤ 1

/-- **The invariant**: besides, the block builder has the entries that are not in the file, and the
filters have all keys. -/
structure Building (sn : Snappy) (K : CompressionType → Prop) (c : Comparator) (P : Bytes → Prop)
    (q : FilterPolicy) (r : TableBuilder) (blocks : List DataBlock)
    (pending : Option (BlockHandle × List (Bytes × Bytes))) (current : List (Bytes × Bytes)) : Prop
    extends Indexed sn K c P r blocks pending current where
  closed_eq : r.closed = false
  data_eq : r.dataBlock.Holds current
  numEntries_eq : r.numEntries = (allEntries blocks pending current).length
  contiguous : Contiguous 0 ((placedBlocks blocks pending).map Prod.fst) r.offset
  filtered : ∀ fb, r.filterBlock = some fb →
    Filtered q fb r.offset (placedBlocks blocks pending) current

/-- The invariant between calls. -/
structure Ready (sn : Snappy) (K : CompressionType → Prop) (c : Comparator) (P : Bytes → Prop)
    (q : FilterPolicy) (r : TableBuilder) (blocks : List DataBlock)
    (pending : Option (BlockHandle × List (Bytes × Bytes))) (current : List (Bytes × Bytes)) : Prop
    extends Building sn K c P q r blocks pending current where
  start_eq : restEntries pending current ≠ [] ∨ blocks = []
  lastKey_eq : ∀ a, (allEntries blocks pending current).getLast? = some a → r.lastKey = a.1

variable {sn : Snappy} {K : CompressionType → Prop} {c : Comparator} {P : Bytes → Prop}
  {q : FilterPolicy} {r : TableBuilder}
  {blocks : List DataBlock} {pending : Option (BlockHandle × List (Bytes × Bytes))}
  {current : List (Bytes × Bytes)}

/-- The block that waits for its index entry, if there is one, is below `2 ^ 32` bytes. -/
def PendingFits (r : TableBuilder) : Prop :=
  r.pendingIndexEntry = true → r.pendingHandle.size < 2 ^ 32

/-- All blocks that have been written are below `2 ^ 32` bytes. -/
def PlacedFit (blocks : List DataBlock) (pending : Option (BlockHandle × List (Bytes × Bytes))) :
    Prop :=
  ∀ w ∈ placedBlocks blocks pending, w.1.size < 2 ^ 32

/-- The only block that can be new is the one that waits for its index entry. -/
theorem Indexed.placedFit (hb : Indexed sn K c P r blocks pending current) (hfits : r.PendingFits)
    (hblocks : ∀ b ∈ blocks, b.handle.size < 2 ^ 32) : PlacedFit blocks pending := by
  intro w hw
  rcases List.mem_append.mp hw with hw | hw
  · obtain ⟨b, hb', rfl⟩ := List.mem_map.mp hw
    exact hblocks b hb'
  · have hpending := Option.mem_toList.mp hw
    rw [← hb.pending_handle w hpending]
    exact hfits (by rw [hb.pending_eq, hpending]; rfl)

/-! ### `Flush` -/

/-- The builder after the data block has been written, before the filter is told. -/
def flushed (sn : Snappy) (r : TableBuilder) : TableBuilder :=
  let stored := compressBlock sn r.options.compression r.dataBlock.finish.1
  { r with
    status := .success
    file := { r.file with
      contents := r.file.contents ++ storedBlock stored.1 stored.2
      calls := r.file.calls + 2 + 1 }
    offset := (r.offset + (stored.1.length + 5)) % 2 ^ 64
    pendingHandle := ⟨r.offset, stored.1.length⟩
    dataBlock := .reset
    pendingIndexEntry := true }

/-- `Flush` of a block that is not empty. -/
theorem flush_of_nonempty (hclosed : r.closed = false) (hok : r.status = .success)
    (hsound : r.file.Sound) (hempty : r.dataBlock.empty = false)
    (hpending : r.pendingIndexEntry = false) :
    r.flush sn = (r.flushed sn).startFilterBlock := by
  have hflush : WritableFile.flush
      { r.file with
        contents := r.file.contents ++ storedBlock
          (compressBlock sn r.options.compression r.dataBlock.finish.1).1
          (compressBlock sn r.options.compression r.dataBlock.finish.1).2
        calls := r.file.calls + 2 } = (.success, (r.flushed sn).file) :=
    WritableFile.flush_of_sound hsound
  rw [flush, hclosed, hok, hempty, hpending, writeBlock_of_ok hok, writeRawBlock_of_sound hsound]
  simp only [Bool.false_eq_true, if_false, Status.ok_success, Bool.true_eq_false, bind, Except.bind,
    if_true, hflush]
  rfl

theorem flush_eq_flushed (hb : Building sn K c P q r blocks none current) (hne : current ≠ []) :
    r.flush sn = (r.flushed sn).startFilterBlock := by
  have hempty : r.dataBlock.empty = false := by
    rw [← Bool.not_eq_true, hb.data_eq.empty_iff]
    exact hne
  exact flush_of_nonempty hb.closed_eq hb.status_eq hb.sound hempty hb.pending_eq

theorem length_flushed (sn : Snappy) (r : TableBuilder) :
    (r.flushed sn).file.contents.length
      = r.file.contents.length + ((r.flushed sn).pendingHandle.size + 5) := by
  rw [flushed, List.length_append, length_storedBlock]

/-- Before the filter is told, all but its part of the invariant holds. -/
theorem Building.flushed (hb : Building sn K c P q r blocks none current) (hne : current ≠ [])
    (hsmall : (r.flushed sn).file.contents.length < 2 ^ 63) (fb : Option FilterBlockBuilder)
    (hfb : ∀ fb', fb = some fb' → Filtered q fb' (r.flushed sn).offset
      (placedBlocks blocks none ++ [((r.flushed sn).pendingHandle, current)]) []) :
    Building sn K c P q { r.flushed sn with filterBlock := fb } blocks
      (some ((r.flushed sn).pendingHandle, current)) [] := by
  have hlength := length_flushed sn r
  have hplaced : placedBlocks blocks (some ((r.flushed sn).pendingHandle, current))
      = placedBlocks blocks none ++ [((r.flushed sn).pendingHandle, current)] := by
    simp [placedBlocks]
  have hoffset : (r.flushed sn).offset = r.offset + ((r.flushed sn).pendingHandle.size + 5) := by
    change (r.offset + ((r.flushed sn).pendingHandle.size + 5)) % 2 ^ 64 = _
    rw [hb.offset_eq, Nat.mod_eq_of_lt (by omega)]
  exact {
    closed_eq := hb.closed_eq
    status_eq := rfl
    sound := hb.sound
    offset_eq := by
      change (r.flushed sn).offset = (r.flushed sn).file.contents.length
      rw [hoffset, hlength, hb.offset_eq]
    small := hsmall
    comparator_eq := hb.comparator_eq
    allowed := hb.allowed
    interval_pos := hb.interval_pos
    indexComparator_eq := hb.indexComparator_eq
    indexInterval_eq := hb.indexInterval_eq
    layout := hb.layout.flush hne _
    stored := by
      rw [hplaced]
      intro w hw
      rcases List.mem_append.mp hw with hw | hw
      · exact (hb.stored w hw).append _
      · rw [List.mem_singleton.mp hw]
        refine ⟨r.dataBlock, r.options.compression, hb.data_eq, hb.allowed, ?_⟩
        change Stored _ ⟨r.offset, _⟩ _ _
        rw [hb.offset_eq]
        exact stored_append_block _ _ _
    pending_eq := rfl
    pending_handle := by
      rintro _ ⟨⟩
      rfl
    data_eq := BlockBuilder.holds_reset
    index_eq := hb.index_eq
    indexCounter_le := hb.indexCounter_le
    numEntries_eq := by
      rw [allEntries, restEntries, Option.map_some, Option.getD_some, List.append_nil]
      exact hb.numEntries_eq
    contiguous := by
      rw [hplaced, List.map_append]
      change Contiguous 0 _ (r.flushed sn).offset
      rw [hoffset]
      exact hb.contiguous.snoc rfl
    filtered := by
      rw [hplaced]
      exact hfb }

theorem Building.flush (hb : Building sn K c P q r blocks pending current)
    (hsmall : (outcome (r.flush sn)).file.contents.length < 2 ^ 63) :
    ∃ r' pending', r.flush sn = .ok r' ∧ Building sn K c P q r' blocks pending' [] ∧
      restEntries pending' [] = restEntries pending current ∧ r'.options = r.options ∧
      r'.lastKey = r.lastKey ∧ (r'.filterBlock = none ↔ r.filterBlock = none) ∧
      (r' = r ∨ r'.dataBlock.counter = 0) := by
  by_cases hcurrent : current = []
  · subst hcurrent
    refine ⟨r, pending, ?_, hb, rfl, rfl, rfl, Iff.rfl, .inl rfl⟩
    have hempty : r.dataBlock.empty = true := hb.data_eq.empty_iff.mpr rfl
    simp [TableBuilder.flush, hb.closed_eq, hb.status_eq, hempty]
  obtain rfl : pending = none := by
    by_contra hne
    exact hcurrent (hb.layout.pending_current hne)
  rw [flush_eq_flushed hb hcurrent] at hsmall ⊢
  have hflushed : (r.flushed sn).file.contents.length < 2 ^ 63 :=
    Nat.lt_of_le_of_lt (startFilterBlock_grows (r.flushed sn)).outcome_ge hsmall
  have hrest : restEntries (some ((r.flushed sn).pendingHandle, current)) []
      = restEntries none current := List.append_nil current
  rw [startFilterBlock, show (r.flushed sn).filterBlock = r.filterBlock from rfl]
  cases hfilter : r.filterBlock with
  | none =>
    have hbuilding := hb.flushed hcurrent hflushed none fun fb' hfb' => by cases hfb'
    rw [← hfilter] at hbuilding
    exact ⟨r.flushed sn, _, rfl, hbuilding, hrest, rfl, rfl,
      by simp [TableBuilder.flushed, hfilter], .inr rfl⟩
  | some fb =>
    have hoffset : r.offset ≤ (r.flushed sn).offset := by
      have hbuilding := hb.flushed hcurrent hflushed none fun fb' hfb' => by cases hfb'
      have hoffset' : (r.flushed sn).offset = (r.flushed sn).file.contents.length :=
        hbuilding.offset_eq
      rw [hoffset', hb.offset_eq, length_flushed]
      exact Nat.le_add_right _ _
    obtain ⟨fb', hstart, hfiltered⟩ :=
      (hb.filtered fb hfilter).startBlock hoffset (r.flushed sn).pendingHandle.size
    refine ⟨{ r.flushed sn with filterBlock := some fb' }, _, ?_,
      hb.flushed hcurrent hflushed (some fb') fun fb₁ hfb₁ => ?_, hrest, rfl, rfl,
      by simp, .inr rfl⟩
    · simp only [hstart]
      rfl
    · obtain rfl := Option.some.inj hfb₁
      exact hfiltered

/-! ### `Add` -/

/-- The block that was waiting gets its index entry. -/
theorem Indexed.addIndexEntry (hc : c.Lawful P) {es : List (Bytes × Bytes)}
    (hb : Indexed sn K c P r blocks (some (h, es)) []) {sep : Bytes}
    (hsep : ∀ a ∈ es, c.compare a.1 sep ≠ .gt) :
    ∃ indexBlock, r.addIndexEntry (some sep)
        = .ok { r with indexBlock, lastKey := sep, pendingIndexEntry := false } ∧
      Indexed sn K c P { r with indexBlock, lastKey := sep, pendingIndexEntry := false }
        (blocks ++ [⟨sep, h, es⟩]) none [] := by
  have htrans := hc.trans
  have hlast : (h, es) ∈ placedBlocks blocks (some (h, es)) :=
    List.mem_append_right _ (List.mem_singleton_self _)
  have hset : r.pendingHandle.Set := by
    rw [hb.pending_handle _ rfl]
    exact (hb.stored _ hlast).set hb.small
  have hkey : ∀ a, (blocks.map DataBlock.indexEntry).getLast? = some a →
      c.compare sep a.1 = .gt := by
    intro a ha
    obtain ⟨b, hb', rfl⟩ := List.mem_map.mp (List.mem_of_getLast? ha)
    obtain ⟨x, hx⟩ := List.exists_mem_of_ne_nil es (hb.layout.nonempty _ hlast)
    have hlt := (hb.layout.parts_rest b hb' x (List.mem_append_left _ hx)).separator_lt hc
    exact Std.OrientedCmp.gt_iff_lt.mpr (Std.TransCmp.lt_of_lt_of_isLE hlt
      (Ordering.isLE_iff_ne_gt.mpr (hsep x hx)))
  obtain ⟨indexBlock, hadd, hholds, hcounter⟩ := hb.index_eq.add c.compare sep
    r.pendingHandle.encoding (Nat.le_refl 1) hb.indexCounter_le hkey
  refine ⟨indexBlock, ?_, ?_⟩
  · simp only [TableBuilder.addIndexEntry, orAbort, bind, Except.bind,
      BlockHandle.encodeTo_of_set hset, List.nil_append, BlockBuilder.addWith,
      hb.indexComparator_eq, hb.indexInterval_eq, hadd]
  · exact { hb with
      layout := hb.layout.close hsep
      stored := by
        rw [placedBlocks_close]
        exact hb.stored
      pending_eq := rfl
      pending_handle := by simp
      index_eq := by
        rw [hb.pending_handle _ rfl] at hholds
        rw [List.map_append]
        exact hholds
      indexCounter_le := hcounter }

/-- What is left of the block before is done, and the index keys are ready for `key`. -/
theorem Ready.addPending (hc : c.Lawful P) (hr : Ready sn K c P q r blocks pending current)
    {key : Bytes} (hkey : P key)
    (hlt : ∀ a ∈ allEntries blocks pending current, c.compare a.1 key = .lt) :
    ∃ r' blocks', r.addPending key = .ok r' ∧ Building sn K c P q r' blocks' none current ∧
      allEntries blocks' none current = allEntries blocks pending current ∧
      (∀ b ∈ blocks', b.Parts c P key) ∧ r'.options = r.options ∧ r'.dataBlock = r.dataBlock ∧
      r'.filterBlock = r.filterBlock ∧ placedBlocks blocks' none = placedBlocks blocks pending := by
  have htrans := hc.trans
  have hb := hr.toBuilding
  have hnext := hb.layout.parts_next hc hr.start_eq hlt
  cases pending with
  | none =>
    refine ⟨r, blocks, ?_, hb, rfl, hnext, rfl, rfl, rfl, rfl⟩
    rw [TableBuilder.addPending, hb.pending_eq]
    rfl
  | some w =>
    obtain ⟨h, es⟩ := w
    obtain rfl : current = [] := hb.layout.pending_current (by simp)
    -- the separator is made of the last key of the block and of the new key
    obtain ⟨x, hxes, hlast, hxall, hPx, hle⟩ := hb.layout.pending_last hc
    have hlastKey : r.lastKey = x.1 := hr.lastKey_eq x hlast
    obtain ⟨sep, hfind, hge, -⟩ := hc.separator hPx hkey (hlt x hxall)
    have hsep : ∀ a ∈ es, c.compare a.1 sep ≠ .gt := by
      intro a ha
      exact Ordering.isLE_iff_ne_gt.mp (Std.TransCmp.isLE_trans
        (Ordering.isLE_iff_ne_gt.mpr (hle a ha)) (Ordering.isLE_iff_ne_gt.mpr hge))
    obtain ⟨indexBlock, hadd, hindexed⟩ := hb.addIndexEntry hc hsep
    refine ⟨_, _, ?_, { hindexed with
      closed_eq := hb.closed_eq
      data_eq := hb.data_eq
      numEntries_eq := by
        rw [allEntries_close]
        exact hb.numEntries_eq
      contiguous := by
        rw [placedBlocks_close]
        exact hb.contiguous
      filtered := by
        rw [placedBlocks_close]
        exact hb.filtered }, allEntries_close _ _ _ _, ?_, rfl, rfl, rfl,
      placedBlocks_close _ _ _ _⟩
    · have hempty : r.dataBlock.empty = true := hb.data_eq.empty_iff.mpr rfl
      rw [TableBuilder.addPending, hb.pending_eq, hb.comparator_eq, hlastKey, hfind]
      simp only [Option.isSome_some, if_true, hempty, hadd]
    · intro b hb₁
      rcases List.mem_append.mp hb₁ with hb₁ | hb₁
      · exact hnext b hb₁
      · rw [List.mem_singleton.mp hb₁]
        have heq : c.compare key key = .eq := Std.ReflCmp.compare_self
        exact ⟨x, hxes, key, hPx, hkey, hlt x hxall, hfind, by rw [heq]; decide⟩

/-- The entry itself, and what it sets off. -/
theorem Building.addEntry (hb : Building sn K c P q r blocks none current) {key value : Bytes}
    (hkey : P key) (hlt : ∀ a ∈ allEntries blocks none current, c.compare a.1 key = .lt)
    (hparts : ∀ b ∈ blocks, b.Parts c P key)
    (hcounter : r.dataBlock.counter ≤ r.options.blockRestartInterval)
    (hsmall : (outcome (r.addEntry sn key value)).file.contents.length < 2 ^ 63)
    (hc : c.Lawful P) :
    ∃ r' pending' current', r.addEntry sn key value = .ok r' ∧
      Ready sn K c P q r' blocks pending' current' ∧
      allEntries blocks pending' current' = allEntries blocks none current ++ [(key, value)] ∧
      r'.options = r.options ∧ (r'.filterBlock = none ↔ r.filterBlock = none) ∧
      r'.dataBlock.counter ≤ r'.options.blockRestartInterval := by
  have htrans := hc.trans
  have hgt : ∀ a, current.getLast? = some a → c.compare key a.1 = .gt := by
    intro a ha
    exact Std.OrientedCmp.gt_iff_lt.mpr
      (hlt a (List.mem_append_right _ (List.mem_of_getLast? ha)))
  obtain ⟨dataBlock, hadd, hholds, hcount⟩ :=
    hb.data_eq.add c.compare key value hb.interval_pos hcounter hgt
  have hall : allEntries blocks none (current ++ [(key, value)])
      = allEntries blocks none current ++ [(key, value)] := by
    simp [allEntries, restEntries]
  -- the builder with the entry in its block
  generalize hr₁ : ({ r with
    filterBlock := r.filterBlock.map (FilterBlockBuilder.addKey key)
    lastKey := key
    numEntries := r.numEntries + 1
    dataBlock } : TableBuilder) = r₁
  have hb₁ : Building sn K c P q r₁ blocks none (current ++ [(key, value)]) := by
    subst hr₁
    exact { hb with
      layout := hb.layout.snoc hkey hlt hparts
      data_eq := hholds
      numEntries_eq := by
        rw [hall, List.length_append, ← hb.numEntries_eq]
        rfl
      filtered := by
        intro fb hfb
        obtain ⟨fb₀, hfb₀, rfl⟩ := Option.map_eq_some_iff.mp hfb
        exact (hb.filtered fb₀ hfb₀).addKey key value }
  have hlastKey : ∀ a, (allEntries blocks none (current ++ [(key, value)])).getLast? = some a →
      key = a.1 := by
    intro a ha
    rw [hall, List.getLast?_concat] at ha
    cases ha
    rfl
  have hrest : restEntries none (current ++ [(key, value)]) ≠ [] := by simp [restEntries]
  have heq : r.addEntry sn key value
      = if r.options.blockSize ≤ dataBlock.currentSizeEstimate then r₁.flush sn else .ok r₁ := by
    rw [← hr₁]
    simp only [TableBuilder.addEntry, BlockBuilder.addWith, hb.comparator_eq, hadd, orAbort, bind,
      Except.bind]
  have hoptions : r₁.options = r.options := by rw [← hr₁]
  have hfilter : r₁.filterBlock = none ↔ r.filterBlock = none := by
    rw [← hr₁]
    exact Option.map_eq_none_iff
  have hkeyeq : r₁.lastKey = key := by rw [← hr₁]
  have hblock : r₁.dataBlock = dataBlock := by rw [← hr₁]
  rw [heq] at hsmall ⊢
  split at hsmall
  · next hfull =>
    obtain ⟨r', pending', hflush, hb', hrest', hopt', hlast', hnone', hcount'⟩ := hb₁.flush hsmall
    have hall' :
        allEntries blocks pending' [] = allEntries blocks none (current ++ [(key, value)]) := by
      rw [allEntries, allEntries, hrest']
    refine ⟨r', pending', [], ?_, ⟨hb', .inl (hrest' ▸ hrest), ?_⟩, hall'.trans hall,
      hopt'.trans hoptions, hnone'.trans hfilter, ?_⟩
    · rw [if_pos hfull, hflush]
    · rw [hall', hlast', hkeyeq]
      exact hlastKey
    · rw [hopt', hoptions]
      rcases hcount' with rfl | hzero
      · rw [hblock]
        exact hcount
      · rw [hzero]
        exact Nat.zero_le _
  · next hfull =>
    refine ⟨r₁, none, _, if_neg hfull, ⟨hb₁, .inl hrest, ?_⟩, hall, hoptions, hfilter, ?_⟩
    · rw [hkeyeq]
      exact hlastKey
    · rw [hoptions, hblock]
      exact hcount

/-- **One call of `Add`.** -/
theorem Ready.add (hc : c.Lawful P) (hr : Ready sn K c P q r blocks pending current)
    {key value : Bytes} (hkey : P key)
    (hlt : ∀ a ∈ allEntries blocks pending current, c.compare a.1 key = .lt)
    (hcounter : r.dataBlock.counter ≤ r.options.blockRestartInterval)
    (hsmall : (outcome (r.add sn key value)).file.contents.length < 2 ^ 63) :
    ∃ r' blocks' pending' current', r.add sn key value = .ok r' ∧
      Ready sn K c P q r' blocks' pending' current' ∧
      allEntries blocks' pending' current'
        = allEntries blocks pending current ++ [(key, value)] ∧
      r'.options = r.options ∧ (r'.filterBlock = none ↔ r.filterBlock = none) ∧
      r'.dataBlock.counter ≤ r'.options.blockRestartInterval ∧
      ∀ b ∈ blocks', b.placed ∈ placedBlocks blocks pending := by
  have htrans := hc.trans
  have hb := hr.toBuilding
  have horder : ¬ (0 < r.numEntries ∧ r.options.comparator.compare key r.lastKey ≠ .gt) := by
    rintro ⟨hpos, hne⟩
    rw [hb.numEntries_eq] at hpos
    obtain ⟨a, ha⟩ : ∃ a, (allEntries blocks pending current).getLast? = some a :=
      ⟨_, List.getLast?_eq_some_getLast (List.length_pos_iff.mp hpos)⟩
    rw [hb.comparator_eq, hr.lastKey_eq a ha] at hne
    exact hne (Std.OrientedCmp.gt_iff_lt.mpr (hlt a (List.mem_of_getLast? ha)))
  obtain ⟨r₁, blocks', hpending, hb₁, hall₁, hparts, hopt₁, hdata₁, hfilter₁, hplaced₁⟩ :=
    hr.addPending hc hkey hlt
  have heq : r.add sn key value = r₁.addEntry sn key value := by
    rw [TableBuilder.add, hb.closed_eq, hb.status_eq, if_neg horder, hpending]
    rfl
  rw [heq] at hsmall ⊢
  obtain ⟨r', pending', current', hadd, hr', hall', hopt', hnone', hcount'⟩ :=
    hb₁.addEntry hkey (hall₁ ▸ hlt) hparts (by rwa [hopt₁, hdata₁]) hsmall hc
  refine ⟨r', blocks', pending', current', hadd, hr', hall'.trans (by rw [hall₁]),
    hopt'.trans hopt₁, ?_, hcount', fun b hb => ?_⟩
  · rw [hnone', hfilter₁]
  · rw [← hplaced₁]
    exact List.mem_append_left _ (List.mem_map_of_mem hb)

end TableBuilder

end Squirrel
