import Squirrel.Table.BlockCacheIterators
import Squirrel.Table.TableRoundTrip

/-!
# The block cache cannot be seen

Programs that open tables which a `TableBuilder` has written get the same from every operation
whether there is a block cache or not, for any capacity. With or without it, what they do in memory
is what they do without any memory (`BlockCache.step_simulates`). The invariant on the memory needs
to know the block that a key of the cache stands for: keys have the number of the table, and no
table has two blocks at one offset.

Without a cache this holds for any files. With one, two limits remain: with `2 ^ 32 - 2` iterators
in one block the reference count can wrap, and a shard with `2 ^ 31` entries cannot grow.

## Main definitions

* `BlockCache.Written` — the files that a `TableBuilder` writes
* `BlockCache.Few` — no block is held by too many iterators

## Main results

* `BlockCache.outputs_uncached` — runs without a cache
* `BlockCache.transparent` — with and without a cache
* `BlockCache.not_transparent` — a run beyond the limit
-/

namespace Squirrel

open Coding Block Function

/-- The bytes are what a `TableBuilder` has written, without compression, from keys in order. -/
inductive BlockCache.Written (sn : Snappy) (c : Comparator) (contents : Bytes) : Prop
  | of_build {P : Bytes → Prop} {options : Options} {file : WritableFile}
    {calls : List TableBuilder.Call}
      {r r' : TableBuilder} (new : TableBuilder.new options file = some r)
      (build : r.build sn calls = .ok r') (contents_eq : r'.file.contents = contents)
      (comparator_eq : options.comparator = c) (lawful : c.Lawful P)
      (compression : options.compression = .kNoCompression) (empty : file.contents = [])
      (sound : file.Sound) (fits : TableBuilder.OptionsFit (· = .kNoCompression) calls)
      (counters : TableBuilder.CountersFit sn r calls)
      (keys : ∀ a ∈ TableBuilder.added calls, P a.1)
      (sorted : (TableBuilder.added calls).Pairwise fun a b => c.compare a.1 b.1 = .lt)
      (appends : ∀ p, options.filterPolicy = some p → p.Appends)
      (policy : options.filterPolicy.isSome = true →
        (TableBuilder.finalOptions options calls).filterPolicy.isSome = true) :
      Written sn c contents

namespace BlockCache

/-! ### Files -/

/-- What a builder has written is a finished table. That its filters can be used does not matter
here, so the policy is taken to be one that accepts everything. -/
theorem Written.tableFile {sn : Snappy} {c : Comparator} {contents : Bytes}
    (h : Written sn c contents) (hsmall : contents.length < 2 ^ 63) :
    ∃ P q blocks, c.Lawful P ∧ TableFile sn (· = .kNoCompression) c P q contents blocks := by
  obtain ⟨hnew, hbuild, rfl, rfl, hlawful, hcompression, hempty, hsound, hfits, hcounters, hkeys,
    hsorted, happends, hpolicy⟩ := h
  rename_i P options file calls r r'
  obtain ⟨q, hread, hnamed⟩ :=
    FilterPolicy.exists_reader happends (TableBuilder.finalOptions options calls).filterPolicy
  obtain ⟨r₁, hnew₁, hready, hopt, hnone, -⟩ := TableBuilder.ready_new sn (P := P)
    (K := (· = .kNoCompression)) hempty hsound (TableBuilder.interval_of_new hnew) hcompression
    hread
  obtain rfl : r₁ = r := Option.some.inj (hnew₁.symm.trans hnew)
  have hfinal : r₁.filterBlock ≠ none →
      (TableBuilder.finalOptions r₁.options calls).filterPolicy.map FilterPolicy.name
        = some q.name := by
    intro hne
    have hsome := hpolicy (Option.isSome_iff_ne_none.mpr fun h => hne (hnone.mpr h))
    rw [hopt]
    exact hnamed (Option.isSome_iff_ne_none.mp hsome)
  obtain ⟨r₂, blocks, hbuild₂, -, -, -, htable, -⟩ := hready.build hlawful hcounters hfits hfinal
    hkeys hsorted (by rw [hbuild]; exact hsmall)
  obtain rfl : r₂ = r' := Except.ok.inj (hbuild₂.symm.trans hbuild)
  exact ⟨P, q, blocks, hlawful, htable⟩

/-- Offsets in a block are 32-bit numbers, and the index block stays below that. -/
def IndexFits (contents : Bytes) : Prop :=
  ∀ footer, Footer.decodeFrom (contents.drop (contents.length - Footer.kEncodedLength))
    = some (.ok footer) → footer.indexHandle.size < 2 ^ 32

/-- What is known of a table that has been opened. -/
structure Entry where
  table : CachedTable
  /-- The entries of the index. -/
  index : List (Bytes × Bytes)
  /-- The block at an offset. -/
  block : ℕ → Option Block

/-- The index of the table is a cursor on the entries, and their values stand for the blocks. -/
structure Entry.Sound (sn : Snappy) (junk : ℕ → UInt8) (e : Entry) : Prop where
  index : (AnyIter.iterator e.table.table.options.comparator.compare).Behaves
    (fun a k => e.table.table.options.comparator.compare a.1 k = .lt) e.index
    e.table.table.indexBlock.newIterator none
  serves : ∀ a ∈ e.index, ∃ handle rest block, BlockHandle.decodeFrom a.2 = .ok (handle, rest) ∧
    handle.offset < 2 ^ 64 ∧ e.block handle.offset = some block ∧
    ∀ verify, ∃ contents, readBlock sn junk e.table.table.file verify handle
      = some (.success, contents) ∧
      Block.new contents.data = block ∧ contents.data.length < 2 ^ 64

section

variable {sn : Snappy} {K : CompressionType → Prop} {c : Comparator} {P : Bytes → Prop}
  {q : FilterPolicy} {f : RandomAccessFile} {blocks : List DataBlock} {options : Options}
  {table : Table} {s : Status}

/-- What `Open` has found in a finished table. -/
theorem openTable_inv (ht : TableFile sn K c P q f.contents blocks) (hK : Uncompressed sn K)
    (hread : f.Readable) (hsmall : f.contents.length < 2 ^ 63) (hfits : IndexFits f.contents)
    {junk : ℕ → UInt8}
    (hopen : Table.openTable sn junk options f f.contents.length = some (s, some table)) :
    table.options = options ∧ table.file = f ∧ ∃ b : BlockBuilder,
      b.Holds (blocks.map DataBlock.indexEntry) ∧ b.finish.1.length < 2 ^ 32 ∧
      table.indexBlock = .new b.finish.1 := by
  obtain ⟨footer, _, hsections⟩ := ht.sections
  obtain ⟨front, hfile⟩ := hsections.ends
  have hindex := hsections.index
  have hmeta := hsections.metaindex
  have hlen : footer.encoding.length = Footer.kEncodedLength :=
    Footer.length_encoding (hmeta.set hsmall) (hindex.set hsmall)
  obtain ⟨s', d, hd, hbytes⟩ := Table.read_footer hfile hread hsmall (by rw [hlen]; decide)
  rw [hlen] at hd
  have hdecode : Footer.decodeFrom footer.encoding = some (.ok footer) :=
    Footer.decodeFrom_encodeTo (hmeta.set hsmall) (hindex.set hsmall)
  obtain ⟨b, hb, hsize, -, hblock⟩ := hindex.readBlock_size hK hread hsmall junk
  obtain ⟨block, hblock, hdata⟩ := hblock options.paranoidChecks
  have hlong : ¬ f.contents.length < Footer.kEncodedLength := by
    rw [hfile, List.length_append, hlen]
    omega
  have hindexFits : b.finish.1.length < 2 ^ 32 := by
    rw [hsize]
    exact hfits footer (decodeFrom_footer hfile (hmeta.set hsmall) (hindex.set hsmall))
  rw [Table.openTable, if_neg hlong, hd] at hopen
  simp only [hbytes, hdecode, hblock, hdata, Option.bind_eq_bind, Option.bind_some,
    Status.ok_success, if_true] at hopen
  obtain ⟨filter, -, hopen⟩ := Option.bind_eq_some_iff.mp hopen
  cases hopen
  exact ⟨rfl, rfl, b, hb, hindexFits, rfl⟩

/-- **A table that a builder has written**, once it has been opened. -/
theorem exists_entry (hw : Written sn options.comparator f.contents) (hread : f.Readable)
    (hsmall : f.contents.length < 2 ^ 63) (hfits : IndexFits f.contents) {junk : ℕ → UInt8}
    (hopen : Table.openTable sn junk options f f.contents.length = some (s, some table))
    (cacheId : ℕ) : ∃ e : Entry, e.table = ⟨table, cacheId⟩ ∧ e.Sound sn junk := by
  obtain ⟨P, q, blocks, hc, ht⟩ := hw.tableFile hsmall
  have hK := TableBuilder.uncompressed_kNoCompression sn
  obtain ⟨rfl, rfl, b, hb, hlen, hindex⟩ := openTable_inv ht hK hread hsmall hfits hopen
  have htrans := hc.trans
  refine ⟨⟨⟨table, cacheId⟩, blocks.map DataBlock.indexEntry, fun offset => do
    let b ← blocks.find? fun b => b.handle.offset = offset
    let p ← readBlock sn junk table.file true b.handle
    some (.new p.2.data)⟩, rfl, ?_, ?_⟩
  · dsimp only
    rw [hindex]
    exact (hb.behaves hlen (Table.sorted_index hc ht.layout)).imp fun _ _ => trivial
  · rintro _ ha
    obtain ⟨d, hd, rfl⟩ := List.mem_map.mp ha
    obtain ⟨block, -, hsize, hle, hreads⟩ := (ht.stored d hd).readBlock_size hK hread hsmall junk
    obtain ⟨contents, hcontents, hdata⟩ := hreads true
    have hfind : (blocks.find? fun b => b.handle.offset = d.handle.offset) = some d := by
      cases hfind : blocks.find? fun b => b.handle.offset = d.handle.offset with
      | none => exact absurd (List.find?_eq_none.mp hfind d hd) (by simp)
      | some d' =>
        have hoffset := List.find?_some hfind
        rw [Table.handle_inj ht.contiguous d' (List.mem_of_find?_eq_some hfind) d hd
          (by simpa using hoffset)]
    refine ⟨d.handle, [], .new block.finish.1, ?_, ?_, ?_, fun verify => ?_⟩
    · exact Table.decodeFrom_encoding_nil ((ht.stored d hd).set hsmall)
    · omega
    · simp only [hfind, hcontents, hdata, Option.bind_eq_bind, Option.bind_some]
    · obtain ⟨contents', hcontents', hdata'⟩ := hreads verify
      refine ⟨contents', hcontents', by rw [hdata'], ?_⟩
      rw [hdata', hsize]
      omega

end

/-! ### The invariant -/

/-- The blocks that keys of the cache stand for. -/
def Names (entries : List Entry) (k : Bytes) (block : Block) : Prop :=
  ∃ e ∈ entries, ∃ offset < 2 ^ 64, e.block offset = some block ∧
    k = CachedTable.cacheKey e.table.cacheId offset

/-- What is known of the cache. Without one, no table gets a number. -/
def ledger (cached : Bool) (entries : List Entry) : Ledger :=
  ⟨cached, if cached then entries.length else 0, Names entries⟩

/-- The numbers of the tables are those that `NewId` returns. -/
def Counted (entries : List Entry) : Prop :=
  ∀ i e, entries[i]? = some e → e.table.cacheId = i + 1

theorem cacheKey_inj {id id' offset offset' : ℕ} (hid : id < 2 ^ 64) (hid' : id' < 2 ^ 64)
    (hoffset : offset < 2 ^ 64) (hoffset' : offset' < 2 ^ 64)
    (h : CachedTable.cacheKey id offset = CachedTable.cacheKey id' offset') :
    id = id' ∧ offset = offset' := by
  have hinj : ∀ v w, v < 2 ^ 64 → w < 2 ^ 64 → encodeFixed64 v = encodeFixed64 w → v = w := by
    intro v w hv hw heq
    have hdecode := decodeFixed64_encodeFixed64 v []
    rw [heq, decodeFixed64_encodeFixed64, Nat.mod_eq_of_lt hv, Nat.mod_eq_of_lt hw] at hdecode
    exact hdecode.symm
  obtain ⟨hfront, hback⟩ := List.append_inj h (by rw [length_encodeFixed64, length_encodeFixed64])
  exact ⟨hinj id id' hid hid' hfront, hinj offset offset' hoffset hoffset' hback⟩

/-- **A key stands for one block.** -/
theorem Counted.names_inj {entries : List Entry} (h : Counted entries)
    (hfew : entries.length < 2 ^ 64) {k : Bytes} {block block' : Block} (hk : Names entries k block)
    (hk' : Names entries k block') :
    block = block' := by
  obtain ⟨e, he, offset, hoffset, hblock, rfl⟩ := hk
  obtain ⟨e', he', offset', hoffset', hblock', heq⟩ := hk'
  obtain ⟨i, hi⟩ := List.getElem?_of_mem he
  obtain ⟨j, hj⟩ := List.getElem?_of_mem he'
  have hilt := (List.getElem?_eq_some_iff.mp hi).1
  have hjlt := (List.getElem?_eq_some_iff.mp hj).1
  rw [h i e hi, h j e' hj] at heq
  obtain ⟨hid, rfl⟩ := cacheKey_inj (by omega) (by omega) hoffset hoffset' heq
  obtain rfl : i = j := by omega
  obtain rfl := Option.some.inj (hi.symm.trans hj)
  exact Option.some.inj (hblock.symm.trans hblock')

/-- An iterator that belongs to a table in the list, and stands somewhere in its index. -/
def OpenIterator.Placed (cached : Bool) (entries : List Entry) (it : OpenIterator) : Prop :=
  ∃ e ∈ entries, e.table = it.table ∧ ∃ pos, cached = true →
    it.iter.indexIter.StandsAt e.table.levels.index (fun _ => True)
      (fun a k => e.table.table.options.comparator.compare a.1 k = .lt) e.index pos

/-- The iterators over blocks that the program has. -/
def dataIters (iterators : List OpenIterator) : List DataIter :=
  iterators.flatMap fun it => CachedTable.dataIters it.iter

/-- The invariant of programs. It says something of the tables only if there is a cache. -/
structure Inv (sn : Snappy) (junk : ℕ → UInt8) (cached : Bool) (entries : List Entry) (w : World) :
    Prop where
  tables_eq : w.tables = entries.map Entry.table
  counted : cached = true → Counted entries
  few : cached = true → entries.length < 2 ^ 64
  sound : cached = true → ∀ e ∈ entries, e.Sound sn junk
  placed : ∀ it ∈ w.iterators, it.Placed cached entries
  memory : ∃ order, w.memory.Inv (ledger cached entries) order (dataIters w.iterators)

/-- The program without the memory. -/
def OpenIterator.plain (it : OpenIterator) : PlainIterator :=
  ⟨it.table.table, it.options.verifyChecksums, CachedTable.plain it.iter⟩

def World.plain (w : World) : Plain :=
  ⟨w.tables.map CachedTable.table, w.iterators.map OpenIterator.plain⟩

namespace Inv

variable {sn : Snappy} {junk : ℕ → UInt8} {cached : Bool} {entries : List Entry} {w : World}

theorem indexes (h : Inv sn junk cached entries w) {e : Entry} (he : e ∈ entries)
    (hcached : cached = true) :
    CachedTable.Indexes sn junk (ledger cached entries) e.table e.index where
  index := (h.sound hcached e he).index
  serves := by
    intro a ha
    obtain ⟨handle, rest, block, hdecode, hoffset, hblock, hread⟩ :=
      (h.sound hcached e he).serves a ha
    exact ⟨handle, rest, block, hdecode, ⟨e, he, handle.offset, hoffset, hblock, rfl⟩, hread⟩
  names _ := fun _ _ _ hk hk' => (h.counted hcached).names_inj (h.few hcached) hk hk'

/-- An iterator, and the rest of the program. -/
theorem stands (h : Inv sn junk cached entries w) {i : ℕ} {it : OpenIterator}
    (hi : w.iterators[i]? = some it) :
    ∃ e ∈ entries, e.table = it.table ∧
      CachedTable.Stands (ledger cached entries) e.table e.index
        (dataIters (w.iterators.eraseIdx i))
        (CachedTable.plain it.iter) (it.iter, w.memory) := by
  obtain ⟨hlt, rfl⟩ := List.getElem?_eq_some_iff.mp hi
  obtain ⟨e, he, htable, pos, hat⟩ := h.placed _ (List.getElem_mem hlt)
  obtain ⟨order, hinv⟩ := h.memory
  refine ⟨e, he, htable, pos, rfl, hat, order, hinv.perm ?_⟩
  exact ((List.getElem_cons_eraseIdx_perm hlt).symm.flatMap_right _)

end Inv

/-! ### Steps -/

/-- A table is opened. -/
def Op.opens : Op → Bool
  | .openTable _ _ => true
  | _ => false

/-- No reference count can wrap while the operation runs: no block in the cache is held by too many
iterators, apart from the one that is moved. -/
def Op.Fits (w : World) : Op → Prop
  | .move i _ => CachedTable.Holdable 2 (dataIters (w.iterators.eraseIdx i))
  | .internalGet _ _ _ => CachedTable.Holdable 1 (dataIters w.iterators)
  | _ => True

/-- No reference count wraps in the run. -/
def Few (sn : Snappy) (junk : ℕ → UInt8) : World → List Op → Prop
  | _, [] => True
  | w, op :: ops => op.Fits w ∧ ∀ r, step sn junk w op = .ok r → Few sn junk r.2 ops

instance (w : World) : (op : Op) → Decidable (op.Fits w)
  | .openTable _ _ => .isTrue trivial
  | .newIterator _ _ => .isTrue trivial
  | .move i _ =>
    inferInstanceAs (Decidable (CachedTable.Holdable 2 (dataIters (w.iterators.eraseIdx i))))
  | .look _ => .isTrue trivial
  | .deleteIterator _ => .isTrue trivial
  | .internalGet _ _ _ =>
    inferInstanceAs (Decidable (CachedTable.Holdable 1 (dataIters w.iterators)))

instance decidableFew (sn : Snappy) (junk : ℕ → UInt8) :
    (w : World) → (ops : List Op) → Decidable (Few sn junk w ops)
  | _, [] => .isTrue trivial
  | w, op :: ops =>
    have := fun r : Output × World => decidableFew sn junk r.2 ops
    inferInstanceAs (Decidable (op.Fits w ∧ ∀ r, step sn junk w op = .ok r → Few sn junk r.2 ops))

/-- Tables are opened on files that a builder with the same comparator has written, and that can be
read. -/
def OnWrittenFiles (sn : Snappy) (ops : List Op) : Prop :=
  ∀ options f, Op.openTable options f ∈ ops → Written sn options.comparator f.contents ∧
    f.Readable ∧ f.contents.length < 2 ^ 63 ∧ IndexFits f.contents

/-- `NewId`, for the next table. -/
theorem newId_inv {cached : Bool} {entries : List Entry} {m : BlockMemory}
    {order : Fin kNumShards → List ℕ} {its : List DataIter} (e : Entry)
    (h : m.Inv (ledger cached entries) order its)
    (hfew : cached = true → entries.length + 1 < 2 ^ 64) :
    (newId m).2.Inv (ledger cached (entries ++ [e])) order its ∧
      (cached = true → (newId m).1 = entries.length + 1) := by
  have hnames : ∀ k block, Names entries k block → Names (entries ++ [e]) k block := by
    rintro k block ⟨e', he', hblock⟩
    exact ⟨e', List.mem_append_left _ he', hblock⟩
  have hsome : m.blockCache.isSome = cached := h.isSome_eq
  have hlast : m.cache.lastId = if cached then entries.length else 0 := h.lastId_eq
  have hmono := h.mono hnames
  rw [newId]
  cases hc : m.blockCache with
  | none =>
    rw [hc] at hsome
    obtain rfl : false = cached := hsome
    exact ⟨{ hmono with lastId_eq := hlast }, by simp⟩
  | some c =>
    rw [hc] at hsome
    obtain rfl : true = cached := hsome
    have hm : m.cache = c := by rw [BlockMemory.cache, hc]; rfl
    rw [hm, if_pos rfl] at hlast
    have hid : c.newId.1 = entries.length + 1 := by
      rw [ShardedLRUCache.newId, hlast, Nat.mod_eq_of_lt (hfew rfl)]
    have hcache := hmono.cache
    have hnumbered := hmono.numbered
    have howns := hmono.owns
    have hapart := hmono.apart
    have hnamed := hmono.names
    rw [hm] at hcache hnumbered howns hapart hnamed
    refine ⟨?_, fun _ => hid⟩
    exact {
      isSome_eq := rfl
      lastId_eq := by
        have hlen : (ledger true (entries ++ [e])).lastId = entries.length + 1 := by
          rw [ledger, if_pos rfl, List.length_append, List.length_singleton]
        rw [hlen]
        exact hid
      cache := ⟨hcache.shard, hcache.home⟩
      numbered := ⟨hnumbered.lt, hnumbered.inj⟩
      owns := fun it hit => (howns it hit).congr fun _ _ => rfl
      nodup := h.nodup
      apart := hapart
      names := hnamed }

/-- What an operation leaves behind. -/
structure After (sn : Snappy) (junk : ℕ → UInt8) (cached : Bool) (entries : List Entry) (op : Op)
    (x : Output × Plain) (y : Output × World) : Prop where
  output_eq : x.1 = y.1
  plain_eq : x.2 = y.2.plain
  inv : ∃ entries', Inv sn junk cached entries' y.2 ∧
    entries'.length ≤ entries.length + if op.opens then 1 else 0

namespace Inv

variable {sn : Snappy} {junk : ℕ → UInt8} {cached : Bool} {entries : List Entry} {w : World}

theorem getElem?_tables (h : Inv sn junk cached entries w) {i : ℕ} {t : CachedTable}
    (hi : w.tables[i]? = some t) : ∃ e ∈ entries, e.table = t := by
  rw [h.tables_eq, List.getElem?_map] at hi
  obtain ⟨e, he, htable⟩ := Option.map_eq_some_iff.mp hi
  exact ⟨e, List.mem_of_getElem? he, htable⟩

theorem openTable (h : Inv sn junk cached entries w) {options : Options} {f : RandomAccessFile}
    (hfew : cached = true → entries.length + 1 < 2 ^ 64)
    (hfile : cached = true → Written sn options.comparator f.contents ∧ f.Readable ∧
      f.contents.length < 2 ^ 63 ∧ IndexFits f.contents) :
    Simulates (fun e => e = .tableFull ∧ cached = true)
      (After sn junk cached entries (.openTable options f))
      (plainStep sn junk w.plain (.openTable options f))
      (step sn junk w (.openTable options f)) := by
  rw [plainStep, step]
  cases hopen : Table.openTable sn junk options f f.contents.length with
  | none => exact Or.inl rfl
  | some r =>
    obtain ⟨s, _ | table⟩ := r
    · exact Simulates.ok ⟨rfl, rfl, ⟨entries, h, Nat.le_add_right _ _⟩⟩
    · obtain ⟨e, he, hsound⟩ : ∃ e : Entry, e.table = ⟨table, (newId w.memory).1⟩ ∧
          (cached = true → e.Sound sn junk) := by
        cases cached with
        | false => exact ⟨⟨_, [], fun _ => none⟩, rfl, fun h => by cases h⟩
        | true =>
          obtain ⟨hwritten, hread, hsmall, hfits⟩ := hfile rfl
          obtain ⟨e, he, hsound⟩ := exists_entry hwritten hread hsmall hfits hopen _
          exact ⟨e, he, fun _ => hsound⟩
      obtain ⟨order, hinv⟩ := h.memory
      obtain ⟨hinv', hid⟩ := newId_inv e hinv hfew
      refine Simulates.ok ⟨rfl, ?_, ⟨entries ++ [e], ?_, ?_⟩⟩
      · simp only [World.plain, List.map_append, List.map_cons, List.map_nil]
      · exact {
          tables_eq := by
            dsimp only
            rw [h.tables_eq, List.map_append, List.map_cons, he]
            rfl
          counted := by
            intro hcached i e' hi
            rcases Nat.lt_or_ge i entries.length with hlt | hge
            · rw [List.getElem?_append_left hlt] at hi
              exact h.counted hcached i e' hi
            · rw [List.getElem?_append_right hge] at hi
              have hzero : i - entries.length = 0 := by
                have hlt := (List.getElem?_eq_some_iff.mp hi).1
                exact Nat.lt_one_iff.mp hlt
              rw [hzero] at hi
              obtain rfl : e = e' := Option.some.inj hi
              rw [he]
              dsimp only
              rw [hid hcached]
              omega
          few := by
            rw [List.length_append]
            exact hfew
          sound := by
            intro hcached e' he'
            rcases List.mem_append.mp he' with he' | he'
            · exact h.sound hcached e' he'
            · rw [List.mem_singleton.mp he']
              exact hsound hcached
          placed := by
            intro it hit
            obtain ⟨e', he', hplaced⟩ := h.placed it hit
            exact ⟨e', List.mem_append_left _ he', hplaced⟩
          memory := ⟨order, hinv'⟩ }
      · rw [List.length_append]
        exact Nat.le_refl _

theorem newIterator (h : Inv sn junk cached entries w) (i : ℕ) (options : ReadOptions) :
    Simulates (fun e => e = .tableFull ∧ cached = true)
      (After sn junk cached entries (.newIterator i options))
      (plainStep sn junk w.plain (.newIterator i options))
      (step sn junk w (.newIterator i options)) := by
  rw [plainStep, step, World.plain, List.getElem?_map]
  cases hi : w.tables[i]? with
  | none => exact Or.inl rfl
  | some t =>
    obtain ⟨e, he, rfl⟩ := h.getElem?_tables hi
    refine Simulates.ok ⟨rfl, rfl, ⟨entries, ?_, Nat.le_add_right _ _⟩⟩
    refine { h with placed := fun it hit => ?_ }
    rcases List.mem_cons.mp hit with rfl | hit
    · exact ⟨e, he, rfl, none, fun hcached =>
        IteratorWrapper.standsAt_update (h.sound hcached e he).index⟩
    · exact h.placed it hit

theorem move (h : Inv sn junk cached entries w) (i : ℕ) (op : Cursor.Op Bytes)
    (hfew : cached = true → (Op.move i op).Fits w) :
    Simulates (fun e => e = .tableFull ∧ cached = true)
      (After sn junk cached entries (.move i op))
      (plainStep sn junk w.plain (.move i op)) (step sn junk w (.move i op)) := by
  rw [plainStep, step, World.plain, List.getElem?_map]
  cases hi : w.iterators[i]? with
  | none => exact Or.inl rfl
  | some it =>
    obtain ⟨e, he, htable, hstands⟩ := h.stands hi
    obtain ⟨t, options, iter⟩ := it
    obtain rfl : e.table = t := htable
    have hlt := (List.getElem?_eq_some_iff.mp hi).1
    refine Simulates.bind (Simulates.ok (R := fun x y =>
      x = OpenIterator.plain ⟨e.table, options, iter⟩ ∧ ⟨e.table, options, iter⟩ = y) ⟨rfl, rfl⟩) ?_
    rintro _ _ ⟨rfl, rfl⟩
    refine Simulates.bind (CachedTable.move_simulates (h.indexes he) hfew options op hstands) ?_
    rintro _ ⟨iter', m⟩ ⟨pos, rfl, hat, order, hinv⟩
    refine Simulates.ok ⟨rfl, ?_, ⟨entries, ?_, Nat.le_add_right _ _⟩⟩
    · simp only [World.plain, List.map_set, OpenIterator.plain]
    · refine { h with placed := fun it' hit' => ?_, memory := ⟨order, hinv.perm ?_⟩ }
      · rcases List.mem_or_eq_of_mem_set hit' with hit' | rfl
        · exact h.placed it' hit'
        · exact ⟨e, he, rfl, pos, hat⟩
      · have hperm := List.set_perm_cons_eraseIdx hlt ⟨e.table, options, iter'⟩
        exact (hperm.flatMap_right fun it => CachedTable.dataIters it.iter).symm

theorem look (h : Inv sn junk cached entries w) (i : ℕ) :
    Simulates (fun e => e = .tableFull ∧ cached = true)
      (After sn junk cached entries (.look i))
      (plainStep sn junk w.plain (.look i)) (step sn junk w (.look i)) := by
  rw [plainStep, step, World.plain, List.getElem?_map]
  cases hi : w.iterators[i]? with
  | none => exact Or.inl rfl
  | some it =>
    obtain ⟨e, he, htable, hstands⟩ := h.stands hi
    have hshown := CachedTable.shown_eq sn junk it.options.verifyChecksums hstands
    rw [htable] at hshown
    simp only [defined, bind, Except.bind, hshown]
    exact Simulates.ok ⟨rfl, rfl, ⟨entries, h, Nat.le_add_right _ _⟩⟩

theorem deleteIterator (h : Inv sn junk cached entries w) (i : ℕ) :
    Simulates (fun e => e = .tableFull ∧ cached = true)
      (After sn junk cached entries (.deleteIterator i))
      (plainStep sn junk w.plain (.deleteIterator i)) (step sn junk w (.deleteIterator i)) := by
  rw [plainStep, step, World.plain, List.getElem?_map]
  cases hi : w.iterators[i]? with
  | none => exact Or.inl rfl
  | some it =>
    obtain ⟨e, he, htable, hstands⟩ := h.stands hi
    obtain ⟨m, order, hdelete, hinv⟩ := CachedTable.deleteIterator_eq hstands
    simp only [defined, bind, Except.bind, hdelete]
    refine Simulates.ok ⟨rfl, ?_, ⟨entries, ?_, Nat.le_add_right _ _⟩⟩
    · simp only [World.plain, List.eraseIdx_map]
    · exact { h with
        placed := fun it' hit' => h.placed it' (List.mem_of_mem_eraseIdx hit')
        memory := ⟨order, hinv⟩ }

theorem internalGet (h : Inv sn junk cached entries w) (i : ℕ) (options : ReadOptions) (k : Bytes)
    (hfew : cached = true → (Op.internalGet i options k).Fits w) :
    Simulates (fun e => e = .tableFull ∧ cached = true)
      (After sn junk cached entries (.internalGet i options k))
      (plainStep sn junk w.plain (.internalGet i options k))
      (step sn junk w (.internalGet i options k)) := by
  rw [plainStep, step, World.plain, List.getElem?_map]
  cases hi : w.tables[i]? with
  | none => exact Or.inl rfl
  | some t =>
    obtain ⟨e, he, rfl⟩ := h.getElem?_tables hi
    obtain ⟨order, hinv⟩ := h.memory
    refine Simulates.bind
      (Simulates.ok (R := fun x y => x = e.table.table ∧ e.table = y) ⟨rfl, rfl⟩) ?_
    rintro _ _ ⟨rfl, rfl⟩
    refine Simulates.bind (CachedTable.internalGet_simulates (h.indexes he) hfew options k hinv) ?_
    rintro _ ⟨⟨s, saved⟩, m⟩ ⟨rfl, order', hinv'⟩
    exact Simulates.ok ⟨rfl, rfl, ⟨entries, { h with memory := ⟨order', hinv'⟩ },
      Nat.le_add_right _ _⟩⟩

end Inv

/-- **One operation.** -/
theorem step_simulates {sn : Snappy} {junk : ℕ → UInt8} {cached : Bool} {entries : List Entry}
    {w : World} {op : Op} {ops : List Op} (h : Inv sn junk cached entries w)
    (hfiles : cached = true → OnWrittenFiles sn (op :: ops)) (hfew : cached = true → op.Fits w)
    (hids : cached = true → entries.length + (op :: ops).countP Op.opens < 2 ^ 64) :
    Simulates (fun e => e = .tableFull ∧ cached = true) (After sn junk cached entries op)
      (plainStep sn junk w.plain op) (step sn junk w op) := by
  cases op with
  | openTable options f =>
    rw [List.countP_cons_of_pos rfl] at hids
    refine h.openTable (fun hcached => ?_) fun hcached =>
      hfiles hcached options f List.mem_cons_self
    have := hids hcached
    omega
  | newIterator i options => exact h.newIterator i options
  | move i op => exact h.move i op hfew
  | look i => exact h.look i
  | deleteIterator i => exact h.deleteIterator i
  | internalGet i options k => exact h.internalGet i options k hfew

theorem inv_new (sn : Snappy) (junk : ℕ → UInt8) (capacity : Option ℕ) :
    Inv sn junk capacity.isSome [] (new capacity) where
  tables_eq := rfl
  counted _ i e hi := by cases hi
  few _ := Nat.two_pow_pos 64
  sound _ e he := absurd he List.not_mem_nil
  placed it hit := absurd hit List.not_mem_nil
  memory := by
    have hcache : ∃ c, (new capacity).memory.cache = .new c := by
      cases capacity with
      | none => exact ⟨0, rfl⟩
      | some c => exact ⟨c, rfl⟩
    obtain ⟨c, hc⟩ := hcache
    refine ⟨fun _ => [], ?_⟩
    exact {
      isSome_eq := Option.isSome_map ..
      lastId_eq := by
        rw [hc, ledger]
        dsimp only [List.length_nil]
        rw [ite_self]
        rfl
      cache := hc ▸ ShardedLRUCache.inv_new c
      numbered := hc ▸ ShardedLRUCache.Numbered.new c
      owns := fun it hit => absurd hit List.not_mem_nil
      nodup := List.nodup_nil
      apart := fun b hb => absurd hb List.not_mem_nil
      names := by
        rintro x (hx | hx)
        · exact absurd hx List.not_mem_nil
        · exact absurd hx List.not_mem_nil }

/-- **Whole runs**, with a cache or without, do what programs without memory do. -/
theorem outputs_simulates (sn : Snappy) (junk : ℕ → UInt8) (capacity : Option ℕ) (ops : List Op)
    (hfiles : capacity.isSome = true → OnWrittenFiles sn ops)
    (hids : capacity.isSome = true → ops.countP Op.opens < 2 ^ 64)
    (hfew : capacity.isSome = true → Few sn junk (new capacity) ops) :
    Simulates (fun e => e = .tableFull ∧ capacity.isSome = true) Eq
      (outputs (plainStep sn junk) ⟨[], []⟩ ops) (outputs (step sn junk) (new capacity) ops) := by
  refine Simulates.outputs (T := fun ops p w => p = w.plain ∧
    (capacity.isSome = true → OnWrittenFiles sn ops) ∧
    (capacity.isSome = true → Few sn junk w ops) ∧ ∃ entries,
    Inv sn junk capacity.isSome entries w ∧
      (capacity.isSome = true → entries.length + ops.countP Op.opens < 2 ^ 64)) ?_
    ⟨rfl, hfiles, hfew, [], inv_new sn junk capacity, by rwa [List.length_nil, Nat.zero_add]⟩
  rintro op ops p w ⟨rfl, hfiles, hfew, entries, hinv, hids⟩
  refine (step_simulates hinv hfiles (fun hcached => (hfew hcached).1) hids).mono_of_ok ?_
  rintro ⟨out, p⟩ ⟨out', w'⟩ hstep ⟨hout, hplain, ⟨entries', hinv', hle⟩⟩
  refine ⟨hout, hplain, fun hcached options f hmem =>
    hfiles hcached options f (List.mem_cons_of_mem op hmem),
    fun hcached => (hfew hcached).2 _ hstep, entries', hinv', fun hcached => ?_⟩
  have hids := hids hcached
  rw [List.countP_cons] at hids
  split at hle
  · next hopens =>
    rw [if_pos hopens] at hids
    omega
  · omega

/-- **Without a cache** programs do what they do without memory, whatever is in the files. -/
theorem outputs_uncached (sn : Snappy) (junk : ℕ → UInt8) (ops : List Op) :
    Simulates (fun _ => False) Eq (outputs (plainStep sn junk) ⟨[], []⟩ ops)
      (outputs (step sn junk) (new none) ops) := by
  have hplain := outputs_simulates sn junk none ops (fun h => by cases h)
    (fun h => by cases h) fun h => by cases h
  cases hout : outputs (step sn junk) (new none) ops with
  | ok outs =>
    rw [hout] at hplain
    exact hplain
  | error e =>
    rw [hout] at hplain
    exact hplain.imp_right fun h => by cases h.2

/-- **The block cache cannot be seen.** Every operation puts out the same with a cache of any
capacity as without one, unless a shard of the cache is full and cannot grow. -/
theorem transparent (sn : Snappy) (junk : ℕ → UInt8) (capacity : ℕ) {ops : List Op}
    (hfiles : OnWrittenFiles sn ops) (hids : ops.countP Op.opens < 2 ^ 64)
    (hfew : Few sn junk (new (some capacity)) ops) :
    (outputs (step sn junk) (new (some capacity)) ops).toOption
        = (outputs (step sn junk) (new none) ops).toOption ∨
      outputs (step sn junk) (new (some capacity)) ops = .error .tableFull := by
  have hcached := outputs_simulates sn junk (some capacity) ops (fun _ => hfiles)
    (fun _ => hids) fun _ => hfew
  rcases hcached.toOption_eq (outputs_uncached sn junk ops) with heq | ⟨e, he, rfl, -⟩
  · exact Or.inl heq
  · exact Or.inr he

/-! ### A small table -/

/-- The calls that make a table with two blocks. -/
def smallCalls : List TableBuilder.Call := [.add [1] [10], .flush, .add [2] [20]]

/-- Its file. -/
def smallFile : RandomAccessFile :=
  .posix "t" (match TableBuilder.new (TableBuilder.plainOptions none) .fresh with
    | none => []
    | some r => (TableBuilder.outcome (r.build .absent smallCalls)).file.contents) fun _ n => .ok n

theorem readable_posix {filename : String} {contents : Bytes} (hsmall : contents.length < 2 ^ 63) :
    (RandomAccessFile.posix filename contents fun _ n => .ok n).Readable := by
  intro offset n hle
  have hle' : offset + n ≤ contents.length := hle
  refine ⟨_, _, if_neg (by omega), ?_⟩
  simp only [List.length_take, List.length_drop]
  omega

/-- A builder has written it. -/
theorem onWrittenFiles_small {ops : List Op} (hops : ∀ options f, Op.openTable options f ∈ ops →
    options = TableBuilder.plainOptions none ∧ f = smallFile) : OnWrittenFiles .absent ops := by
  intro options f hmem
  obtain ⟨rfl, rfl⟩ := hops options f hmem
  have hlen : smallFile.contents.length < 2 ^ 63 := by decide +kernel
  refine ⟨?_, readable_posix hlen, hlen, ?_⟩
  · obtain ⟨r, hnew, hopt, hcounter⟩ :=
      TableBuilder.exists_new (TableBuilder.plainOptions none) .fresh
      (by decide)
    have hfits : r.CounterFits := by
      rw [TableBuilder.CounterFits, hcounter]
      exact Nat.zero_le _
    have hsteady : ∀ c ∈ smallCalls, c.Steady := by simp [smallCalls, TableBuilder.Call.Steady]
    have hok : (r.build .absent smallCalls).isOk = true := by
      rw [← Option.some.inj hnew]
      decide +kernel
    cases hbuild : r.build .absent smallCalls with
    | error r' =>
      rw [hbuild] at hok
      cases hok
    | ok r' =>
      refine .of_build hnew hbuild ?_ rfl bytewiseComparator_lawful rfl rfl (fun _ => rfl)
        (fun _ _ hmem => (hsteady _ hmem).elim)
        (TableBuilder.countersFit_of_steady .absent hsteady (by rw [hopt]; decide) hfits)
        (fun _ _ => trivial) ?_ (fun p hp => by cases hp) fun h => by cases h
      · rw [smallFile, hnew]
        dsimp only [RandomAccessFile.contents]
        rw [hbuild]
        rfl
      · simp only [smallCalls, TableBuilder.added]
        decide
  · intro footer hfooter
    have hsize : (Footer.decodeFrom (smallFile.contents.drop
        (smallFile.contents.length - Footer.kEncodedLength))).all (fun result =>
          result.toOption.all fun footer => decide (footer.indexHandle.size < 2 ^ 32)) = true := by
      decide +kernel
    rw [hfooter] at hsize
    exact of_decide_eq_true hsize

/-- Two iterators and some lookups, with a cache that keeps nothing. -/
theorem transparent_small :
    let ops : List Op := [.openTable (TableBuilder.plainOptions none) smallFile,
      .newIterator 0 ⟨true, true⟩, .newIterator 0 ⟨false, false⟩, .move 0 .seekToFirst,
      .move 1 .seekToFirst, .move 1 .next, .look 0, .look 1, .deleteIterator 0,
      .internalGet 0 ⟨true, true⟩ [2], .look 0]
    outputs (step .absent fun _ => 0) (new none) ops
      = .ok [.opened .success, .done, .done, .done, .done,
        .done, .shown (some ([1], [10])) .success, .shown (some ([2], [20])) .success, .done,
        .got .success [([2], [20])], .shown (some ([2], [20])) .success] ∧
      ((outputs (step .absent fun _ => 0) (new (some 0)) ops).toOption
          = (outputs (step .absent fun _ => 0) (new none) ops).toOption ∨
        outputs (step .absent fun _ => 0) (new (some 0)) ops = .error .tableFull) := by
  intro ops
  have hfiles : OnWrittenFiles .absent ops := by
    refine onWrittenFiles_small fun options f hmem => ?_
    simpa [ops] using hmem
  refine ⟨?_, transparent .absent (fun _ => 0) 0 hfiles ?_ ?_⟩
  · decide +kernel
  · exact List.countP_le_length.trans_lt (by simp [ops])
  · decide +kernel

/-! ### At the limit -/

section

variable (sn : Snappy) (junk : ℕ → UInt8) (options : ReadOptions) {t : CachedTable}
  {m : BlockMemory} {c c' : ShardedLRUCache} {x : Handle} {b : ℕ} {v : Bytes}
  {handle : BlockHandle} {rest : Bytes}

/-- A new iterator goes to a block that is cached. -/
theorem seekToFirst_cached {separator : Bytes} {a : Bytes × Bytes} {iter : AnyIter}
    (hindex : ((AnyIter.iterator t.table.options.comparator.compare).step
      t.table.indexBlock.newIterator .seekToFirst).bind AnyIter.entry = some (separator, v))
    (hdecode : BlockHandle.decodeFrom v = .ok (handle, rest)) (hc : m.blockCache = some c)
    (hlook : c.lookup (CachedTable.cacheKey t.cacheId handle.offset) = some (some x, c'))
    (hvalue : c'.value x = some b)
    (hlive : ({ m with blockCache := some c' } : BlockMemory).isLive b = true)
    (hstep : (AnyIter.iterator t.table.options.comparator.compare).step (m.block b).newIterator
      .seekToFirst = some iter) (hentry : iter.entry = some a) :
    ∃ it : CachedTable.Iter, t.move sn junk options .seekToFirst t.newIterator m
        = .ok (it, { m with blockCache := some c' }) ∧
      CachedTable.dataIters it = [⟨iter, some b, [.releaseBlock x]⟩] := by
  obtain ⟨index, hmove, hshown⟩ := Option.bind_eq_some_iff.mp hindex
  have hkey : ((AnyIter.iterator t.table.options.comparator.compare).entry index)
    = some (separator, v) := hshown
  refine ⟨⟨.success, ⟨index, some separator⟩,
    some ⟨⟨iter, some b, [.releaseBlock x]⟩, some a.1⟩, v⟩, ?_, rfl⟩
  simp only [CachedTable.move, CachedTable.moveBoth, CachedTable.newIterator, TwoLevelIterator.new,
    TwoLevelIterator.moveIndex, IteratorWrapper.update, IteratorWrapper.step, CachedTable.levels,
    hmove, Option.map_some, defined, bind, Except.bind, CachedTable.initDataBlock, hkey,
    IteratorWrapper.value, Option.isSome_none, Bool.false_eq_true, false_and, if_false,
    CachedTable.blockReader, hdecode, hc, hlook, hvalue, BlockMemory.newIterator, hlive, if_true,
    CachedTable.setDataIterator, TwoLevelIterator.setDataIterator, CachedTable.moveData,
    BlockMemory.access, TwoLevelIterator.moveData, hstep, CachedTable.rounds,
    CachedTable.skipEmptyDataBlocks, TwoLevelIterator.valid, Option.bind_some, hentry,
    Option.isSome_some, registerCleanup]

/-- A lookup that finds its block in the cache, when the handle cannot be released. -/
theorem internalGet_cached {separator k : Bytes} {iter : AnyIter}
    (hindex : ((AnyIter.iterator t.table.options.comparator.compare).step
      t.table.indexBlock.newIterator (.seek k)).bind AnyIter.entry = some (separator, v))
    (hfilter : t.table.filter = none) (hdecode : BlockHandle.decodeFrom v = .ok (handle, rest))
    (hc : m.blockCache = some c)
    (hlook : c.lookup (CachedTable.cacheKey t.cacheId handle.offset) = some (some x, c'))
    (hvalue : c'.value x = some b)
    (hlive : ({ m with blockCache := some c' } : BlockMemory).isLive b = true)
    (hstep : (AnyIter.iterator t.table.options.comparator.compare).step (m.block b).newIterator
      (.seek k) = some iter) (hrelease : c'.release x = none) :
    t.internalGet sn junk options k m = .error .undefined := by
  obtain ⟨index, hmove, hshown⟩ := Option.bind_eq_some_iff.mp hindex
  simp only [CachedTable.internalGet, hmove, hshown, defined, bind, Except.bind,
    Table.filterExcludes, hfilter, Bool.false_eq_true, if_false, CachedTable.blockReader, hdecode,
    hc, hlook, hvalue, BlockMemory.newIterator, hlive, if_true, BlockMemory.access,
    CachedTable.levels, hstep, Option.map_some, BlockMemory.deleteIterator, registerCleanup,
    List.foldlM_cons, BlockMemory.cleanUp, hrelease]

end

/-- What is needed of a table and of its first block. -/
def Small (t : CachedTable) (b : Block) : Prop :=
  t.cacheId = 1 ∧ t.table.filter.isNone = true ∧
    ((AnyIter.iterator t.table.options.comparator.compare).step t.table.indexBlock.newIterator
      .seekToFirst).bind AnyIter.entry = some ([1], [0, 13]) ∧
    ((AnyIter.iterator t.table.options.comparator.compare).step t.table.indexBlock.newIterator
      (.seek [1])).bind AnyIter.entry = some ([1], [0, 13]) ∧
    ((AnyIter.iterator t.table.options.comparator.compare).step b.newIterator
      .seekToFirst).bind AnyIter.entry = some ([1], [10]) ∧
    ((AnyIter.iterator t.table.options.comparator.compare).step b.newIterator
      (.seek [1])).bind AnyIter.entry = some ([1], [10])

instance (t : CachedTable) (b : Block) : Decidable (Small t b) :=
  inferInstanceAs (Decidable (_ ∧ _))

/-- The table is open, its first block is cached, and `n` iterators hold it. -/
structure Pinned (n : ℕ) (w : World) (t : CachedTable) (x : Handle)
    (order : Fin kNumShards → List ℕ) :
    Prop where
  tables_eq : w.tables = [t]
  small : Small t (w.memory.block (w.memory.cache.entry x).value)
  memory : w.memory.Inv ⟨true, 1, fun _ _ => True⟩ order (dataIters w.iterators)
  cached : ShardedLRUCache.Cached order x
  key_eq : (w.memory.cache.entry x).key = CachedTable.cacheKey 1 0
  handles_eq : (dataIters w.iterators).flatMap DataIter.handles = List.replicate n x

/-- The lookup of the block finds it. -/
theorem Pinned.lookup {n : ℕ} {w : World} {t : CachedTable} {x : Handle}
    {order : Fin kNumShards → List ℕ} (h : Pinned n w t x order) :
    ∃ c c', w.memory.blockCache = some c ∧
      c.lookup (CachedTable.cacheKey t.cacheId 0) = some (some x, c') ∧
      c'.value x = some (w.memory.cache.entry x).value ∧ ShardedLRUCache.Touches c c' ∧
      ({ w.memory with blockCache := some c' } : BlockMemory).isLive (w.memory.cache.entry x).value
        = true ∧
      (c'.shard x.shard).refs x.entry = (n + 2) % 2 ^ 32 ∧
      (n + 2 < 2 ^ 32 → ∃ order', ∀ iter, ShardedLRUCache.Cached order' x ∧
        BlockMemory.Inv ⟨true, 1, fun _ _ => True⟩ { w.memory with blockCache := some c' } order'
          (⟨iter, some (w.memory.cache.entry x).value, [.releaseBlock x]⟩
            :: dataIters w.iterators)) := by
  obtain ⟨c, hc⟩ := Option.isSome_iff_exists.mp h.memory.isSome_eq
  have hm : w.memory.cache = c := by rw [BlockMemory.cache, hc]; rfl
  have hcache := h.memory.cache
  have hkey := h.key_eq
  rw [hm] at hcache hkey
  rcases hcache.lookup (CachedTable.cacheKey 1 0) with
    ⟨y, c', hlook, hy, hykey, htouches, hrefs, hinv⟩ | ⟨-, hnone⟩
  · obtain rfl := hcache.eq_of_key hy h.cached (hykey.trans hkey.symm)
    rw [hcache.refs (hcache.allocated (.inr hy)), if_pos hy, h.handles_eq,
      List.count_replicate_self] at hrefs
    rw [h.handles_eq, List.count_replicate_self] at hinv
    have hlive := hcache.live (.inr hy)
    have hvalue : c'.value y = some (w.memory.cache.entry y).value := by
      rw [← htouches.live_eq] at hlive
      rw [ShardedLRUCache.value, if_pos hlive, htouches.entry_eq, hm]
    refine ⟨c, c', hc, ?_, hvalue, htouches, ?_, hrefs, fun hfew => ?_⟩
    · rw [h.small.1]
      exact hlook
    · have hblock := h.memory.isLive_entry (.inr h.cached)
      rw [BlockMemory.isLive, hm] at hblock
      rw [BlockMemory.isLive, hm]
      have hdeleted : ({ w.memory with blockCache := some c' } : BlockMemory).cache.deletedValues
        = c.deletedValues := htouches.deletedValues_eq
      rw [hdeleted]
      exact hblock
    · obtain ⟨order', hinv, hsame⟩ := hinv hfew
      rw [← h.handles_eq] at hinv
      exact ⟨order', fun iter => ⟨(hsame y).mpr hy,
        h.memory.lookup_some hc hy htouches.toKeeps hinv hsame iter⟩⟩
  · exact absurd hkey (hnone x h.cached)

/-- One iterator more. -/
theorem Pinned.more {n : ℕ} {w : World} {t : CachedTable} {x : Handle}
    {order : Fin kNumShards → List ℕ} (h : Pinned n w t x order) (hfew : n + 2 < 2 ^ 32)
    (sn : Snappy) (junk : ℕ → UInt8) :
    ∃ w₁ w₂ order', step sn junk w (.newIterator 0 ⟨true, true⟩) = .ok (.done, w₁) ∧
      step sn junk w₁ (.move 0 .seekToFirst) = .ok (.done, w₂) ∧ Pinned (n + 1) w₂ t x order' := by
  obtain ⟨c, c', hc, hlook, hvalue, htouches, hlive, -, hinv⟩ := h.lookup
  obtain ⟨order', hinv⟩ := hinv hfew
  obtain ⟨-, -, hindex, -, hfirst, -⟩ := h.small
  obtain ⟨iter, hstep, hentry⟩ := Option.bind_eq_some_iff.mp hfirst
  have hdecode : BlockHandle.decodeFrom [0, 13] = .ok (⟨0, 13⟩, []) := rfl
  obtain ⟨it, hmove, hits⟩ := seekToFirst_cached sn junk ⟨true, true⟩
    hindex hdecode hc hlook hvalue hlive hstep hentry
  have hm : w.memory.cache = c := by rw [BlockMemory.cache, hc]; rfl
  refine ⟨{ w with iterators := ⟨t, ⟨true, true⟩, t.newIterator⟩ :: w.iterators },
    ⟨{ w.memory with blockCache := some c' }, w.tables, ⟨t, ⟨true, true⟩, it⟩ :: w.iterators⟩,
    order', ?_, ?_, ?_⟩
  · rw [step, h.tables_eq]
    rfl
  · rw [step, List.getElem?_cons_zero]
    simp only [defined, bind, Except.bind, hmove, List.set_cons_zero]
  · have hentry' : c'.entry x = w.memory.cache.entry x := by rw [htouches.entry_eq, hm]
    have hcons : dataIters (⟨t, ⟨true, true⟩, it⟩ :: w.iterators)
        = ⟨iter, some (w.memory.cache.entry x).value, [.releaseBlock x]⟩
          :: dataIters w.iterators := by
      rw [dataIters, List.flatMap_cons, hits]
      rfl
    exact {
      tables_eq := h.tables_eq
      small := (congrArg (fun z : LRUEntry => Small t (w.memory.block z.value)) hentry').mpr h.small
      memory := by
        dsimp only
        rw [hcons]
        exact (hinv iter).2
      cached := (hinv iter).1
      key_eq := (congrArg LRUEntry.key hentry').trans h.key_eq
      handles_eq := by
        dsimp only
        rw [hcons, List.flatMap_cons, h.handles_eq]
        rfl }

/-- The count wraps, and the handle of the lookup cannot be released. -/
theorem Pinned.internalGet {n : ℕ} {w : World} {t : CachedTable} {x : Handle}
    {order : Fin kNumShards → List ℕ} (h : Pinned n w t x order) (hn : n + 2 = 2 ^ 32)
    (sn : Snappy) (junk : ℕ → UInt8) :
    step sn junk w (.internalGet 0 ⟨true, true⟩ [1]) = .error .undefined := by
  obtain ⟨c, c', hc, hlook, hvalue, -, hlive, hrefs, -⟩ := h.lookup
  obtain ⟨-, hfilter, -, hindex, -, hget⟩ := h.small
  obtain ⟨iter, hstep, -⟩ := Option.bind_eq_some_iff.mp hget
  have hdecode : BlockHandle.decodeFrom [0, 13] = .ok (⟨0, 13⟩, []) := rfl
  rw [hn, Nat.mod_self] at hrefs
  have hrelease : c'.release x = none := by
    rw [ShardedLRUCache.release, LRUCache.release, LRUCache.unref, if_pos (Or.inr hrefs)]
    split <;> rfl
  have herror := internalGet_cached sn junk ⟨true, true⟩ hindex
    (Option.isNone_iff_eq_none.mp hfilter) hdecode hc hlook hvalue hlive hstep hrelease
  rw [step, h.tables_eq, List.getElem?_cons_zero]
  simp only [defined, bind, Except.bind, herror]

/-- `n` iterators are placed in the first block. -/
def pins (n : ℕ) : List Op :=
  (List.replicate n [Op.newIterator 0 ⟨true, true⟩, Op.move 0 .seekToFirst]).flatten

/-- The first key is looked up while `n` iterators are in its block. -/
def lookupWith (n : ℕ) : List Op :=
  .openTable (TableBuilder.plainOptions none) smallFile
    :: (pins n ++ [.internalGet 0 ⟨true, true⟩ [1]])

theorem pins_succ (n : ℕ) :
    pins (n + 1) = .newIterator 0 ⟨true, true⟩ :: .move 0 .seekToFirst :: pins n := by
  rw [pins, List.replicate_succ, List.flatten_cons]
  rfl

theorem outputs_error {w w' : World} {sn : Snappy} {junk : ℕ → UInt8} {op : Op} {out : Output}
    {ops : List Op} {e : Stop} (hstep : step sn junk w op = .ok (out, w'))
    (h : outputs (step sn junk) w' ops = .error e) :
    outputs (step sn junk) w (op :: ops) = .error e := by
  rw [outputs, hstep]
  simp only [bind, Except.bind, h]

/-- The induction is on the iterators that are still to come. -/
theorem Pinned.outputs_eq {n k : ℕ} {w : World} {t : CachedTable} {x : Handle}
    {order : Fin kNumShards → List ℕ} (h : Pinned n w t x order) (hn : n + k + 2 = 2 ^ 32)
    (sn : Snappy) (junk : ℕ → UInt8) :
    outputs (step sn junk) w (pins k ++ [.internalGet 0 ⟨true, true⟩ [1]]) = .error .undefined := by
  induction k generalizing n w order with
  | zero =>
    have hget := h.internalGet hn sn junk
    rw [show pins 0 = [] from rfl, List.nil_append, outputs, hget]
    rfl
  | succ k ih =>
    obtain ⟨w₁, w₂, order', hnew, hmove, h'⟩ := h.more (by omega) sn junk
    rw [pins_succ]
    exact outputs_error hnew (outputs_error hmove (ih h' (by omega)))

/-- The table is opened and the first iterator placed. -/
def firstPin : Except Stop World := do
  let (_, w) ← step .absent (fun _ => 0) (new (some 4096))
    (.openTable (TableBuilder.plainOptions none) smallFile)
  let (_, w) ← step .absent (fun _ => 0) w (.newIterator 0 ⟨true, true⟩)
  let (_, w) ← step .absent (fun _ => 0) w (.move 0 .seekToFirst)
  .ok w

/-- The first block is then cached and held. -/
def holdsFirst (w : World) : Bool :=
  match w.tables, (dataIters w.iterators).flatMap DataIter.handles with
  | [t], [x] => decide (Small t (w.memory.block (w.memory.cache.entry x).value)) &&
      decide ((w.memory.cache.lookup (CachedTable.cacheKey 1 0)).map Prod.fst = some (some x))
  | _, _ => false

theorem Inv.of_step {sn : Snappy} {junk : ℕ → UInt8} {cached : Bool} {entries : List Entry}
    {w w' : World} {op : Op} {out : Output} (h : Inv sn junk cached entries w)
    (hfiles : OnWrittenFiles sn [op]) (hfew : op.Fits w)
    (hids : entries.length + 1 < 2 ^ 64) (hstep : step sn junk w op = .ok (out, w')) :
    ∃ entries', Inv sn junk cached entries' w' ∧ entries'.length ≤ entries.length + 1 := by
  have hle : [op].countP Op.opens ≤ 1 := List.countP_le_length
  have hsim := step_simulates h (fun _ => hfiles) (fun _ => hfew) fun _ => by omega
  rw [hstep] at hsim
  obtain ⟨_, -, -, -, ⟨entries', hinv, hlen⟩⟩ := hsim
  refine ⟨entries', hinv, ?_⟩
  split at hlen <;> omega

theorem Inv.exists_pinned {sn : Snappy} {junk : ℕ → UInt8} {entries : List Entry} {w : World}
    (h : Inv sn junk true entries w) (hfirst : holdsFirst w = true) :
    ∃ t x order, Pinned 1 w t x order := by
  rw [holdsFirst] at hfirst
  split at hfirst
  · next t x htables hhandles =>
    rw [Bool.and_eq_true, decide_eq_true_iff, decide_eq_true_iff] at hfirst
    obtain ⟨hsmall, hlook⟩ := hfirst
    obtain ⟨order, hmemory⟩ := h.memory
    have hlen : entries.length = 1 := by
      have heq := congrArg List.length h.tables_eq
      rw [htables, List.length_map] at heq
      exact heq.symm
    have hledger : ({ ledger true entries with Names := fun _ _ => True } : Ledger)
        = ⟨true, 1, fun _ _ => True⟩ := by
      rw [ledger, if_pos rfl, hlen]
    have hcached : ShardedLRUCache.Cached order x ∧
        (w.memory.cache.entry x).key = CachedTable.cacheKey 1 0 := by
      rcases hmemory.cache.lookup (CachedTable.cacheKey 1 0) with
        ⟨y, c', hlook', hy, hkey, -⟩ | ⟨hlook', -⟩
      · rw [hlook'] at hlook
        obtain rfl : y = x := Option.some.inj (Option.some.inj hlook)
        exact ⟨hy, hkey⟩
      · rw [hlook'] at hlook
        cases hlook
    exact ⟨t, x, order, htables, hsmall, hledger ▸ hmemory.mono fun _ _ _ => trivial, hcached.1,
      hcached.2, hhandles⟩
  · cases hfirst

theorem exists_pinned : ∃ w₁ w₂ w₃ out₁ out₂ out₃ t x order,
    step .absent (fun _ => 0) (new (some 4096))
      (.openTable (TableBuilder.plainOptions none) smallFile) = .ok (out₁, w₁) ∧
    step .absent (fun _ => 0) w₁ (.newIterator 0 ⟨true, true⟩) = .ok (out₂, w₂) ∧
    step .absent (fun _ => 0) w₂ (.move 0 .seekToFirst) = .ok (out₃, w₃) ∧
      Pinned 1 w₃ t x order := by
  have hfirst : firstPin.toOption.any holdsFirst = true := by decide +kernel
  rw [firstPin] at hfirst
  cases h₁ : step .absent (fun _ => 0) (new (some 4096))
      (.openTable (TableBuilder.plainOptions none) smallFile) with
  | error e =>
    rw [h₁] at hfirst
    cases hfirst
  | ok r₁ =>
    obtain ⟨out₁, w₁⟩ := r₁
    rw [h₁] at hfirst
    cases h₂ : step .absent (fun _ => 0) w₁ (.newIterator 0 ⟨true, true⟩) with
    | error e =>
      simp only [bind, Except.bind, h₂] at hfirst
      cases hfirst
    | ok r₂ =>
      obtain ⟨out₂, w₂⟩ := r₂
      cases h₃ : step .absent (fun _ => 0) w₂ (.move 0 .seekToFirst) with
      | error e =>
        simp only [bind, Except.bind, h₂, h₃] at hfirst
        cases hfirst
      | ok r₃ =>
        obtain ⟨out₃, w₃⟩ := r₃
        simp only [bind, Except.bind, h₂, h₃] at hfirst
        have hnone : ∀ op : Op, op.opens = false → OnWrittenFiles .absent [op] := by
          intro op hop options f hmem
          rw [← List.mem_singleton.mp hmem] at hop
          cases hop
        have hfiles :
            OnWrittenFiles .absent [.openTable (TableBuilder.plainOptions none) smallFile] :=
          onWrittenFiles_small fun options f hmem => by simpa using hmem
        have hfew : Few .absent (fun _ => 0) (new (some 4096))
            [.openTable (TableBuilder.plainOptions none) smallFile, .newIterator 0 ⟨true, true⟩,
              .move 0 .seekToFirst] := by decide +kernel
        obtain ⟨hfits₂, hfew₂⟩ := hfew.2 _ h₁
        obtain ⟨entries₁, hinv₁, hle₁⟩ := (inv_new .absent (fun _ => 0) (some 4096)).of_step
          hfiles trivial (by decide) h₁
        obtain ⟨entries₂, hinv₂, hle₂⟩ := hinv₁.of_step (hnone _ rfl) hfits₂
          (by rw [List.length_nil] at hle₁; omega) h₂
        obtain ⟨entries₃, hinv₃, hle₃⟩ := hinv₂.of_step (hnone _ rfl) (hfew₂ _ h₂).1
          (by rw [List.length_nil] at hle₁; omega) h₃
        obtain ⟨t, x, order, hpinned⟩ := hinv₃.exists_pinned hfirst
        exact ⟨w₁, w₂, w₃, out₁, out₂, out₃, t, x, order, rfl, h₂, h₃, hpinned⟩

/-- Without memory the iterators have nothing to do with each other. -/
theorem exists_plain_outputs {sn : Snappy} {junk : ℕ → UInt8} {t : Table} {k : Bytes}
    (hfirst :
      ((t.iterator sn junk true).step (t.newIterator sn junk true) .seekToFirst).isSome = true)
    (hget : (t.internalGet sn junk true k).isSome = true) (n : ℕ) (iterators : List PlainIterator) :
    ∃ outs, outputs (plainStep sn junk) ⟨[t], iterators⟩ (pins n ++ [.internalGet 0 ⟨true, true⟩ k])
      = some outs := by
  induction n generalizing iterators with
  | zero =>
    obtain ⟨⟨s, saved⟩, hget⟩ := Option.isSome_iff_exists.mp hget
    refine ⟨[.got s saved], ?_⟩
    rw [show pins 0 = [] from rfl, List.nil_append, outputs, plainStep]
    simp only [List.getElem?_cons_zero, Option.bind_eq_bind, Option.bind_some, hget]
    rfl
  | succ n ih =>
    obtain ⟨iter, hfirst⟩ := Option.isSome_iff_exists.mp hfirst
    obtain ⟨outs, houts⟩ := ih (⟨t, true, iter⟩ :: iterators)
    refine ⟨.done :: .done :: outs, ?_⟩
    rw [pins_succ, List.cons_append, List.cons_append, outputs, plainStep]
    simp only [List.getElem?_cons_zero, Option.bind_eq_bind, Option.bind_some]
    rw [outputs, plainStep]
    simp only [List.getElem?_cons_zero, Option.bind_eq_bind, Option.bind_some, hfirst,
      List.set_cons_zero, houts]
    rfl

/-- **The limit is real.** With `2 ^ 32 - 2` iterators in a block, the reference count is zero while
a lookup has the block, and it cannot be released. -/
theorem not_transparent : ∃ ops : List Op, OnWrittenFiles .absent ops ∧ ops.countP Op.opens = 1 ∧
    (∃ outs, outputs (step .absent fun _ => 0) (new none) ops = .ok outs) ∧
    outputs (step .absent fun _ => 0) (new (some 4096)) ops = .error .undefined := by
  obtain ⟨n, hn⟩ : ∃ n, n + 3 = 2 ^ 32 := ⟨2 ^ 32 - 3, by norm_num⟩
  have hopens : ∀ n, (pins n ++ [Op.internalGet 0 ⟨true, true⟩ [1]]).countP Op.opens = 0 := by
    intro n
    induction n with
    | zero => rfl
    | succ n ih =>
      rw [pins_succ, List.cons_append, List.cons_append, List.countP_cons_of_neg (by decide),
        List.countP_cons_of_neg (by decide), ih]
  have hcount : (lookupWith (n + 1)).countP Op.opens = 1 := by
    rw [lookupWith, List.countP_cons_of_pos rfl, hopens]
  have hfiles : OnWrittenFiles .absent (lookupWith (n + 1)) := by
    refine onWrittenFiles_small fun options f hmem => ?_
    rcases List.mem_cons.mp hmem with heq | hmem
    · cases heq
      exact ⟨rfl, rfl⟩
    · exact absurd rfl (List.countP_eq_zero.mp (hopens (n + 1)) _ hmem)
  refine ⟨lookupWith (n + 1), hfiles, hcount, ?_, ?_⟩
  · have hopened : (Table.openTable .absent (fun _ => 0) (TableBuilder.plainOptions none) smallFile
        smallFile.contents.length).any (fun result => result.2.any fun t =>
          ((t.iterator .absent (fun _ => 0) true).step
            (t.newIterator .absent (fun _ => 0) true) .seekToFirst).isSome &&
              (t.internalGet .absent (fun _ => 0) true [1]).isSome) = true := by
      decide +kernel
    obtain ⟨⟨s, table⟩, hopen, hopened⟩ := (Option.any_eq_true _ _).mp hopened
    cases table with
    | none => cases hopened
    | some t =>
      have hopened := Bool.and_eq_true_iff.mp hopened
      obtain ⟨outs, houts⟩ := exists_plain_outputs hopened.1 hopened.2 (n + 1) []
      have hsim := outputs_uncached .absent (fun _ => 0) (lookupWith (n + 1))
      rw [lookupWith, outputs, plainStep, hopen] at hsim
      simp only [Option.bind_eq_bind, Option.bind_some, List.nil_append, houts] at hsim
      rw [lookupWith]
      cases hout : outputs (step .absent fun _ => 0) (new none)
        (.openTable (TableBuilder.plainOptions none)
          smallFile :: (pins (n + 1) ++ [.internalGet 0 ⟨true, true⟩ [1]])) with
      | ok outs => exact ⟨outs, rfl⟩
      | error e =>
        rw [hout] at hsim
        cases hsim.resolve_right id
  · obtain ⟨w₁, w₂, w₃, out₁, out₂, out₃, t, x, order, h₁, h₂, h₃, hpinned⟩ := exists_pinned
    rw [lookupWith, pins_succ]
    exact outputs_error h₁ (outputs_error h₂ (outputs_error h₃
      (hpinned.outputs_eq (by omega) .absent fun _ => 0)))

end BlockCache

end Squirrel
