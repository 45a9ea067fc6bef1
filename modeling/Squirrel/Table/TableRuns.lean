import Squirrel.Table.TableRoundTrip

/-!
# Runs of the table builder

What holds after any calls of `Add` and `Flush`, and what `Finish` then does, whatever the options
are. First for files without faults, where the index is of interest: its entries have increasing
keys, and the blocks they point to follow each other.

## Main results

* `TableBuilder.runCalls_indexOk` — the index, while a table is built and when it is finished
-/

namespace Squirrel

open Coding

/-- The first of some contiguous blocks are contiguous, and so are the others. -/
theorem Contiguous.of_append {hs hs' : List BlockHandle} {start stop : ℕ}
    (hcont : Contiguous start (hs ++ hs') stop) :
    ∃ middle, Contiguous start hs middle ∧ Contiguous middle hs' stop := by
  induction hs generalizing start with
  | nil => exact ⟨start, rfl, hcont⟩
  | cons h hs ih =>
    obtain ⟨middle, hfirst, hrest⟩ := ih hcont.2
    exact ⟨middle, ⟨hcont.1, hfirst⟩, hrest⟩

namespace TableBuilder

variable {sn : Snappy} {P : Bytes → Prop} {q : FilterPolicy} {options : Options} {r : TableBuilder}
  {calls : List Call}

/-! ### Options of all kinds -/

/-- What is asked of a run: the comparator and the policy keep their contracts, the interval is one
that blocks can be built with, the options stay the same, and the keys increase. -/
structure Proper (P : Bytes → Prop) (options : Options) (calls : List Call) : Prop where
  lawful : options.comparator.Lawful P
  interval_pos : 1 ≤ options.blockRestartInterval
  appends : ∀ p, options.filterPolicy = some p → p.Appends
  steady : ∀ c ∈ calls, c.Steady
  keys : ∀ a ∈ added calls, P a.1
  sorted : (added calls).Pairwise fun a b => options.comparator.compare a.1 b.1 = .lt

/-- A new builder, ready for such a run. -/
theorem Proper.exists_ready (sn : Snappy) (hp : Proper P options calls) {file : WritableFile}
    (hempty : file.contents = []) (hsound : file.Sound) :
    ∃ q r, TableBuilder.new options file = some r ∧
      Ready sn (fun _ => True) options.comparator P q r [] none [] ∧ r.options = options ∧
      (r.filterBlock ≠ none → options.filterPolicy.map FilterPolicy.name = some q.name) ∧
      CountersFit sn r calls := by
  obtain ⟨q, hread, hnamed⟩ := FilterPolicy.exists_reader hp.appends options.filterPolicy
  obtain ⟨r, hnew, hready, hopt, hnone, hcounter⟩ :=
    ready_new sn (K := fun _ => True) (P := P) hempty
    hsound hp.interval_pos trivial hread
  refine ⟨q, r, hnew, hready, hopt, fun hne => ?_, ?_⟩
  · exact hnamed fun hnil => hne (hnone.mpr hnil)
  · refine countersFit_of_steady sn hp.steady (by rw [hopt]; exact hp.interval_pos) ?_
    rw [CounterFits, hcounter]
    exact Nat.zero_le _

theorem Proper.optionsFit (hp : Proper P options calls) : OptionsFit (fun _ => True) calls :=
  fun _ _ hmem => (hp.steady _ hmem).elim

/-! ### The index -/

/-- **The index of a table that is being built**, as keys and handles. -/
structure IndexOk (r : TableBuilder) (index : List (Bytes × BlockHandle)) : Prop where
  pending_empty : r.pendingIndexEntry = true → r.dataBlock.empty = true
  offset_eq : r.offset = r.file.contents.length
  holds : r.indexBlock.Holds (index.map fun e => (e.1, e.2.encoding))
  increasing : index.Pairwise fun e e' => r.options.comparator.compare e.1 e'.1 = .lt
  contiguous : ∃ stop, Contiguous 0 (index.map Prod.snd) stop ∧ stop ≤ r.offset

theorem Ready.indexOk {K : CompressionType → Prop} {c : Comparator} {blocks : List DataBlock}
    {pending : Option (BlockHandle × List (Bytes × Bytes))} {current : List (Bytes × Bytes)}
    (hc : c.Lawful P) (hr : Ready sn K c P q r blocks pending current) :
    IndexOk r (blocks.map fun b => (b.separator, b.handle)) where
  pending_empty := by
    intro hpending
    rw [hr.pending_eq] at hpending
    refine hr.data_eq.empty_iff.mpr (hr.layout.pending_current ?_)
    rintro rfl
    cases hpending
  offset_eq := hr.offset_eq
  holds := by
    rw [List.map_map]
    exact hr.index_eq
  increasing := by
    have hsorted := Table.sorted_index hc hr.layout
    rw [List.pairwise_map] at hsorted ⊢
    rw [hr.comparator_eq]
    exact hsorted
  contiguous := by
    have hcont := hr.contiguous
    rw [placedBlocks, List.map_append, List.map_map] at hcont
    obtain ⟨middle, hfirst, hrest⟩ := hcont.of_append
    rw [List.map_map]
    exact ⟨middle, hfirst, hrest.pairwise.2.1⟩

/-- **The index of a finished table**: one entry for each data block, with a key between the last
key of the block and the first of the next. -/
structure Finished (sn : Snappy) (c : Comparator) (file : Bytes) (blocks : List DataBlock) :
    Prop where
  index : ∃ front footer, file = front ++ Footer.encoding footer ∧
    BlockStored sn (fun _ => True) file footer.indexHandle (blocks.map DataBlock.indexEntry)
  stored : ∀ b ∈ blocks, b.entries ≠ [] ∧ BlockStored sn (fun _ => True) file b.handle b.entries
  contiguous : ∃ stop, Contiguous 0 (blocks.map DataBlock.handle) stop
  le_separator : ∀ b ∈ blocks, ∀ a ∈ b.entries, c.compare a.1 b.separator ≠ .gt
  separator_lt : blocks.Pairwise fun b b' => ∀ a ∈ b'.entries, c.compare b.separator a.1 = .lt

theorem finished_of_tableFile {c : Comparator} {file : Bytes} {blocks : List DataBlock}
    (hc : c.Lawful P) (ht : TableFile sn (fun _ => True) c P q file blocks) :
    Finished sn c file blocks where
  index := by
    obtain ⟨footer, _, hsections⟩ := ht.sections
    obtain ⟨front, hfile⟩ := hsections.ends
    exact ⟨front, footer, hfile, hsections.index⟩
  stored := by
    intro b hb
    exact ⟨ht.layout.nonempty b.placed (List.mem_append_left _ (List.mem_map_of_mem hb)),
      ht.stored b hb⟩
  contiguous := ht.contiguous
  le_separator := ht.layout.le_separator
  separator_lt := ht.layout.parts.imp fun hparts a ha => (hparts a ha).separator_lt hc

/-- **Building a table without faults**: the index is in order after any calls, and in the finished
table. -/
theorem runCalls_indexOk (sn : Snappy) (hp : Proper P options calls) {file : WritableFile}
    (hempty : file.contents = []) (hsound : file.Sound) :
    ∃ r, TableBuilder.new options file = some r ∧
      ((outcome (r.runCalls sn calls)).file.contents.length < 2 ^ 63 →
        ∃ r' index, r.runCalls sn calls = .ok r' ∧ r'.options = options ∧ IndexOk r' index) ∧
      ((outcome (r.build sn calls)).file.contents.length < 2 ^ 63 →
        ∃ r' blocks, r.build sn calls = .ok r' ∧ r'.status = .success ∧
          r'.fileSize = r'.file.contents.length ∧
          Finished sn options.comparator r'.file.contents blocks ∧
          (blocks.map DataBlock.entries).flatten = added calls) := by
  obtain ⟨q, r, hnew, hready, hopt, hpolicy, hfit⟩ := hp.exists_ready sn hempty hsound
  have hfinal := finalOptions_of_steady hp.steady options
  refine ⟨r, hnew, fun hsmall => ?_, fun hsmall => ?_⟩
  · obtain ⟨r', blocks, pending, current, hrun, hready', -, hopt', -⟩ :=
      hready.runCalls hp.lawful hfit hp.optionsFit hp.keys hp.sorted hsmall
    exact ⟨r', _, hrun, by rw [hopt', hopt, hfinal], hready'.indexOk hp.lawful⟩
  · obtain ⟨r', blocks, hbuild, hstatus, hoffset, -, htable, hentries, -⟩ :=
      hready.build hp.lawful hfit hp.optionsFit (by rw [hopt, hfinal]; exact hpolicy) hp.keys
        hp.sorted hsmall
    exact ⟨r', blocks, hbuild, hstatus, hoffset, finished_of_tableFile hp.lawful htable, hentries⟩

/-- Two blocks, and a filter. -/
def twoBlocks : List Call := [.add [1] [10], .flush, .add [2] [20], .add [3] [30]]

theorem proper_twoBlocks : Proper (fun _ => True) (plainOptions (some acceptAll)) twoBlocks where
  lawful := bytewiseComparator_lawful
  interval_pos := by decide
  appends := by
    rintro _ ⟨⟩
    exact acceptAll_noFalseNegatives.appends
  steady := by simp [twoBlocks, Call.Steady]
  keys := fun _ _ => trivial
  sorted := by
    simp only [twoBlocks, added]
    decide

/-- The entries of the index while the second block is being filled, and the table in the end. -/
theorem runCalls_indexOk_two :
    ∃ r r' r'' index blocks, TableBuilder.new (plainOptions (some acceptAll)) .fresh = some r ∧
      r.runCalls .absent twoBlocks = .ok r' ∧ IndexOk r' index ∧
      r.build .absent twoBlocks = .ok r'' ∧ r''.status = .success ∧
      Finished .absent bytewiseComparator r''.file.contents blocks ∧
      (blocks.map DataBlock.entries).flatten = [([1], [10]), ([2], [20]), ([3], [30])] := by
  obtain ⟨r, hnew, hcalls, hbuild⟩ :=
    @runCalls_indexOk _ _ _ .absent proper_twoBlocks .fresh rfl fun _ => rfl
  have hr := Option.some.inj hnew
  obtain ⟨r', index, hrun, -, hindex⟩ := hcalls (by rw [← hr]; decide +kernel)
  obtain ⟨r'', blocks, hrun', hstatus, -, hfinished, hentries⟩ :=
    hbuild (by rw [← hr]; decide +kernel)
  exact ⟨r, r', r'', index, blocks, hnew, hrun, hindex, hrun', hstatus, hfinished, hentries⟩

end TableBuilder

end Squirrel
