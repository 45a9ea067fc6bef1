import Squirrel.Table.Table

/-!
# What is built can be read

A run of a builder on a file without faults, and then a table that is opened on the file. If the
options stay what they were, all that was added is found again, whatever the block size, the restart
interval and the calls of `Flush`.

`ChangeOptions` accepts more than the builder can bear. The block that is being built counts entries
since its last restart point, and asserts that there are no more than the interval allows, which may
just have become smaller. The filter block keeps the policy of the constructor, but `Finish` asks
the policy in the options for its name, and readers take that one.

## Main results

* `TableBuilder.build_openTable` — the round trip, with fixed options
* `TableBuilder.readsBack_of_fit` — and with options that change
-/

namespace Squirrel

open Coding

namespace TableBuilder

variable {sn : Snappy} {r r' : TableBuilder}

/-! ### Options that stay the same -/

theorem bind_eq_ok {α β : Type} {x : Except TableBuilder α} {f : α → Except TableBuilder β} {b : β}
    (h : x >>= f = .ok b) : ∃ a, x = .ok a ∧ f a = .ok b := by
  cases x with
  | error r => cases h
  | ok a => exact ⟨a, rfl, h⟩

theorem orAbort_eq_ok {α : Type} {x : Option α} {a : α} (h : r.orAbort x = .ok a) : x = some a := by
  cases x with
  | none => cases h
  | some b => rw [Except.ok.inj h]

/-- The options are those of before, and the data block is that of before or a new one. -/
structure Keeps (r r' : TableBuilder) : Prop where
  options_eq : r'.options = r.options
  dataBlock_eq : r'.dataBlock = r.dataBlock ∨ r'.dataBlock = .reset

theorem Keeps.refl (r : TableBuilder) : Keeps r r := ⟨rfl, .inl rfl⟩

theorem writeRawBlock_options (r : TableBuilder) (contents : Bytes) (type : CompressionType) :
    (r.writeRawBlock contents type).1.options = r.options := by
  rw [writeRawBlock]
  dsimp only
  split
  · split <;> rfl
  · rfl

theorem writeBlock_options {block : BlockBuilder} {p : TableBuilder × BlockHandle}
    (h : r.writeBlock sn block = .ok p) : p.1.options = r.options := by
  rw [writeBlock] at h
  split at h
  · rw [← Except.ok.inj h]
    exact writeRawBlock_options _ _ _
  · cases h

theorem startFilterBlock_eq (h : r.startFilterBlock = .ok r') :
    ∃ fb, r' = { r with filterBlock := fb } := by
  rw [startFilterBlock] at h
  split at h
  · exact ⟨r.filterBlock, (Except.ok.inj h).symm⟩
  · obtain ⟨fb, -, h⟩ := bind_eq_ok h
    exact ⟨some fb, (Except.ok.inj h).symm⟩

theorem flush_keeps (h : r.flush sn = .ok r') : Keeps r r' := by
  rw [flush] at h
  split_ifs at h
  · cases h
    exact .refl r
  · cases h
    exact .refl r
  · obtain ⟨⟨r₁, handle⟩, hwrite, h⟩ := bind_eq_ok h
    have hopt := writeBlock_options hwrite
    obtain ⟨fb, rfl⟩ := startFilterBlock_eq h
    constructor
    · dsimp only at hopt ⊢
      split <;> exact hopt
    · right
      dsimp only
      split <;> rfl

theorem addPending_keeps {key : Bytes} (h : r.addPending key = .ok r') : Keeps r r' := by
  rw [addPending] at h
  split_ifs at h
  · obtain ⟨separator, -, h⟩ := bind_eq_ok h
    obtain ⟨handleEncoding, -, h⟩ := bind_eq_ok h
    obtain ⟨indexBlock, -, h⟩ := bind_eq_ok h
    cases h
    exact ⟨rfl, .inl rfl⟩
  · cases h
    exact .refl r

/-- The data block has no more entries since its last restart point than the options allow. -/
def CounterFits (r : TableBuilder) : Prop :=
  r.dataBlock.counter ≤ r.options.blockRestartInterval

theorem Keeps.counterFits (hk : Keeps r r') (h : r.CounterFits) : r'.CounterFits := by
  rw [CounterFits, hk.options_eq]
  rcases hk.dataBlock_eq with heq | heq
  · rw [heq]
    exact h
  · rw [heq]
    exact Nat.zero_le _

theorem add_counterFits (hpos : 1 ≤ r.options.blockRestartInterval) {key value : Bytes}
    (hfits : r.CounterFits) (h : r.add sn key value = .ok r') :
    r'.options = r.options ∧ r'.CounterFits := by
  rw [add] at h
  split_ifs at h
  · cases h
    exact ⟨rfl, hfits⟩
  · obtain ⟨r₁, hpending, h⟩ := bind_eq_ok h
    have hkeeps := addPending_keeps hpending
    rw [addEntry] at h
    obtain ⟨dataBlock, hadd, h⟩ := bind_eq_ok h
    have hle : dataBlock.counter ≤ r₁.options.blockRestartInterval :=
      BlockBuilder.counter_add (by rw [hkeeps.options_eq]; exact hpos) (orAbort_eq_ok hadd)
    dsimp only at h
    split_ifs at h
    · have hflush := flush_keeps h
      exact ⟨hflush.options_eq.trans hkeeps.options_eq, hflush.counterFits hle⟩
    · cases h
      exact ⟨hkeeps.options_eq, hle⟩

/-- Not a call of `ChangeOptions`. -/
def Call.Steady : Call → Prop
  | .changeOptions _ _ => False
  | _ => True

/-- Where the options stay the same, the counter always fits. -/
theorem countersFit_of_steady (sn : Snappy) {calls : List Call} (hsteady : ∀ c ∈ calls, c.Steady)
    (hpos : 1 ≤ r.options.blockRestartInterval) (hfits : r.CounterFits) :
    CountersFit sn r calls := by
  induction calls generalizing r with
  | nil => trivial
  | cons c calls ih =>
    refine ⟨fun _ _ _ => hfits, fun r' hr' => ?_⟩
    have hrest : ∀ c ∈ calls, c.Steady := fun c' hc' => hsteady c' (List.mem_cons_of_mem _ hc')
    cases c with
    | add key value =>
      obtain ⟨hopt, hfits'⟩ := add_counterFits hpos hfits hr'
      exact ih hrest (by rw [hopt]; exact hpos) hfits'
    | flush =>
      have hkeeps := flush_keeps hr'
      exact ih hrest (by rw [hkeeps.options_eq]; exact hpos) (hkeeps.counterFits hfits)
    | changeOptions same options => exact (hsteady _ List.mem_cons_self).elim

theorem finalOptions_of_steady {calls : List Call} (hsteady : ∀ c ∈ calls, c.Steady)
    (options : Options) : finalOptions options calls = options := by
  induction calls with
  | nil => rfl
  | cons c calls ih =>
    have hrest := ih fun c' hc' => hsteady c' (List.mem_cons_of_mem _ hc')
    cases c with
    | add key value => exact hrest
    | flush => exact hrest
    | changeOptions same options' => exact (hsteady _ List.mem_cons_self).elim

/-! ### Building and reading -/

theorem newFilterBlock_eq (policy : Option FilterPolicy) :
    newFilterBlock policy = some (policy.map FilterBlockBuilder.new) := by
  cases policy <;> rfl

theorem exists_new (options : Options) (file : WritableFile)
    (hinterval : 1 ≤ options.blockRestartInterval) :
    ∃ r, TableBuilder.new options file = some r ∧ r.options = options ∧
      r.dataBlock.counter = 0 := by
  have hnew : BlockBuilder.new options.blockRestartInterval = some .reset := if_pos hinterval
  rw [TableBuilder.new, hnew, newFilterBlock_eq]
  exact ⟨_, rfl, rfl, rfl⟩

theorem interval_of_new {options : Options} {file : WritableFile}
    (h : TableBuilder.new options file = some r) : 1 ≤ options.blockRestartInterval := by
  by_contra hlt
  have hnew : BlockBuilder.new options.blockRestartInterval = none := if_neg hlt
  rw [TableBuilder.new, hnew] at h
  cases h

/-- The compression setting never leads to a compressed block. -/
def NeverCompresses (sn : Snappy) (compression : CompressionType) : Prop :=
  compression = .kNoCompression ∨ ∀ raw, sn.compress raw = none

theorem uncompressed_neverCompresses (sn : Snappy) : Uncompressed sn (NeverCompresses sn) := by
  rintro compression hcomp raw ⟨rfl, compressed, hsome, -⟩
  rcases hcomp with hcomp | hnone
  · cases hcomp
  · rw [hnone raw] at hsome
    cases hsome

theorem uncompressed_kNoCompression (sn : Snappy) : Uncompressed sn (· = .kNoCompression) := by
  rintro _ rfl raw ⟨hsnappy, -⟩
  cases hsnappy

/-- A policy that fits all that is there. -/
theorem exists_policy (policy : Option FilterPolicy) : ∃ q, ∀ p, policy = some p → p = q := by
  cases policy with
  | none => exact ⟨⟨[], fun _ _ dst => dst, fun _ _ => true⟩, by simp⟩
  | some p => exact ⟨p, fun _ hp => (Option.some.inj hp).symm⟩

/-- Filters made with the policy of the constructor can be read with the one that the options have
at the end. -/
def PolicyFits (options : Options) (calls : List Call) : Prop :=
  ∀ p, options.filterPolicy = some p →
    ∃ q, (finalOptions options calls).filterPolicy = some q ∧ p.ReadBy q

/-- Runs from a new builder. -/
theorem build_of_new {K : CompressionType → Prop} {P : Bytes → Prop} {q : FilterPolicy}
    {options : Options} {file : WritableFile} {calls : List Call}
    (hnew : TableBuilder.new options file = some r) (hc : options.comparator.Lawful P)
    (hinterval : 1 ≤ options.blockRestartInterval) (hK : K options.compression)
    (hempty : file.contents = []) (hsound : file.Sound) (hoptions : OptionsFit K calls)
    (hfit : CountersFit sn r calls) (hpolicy : PolicyFits options calls)
    (hq : ∀ p, (finalOptions options calls).filterPolicy = some p → p = q)
    (hkeys : ∀ a ∈ added calls, P a.1)
    (hsorted : (added calls).Pairwise fun a b => options.comparator.compare a.1 b.1 = .lt)
    (hsmall : (outcome (r.build sn calls)).file.contents.length < 2 ^ 63) :
    ∃ r' blocks, r.build sn calls = .ok r' ∧ r'.status = .success ∧
      r'.offset = r'.file.contents.length ∧ r'.options = finalOptions options calls ∧
      TableFile sn K options.comparator P q r'.file.contents blocks ∧
      (blocks.map DataBlock.entries).flatten = added calls ∧
      MetaindexBehind r'.file.contents blocks ∧
      (BlocksFit sn r calls → SmallTable sn K q r'.file.contents blocks) := by
  have hread : ∀ p, options.filterPolicy = some p → p.ReadBy q := by
    intro p hp
    obtain ⟨q', hfinal, hread⟩ := hpolicy p hp
    rw [← hq q' hfinal]
    exact hread
  obtain ⟨r₁, hnew₁, hready, hopt, hnone, -⟩ :=
    ready_new sn (P := P) hempty hsound hinterval hK hread
  obtain rfl : r₁ = r := Option.some.inj (hnew₁.symm.trans hnew)
  have hfinal : r₁.filterBlock ≠ none →
      (finalOptions r₁.options calls).filterPolicy.map FilterPolicy.name = some q.name := by
    intro hne
    obtain ⟨p, hp⟩ := Option.ne_none_iff_exists'.mp fun h => hne (hnone.mpr h)
    obtain ⟨q', hfinal, -⟩ := hpolicy p hp
    rw [hopt, hfinal, hq q' hfinal]
    rfl
  have hbuild := hready.build hc hfit hoptions hfinal hkeys hsorted hsmall
  rw [hopt] at hbuild
  obtain ⟨r', blocks, hrun, hok, hoffset, hopt', htable, hentries, hbehind, hsizes⟩ := hbuild
  exact ⟨r', blocks, hrun, hok, hoffset, hopt', htable, hentries, hbehind,
    fun hfits => hsizes hfits fun w hw => by cases hw⟩

/-- **The round trip of a table.** -/
theorem build_openTable (sn : Snappy) {options : Options} {file : WritableFile} {calls : List Call}
    (hcmp : options.comparator = bytewiseComparator) (hinterval : 1 ≤ options.blockRestartInterval)
    (hpolicy : ∀ p, options.filterPolicy = some p → p.NoFalseNegatives)
    (hcomp : NeverCompresses sn options.compression) (hempty : file.contents = [])
    (hsound : file.Sound) (hcalls : ∀ c ∈ calls, c.Steady)
    (hsorted : (added calls).Pairwise fun a b => bytewiseComparator.compare a.1 b.1 = .lt) :
    ∃ r, TableBuilder.new options file = some r ∧
      ((outcome (r.build sn calls)).file.contents.length < 2 ^ 32 →
        ∃ r', r.build sn calls = .ok r' ∧ r'.status = .success ∧
          r'.fileSize = r'.file.contents.length ∧
          ∀ f : RandomAccessFile, f.contents = r'.file.contents → f.Readable →
            ∀ (junk : ℕ → UInt8) (options' : Options), options'.comparator = bytewiseComparator →
              ∃ table, Table.openTable sn junk options' f r'.fileSize
                  = some (.success, some table) ∧
                ∀ verify, (Table.iterator sn junk verify table).BehavesWith
                  (fun t => t.status (Table.levels sn junk verify table) = .success)
                  (fun a k => bytewiseComparator.compare a.1 k = .lt) (added calls)
                  (Table.newIterator sn junk verify table) none) := by
  obtain ⟨q, hq⟩ := exists_policy options.filterPolicy
  obtain ⟨r, hnew, hopt, hcounter⟩ := exists_new options file hinterval
  refine ⟨r, hnew, fun hsmall => ?_⟩
  have hfits : r.CounterFits := by
    rw [CounterFits, hcounter]
    exact Nat.zero_le _
  have hcounters := countersFit_of_steady sn hcalls (by rw [hopt]; exact hinterval) hfits
  have hoptions : OptionsFit (NeverCompresses sn) calls := fun same o hmem =>
    (hcalls _ hmem).elim
  have hfinal := finalOptions_of_steady hcalls options
  have hpolicy' : PolicyFits options calls := fun p hp =>
    ⟨p, by rw [hfinal]; exact hp, FilterPolicy.readBy_self (hpolicy p hp)⟩
  obtain ⟨r', blocks, hbuild, hstatus, hoffset, -, htable, hentries, -, -⟩ := build_of_new hnew
    (hcmp ▸ bytewiseComparator_lawful) hinterval hcomp hempty hsound hoptions hcounters hpolicy'
    (by rw [hfinal]; exact hq) (fun _ _ => trivial) (hcmp ▸ hsorted) (hsmall.trans (by norm_num))
  refine ⟨r', hbuild, hstatus, hoffset, fun f hf hreadable junk options' hcmp' => ?_⟩
  rw [hbuild] at hsmall
  have hsmall' := htable.small hsmall
  rw [← hf] at hsmall'
  rw [← hf, hcmp] at htable
  obtain ⟨table, hopen, hopened⟩ := Table.openTable_of_tableFile htable
    (uncompressed_neverCompresses sn) hreadable hsmall' junk options'
  refine ⟨table, ?_, fun verify => ?_⟩
  · rw [fileSize, hoffset, ← hf]
    exact hopen
  · have hbehaves := Table.behaves_of_tableFile bytewiseComparator_lawful htable
      (uncompressed_neverCompresses sn) hreadable hsmall' hopened hcmp' junk verify
    rw [hentries] at hbehaves
    exact hbehaves

/-- A policy whose filters accept everything. -/
def acceptAll : FilterPolicy := ⟨[97], fun _ _ dst => dst, fun _ _ => true⟩

theorem acceptAll_noFalseNegatives : acceptAll.NoFalseNegatives where
  appends := fun _ _ dst => ⟨[], (List.append_nil dst).symm⟩
  accepts := fun _ _ dst => ⟨[], (List.append_nil dst).symm, fun _ _ => rfl⟩

/-- Options for small tables. -/
def plainOptions (filterPolicy : Option FilterPolicy) : Options :=
  ⟨bytewiseComparator, false, 4096, 16, .kNoCompression, filterPolicy⟩

/-- Two entries in two blocks, with a filter. -/
theorem build_openTable_two :
    let calls := [Call.add [1] [10], .flush, .add [2] [20]]
    ∃ r r', TableBuilder.new (plainOptions (some acceptAll)) .fresh = some r ∧
      r.build .absent calls = .ok r' ∧ r'.status = .success ∧
      ∀ junk, ∃ table, Table.openTable .absent junk (plainOptions none)
          (.mmap "t" r'.file.contents) r'.fileSize = some (.success, some table) ∧
        ∀ verify, (Table.iterator .absent junk verify table).BehavesWith
          (fun t => t.status (Table.levels .absent junk verify table) = .success)
          (fun a k => bytewiseComparator.compare a.1 k = .lt) [([1], [10]), ([2], [20])]
          (Table.newIterator .absent junk verify table) none := by
  intro calls
  obtain ⟨r, hnew, hround⟩ := @build_openTable .absent (plainOptions (some acceptAll)) .fresh calls
    rfl (by decide)
    (by rintro _ ⟨⟩; exact acceptAll_noFalseNegatives) (.inl rfl) rfl (fun _ => rfl)
    (by simp [calls, Call.Steady]) (by simp [calls, added]; decide)
  have hsmall : (outcome (r.build .absent calls)).file.contents.length < 2 ^ 32 := by
    rw [← Option.some.inj hnew]
    decide +kernel
  obtain ⟨r', hbuild, hstatus, hsize, hopen⟩ := hround hsmall
  rw [hbuild] at hsmall
  change r'.file.contents.length < 2 ^ 32 at hsmall
  refine ⟨r, r', hnew, hbuild, hstatus, fun junk => ?_⟩
  exact hopen _ rfl (RandomAccessFile.readable_mmap "t" (hsmall.trans (by norm_num))) junk
    (plainOptions none) rfl

/-! ### Options that change -/

/-- No assertion fails and no policy is missing, `Finish` succeeds, and a table that is opened with
the options of the end returns all pairs, by iteration and by lookup. -/
def ReadsBack (sn : Snappy) (r : TableBuilder) (calls : List Call) : Prop :=
  ∃ r', r.build sn calls = .ok r' ∧ r'.status = .success ∧
    ∀ f : RandomAccessFile, f.contents = r'.file.contents → f.Readable → ∀ junk : ℕ → UInt8,
      ∃ table, Table.openTable sn junk r'.options f r'.fileSize = some (.success, some table) ∧
        ∀ verify, (Table.iterator sn junk verify table).BehavesWith
            (fun t => t.status (Table.levels sn junk verify table) = .success)
            (fun a k => r'.options.comparator.compare a.1 k = .lt) (added calls)
            (Table.newIterator sn junk verify table) none ∧
          ∀ a ∈ added calls, Table.internalGet sn junk verify table a.1 = some (.success, [a])

theorem comparator_finalOptions (options : Options) (calls : List Call) :
    (finalOptions options calls).comparator = options.comparator := by
  induction calls generalizing options with
  | nil => rfl
  | cons c calls ih =>
    cases c with
    | add key value => exact ih options
    | flush => exact ih options
    | changeOptions same options' =>
      cases same with
      | false => exact ih options
      | true => exact ih _

/-- **What is built with changing options can be read**, if each change leaves an interval that the
block that is being built can bear, the policy of the end can read the filters, and no block has
`2 ^ 32` bytes or more. -/
theorem readsBack_of_fit {P : Bytes → Prop} {options : Options} {file : WritableFile}
    {calls : List Call} (hnew : TableBuilder.new options file = some r)
    (hc : options.comparator.Lawful P) (hcomp : options.compression = .kNoCompression)
    (hempty : file.contents = []) (hsound : file.Sound)
    (hchanges : OptionsFit (· = .kNoCompression) calls) (hkeys : ∀ a ∈ added calls, P a.1)
    (hsorted : (added calls).Pairwise fun a b => options.comparator.compare a.1 b.1 = .lt)
    (hfit : CountersFit sn r calls) (hpolicy : PolicyFits options calls)
    (hsmall : (outcome (r.build sn calls)).file.contents.length < 2 ^ 63)
    (hblocks : BlocksFit sn r calls) : ReadsBack sn r calls := by
  have hinterval : 1 ≤ options.blockRestartInterval := interval_of_new hnew
  obtain ⟨q, hq⟩ := exists_policy (finalOptions options calls).filterPolicy
  obtain ⟨r', blocks, hbuild, hstatus, hoffset, hopt, htable, hentries, -, hsizes⟩ := build_of_new
    hnew hc hinterval hcomp hempty hsound hchanges hfit hpolicy hq hkeys hsorted hsmall
  refine ⟨r', hbuild, hstatus, fun f hf hreadable junk => ?_⟩
  have hK := uncompressed_kNoCompression sn
  have hsmallTable := hsizes hblocks
  rw [← hf] at hsmallTable htable
  have hcmp : r'.options.comparator = options.comparator := by rw [hopt, comparator_finalOptions]
  obtain ⟨table, hopen, hopened⟩ :=
    Table.openTable_of_tableFile htable hK hreadable hsmallTable junk r'.options
  refine ⟨table, ?_, fun verify => ⟨?_, fun a ha => ?_⟩⟩
  · rw [fileSize, hoffset, ← hf]
    exact hopen
  · have hbehaves :=
      Table.behaves_of_tableFile hc htable hK hreadable hsmallTable hopened hcmp junk verify
    rw [hentries] at hbehaves
    rw [hcmp]
    exact hbehaves
  · rw [← hentries] at ha
    exact Table.internalGet_of_mem hc htable hK hreadable hsmallTable hopened hcmp
      (by rw [hopt]; exact hq) junk verify ha

/-- The interval may go down to the number of entries that there are. -/
theorem readsBack_lowered :
    let calls := [Call.add [1] [10], .changeOptions true { plainOptions none with
      blockRestartInterval := 1 }, .add [2] [20]]
    ∃ r, TableBuilder.new (plainOptions none) .fresh = some r ∧ ReadsBack .absent r calls := by
  intro calls
  obtain ⟨r, hnew, -, -⟩ := exists_new (plainOptions none) .fresh (by decide)
  have hr := Option.some.inj hnew
  refine ⟨r, hnew, readsBack_of_fit hnew bytewiseComparator_lawful rfl rfl (fun _ => rfl) ?_
    (fun _ _ => trivial) ?_ ?_ (fun p hp => by cases hp) ?_ ?_⟩
  · intro same options hmem
    simp only [calls, List.mem_cons, reduceCtorEq, Call.changeOptions.injEq, List.not_mem_nil,
      or_false, false_or] at hmem
    obtain ⟨-, rfl⟩ := hmem
    exact ⟨Nat.le_refl 1, rfl⟩
  · simp only [calls, added]
    decide
  · refine ⟨fun _ _ _ => by rw [← hr]; decide, fun r₁ h₁ => ?_⟩
    refine ⟨by rintro _ _ ⟨⟩, fun r₂ h₂ => ?_⟩
    refine ⟨fun _ _ _ => ?_, fun r₃ h₃ => trivial⟩
    rw [← Except.ok.inj h₂]
    rw [← hr] at h₁
    rw [← Except.ok.inj h₁]
    decide +kernel
  · rw [← hr]
    decide +kernel
  · rw [← hr]
    decide +kernel

theorem not_readsBack_of_error {calls : List Call}
    (h : (match r.build sn calls with | .ok _ => true | .error _ => false) = false) :
    ¬ ReadsBack sn r calls := by
  rintro ⟨r', hbuild, -⟩
  rw [hbuild] at h
  cases h

/-- **Changes that `ChangeOptions` accepts and the builder cannot bear**: an interval of one while
the block has two entries since its last restart point, and no policy where the constructor had
one. -/
theorem not_readsBack :
    (∃ r, TableBuilder.new (plainOptions none) .fresh = some r ∧
      (r.changeOptions true { plainOptions none with blockRestartInterval := 1 }).1 = .success ∧
      ¬ ReadsBack .absent r [.add [1] [], .add [2] [], .changeOptions true { plainOptions none with
        blockRestartInterval := 1 }, .add [3] []]) ∧
    ∃ r, TableBuilder.new (plainOptions (some acceptAll)) .fresh = some r ∧
      (r.changeOptions true (plainOptions none)).1 = .success ∧
      ¬ ReadsBack .absent r [.changeOptions true (plainOptions none)] := by
  refine ⟨⟨_, rfl, rfl, not_readsBack_of_error ?_⟩, ⟨_, rfl, rfl, not_readsBack_of_error ?_⟩⟩
  · decide +kernel
  · decide +kernel

end TableBuilder

end Squirrel
