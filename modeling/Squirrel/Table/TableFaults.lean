import Mathlib.Data.List.Induction
import Squirrel.Table.TableRuns

/-!
# Building tables on files that fail

A call on the file may fail at any point of a run. From then on the builder is to leave the file
alone and to keep the error, and no assertion is to fail, although the builder is left in the middle
of something: the data block has been emptied, and the filter is told of a block that may not be
there.

The run is compared with one on a file without faults (`heal`). The two are in step up to the first
failed call (`Follows`), and what is known about runs without faults holds up to there. The only
assertion that is reached after that is the one in `StartBlock`, and the offset, where it is not
that of before, is that of the run without faults.

## Main results

* `TableBuilder.runCalls_sticky` — the first error ends the output, and is what is returned
-/

namespace Squirrel

open Coding

namespace TableBuilder

variable {sn : Snappy} {P : Bytes → Prop} {options : Options} {r r' : TableBuilder}
  {calls : List Call} {fate : ℕ → Status} {closed : Bool}

/-! ### Calls on the file -/

/-- No call on the file has failed. -/
structure Clean (fate : ℕ → Status) (closed : Bool) (r : TableBuilder) : Prop where
  fate_eq : r.file.fate = fate
  calls_ok : ∀ i < r.file.calls, fate i = .success
  status_eq : r.status = .success
  closed_eq : r.closed = closed

/-- The last call on the file has failed, it was the first that did, and its status is that of the
builder. -/
structure Broken (fate : ℕ → Status) (closed : Bool) (r : TableBuilder) : Prop where
  fate_eq : r.file.fate = fate
  calls_eq : ∃ n, r.file.calls = n + 1 ∧ (∀ i < n, fate i = .success) ∧ r.status = fate n
  status_ne : r.status.ok = false
  closed_eq : r.closed = closed

/-- One more call on the file. -/
theorem Clean.next (hc : Clean fate closed r) (hfate : r'.file.fate = r.file.fate)
    (hcalls : r'.file.calls = r.file.calls + 1) (hstatus : r'.status = fate r.file.calls)
    (hclosed : r'.closed = r.closed) :
    r'.status.ok = true ∧ Clean fate closed r' ∨ Broken fate closed r' := by
  cases hok : r'.status.ok with
  | true =>
    refine .inl ⟨rfl, hfate.trans hc.fate_eq, fun i hi => ?_, Status.eq_success_of_ok hok,
      hclosed.trans hc.closed_eq⟩
    rw [hcalls] at hi
    rcases Nat.lt_succ_iff_lt_or_eq.mp hi with hi | rfl
    · exact hc.calls_ok i hi
    · rw [← hstatus]
      exact Status.eq_success_of_ok hok
  | false =>
    exact .inr ⟨hfate.trans hc.fate_eq, ⟨_, hcalls, hc.calls_ok, hstatus⟩, hok,
      hclosed.trans hc.closed_eq⟩

/-- After an error, `Add` and `Flush` do nothing. -/
theorem Broken.call (hb : Broken fate false r) {c : Call} (hsteady : c.Steady) :
    r.call sn c = .ok r := by
  cases c with
  | add key value =>
    rw [TableBuilder.call, TableBuilder.add, hb.closed_eq, hb.status_ne]
    rfl
  | flush =>
    rw [TableBuilder.call, TableBuilder.flush, hb.closed_eq, hb.status_ne]
    rfl
  | changeOptions same options => exact hsteady.elim

theorem Broken.runCalls (hb : Broken fate false r) (hsteady : ∀ c ∈ calls, c.Steady) :
    r.runCalls sn calls = .ok r := by
  induction calls with
  | nil => rfl
  | cons c calls ih =>
    rw [runCalls_cons (hb.call (hsteady c List.mem_cons_self))]
    exact ih fun c' hc' => hsteady c' (List.mem_cons_of_mem _ hc')

/-- `Finish` after the filter has been written. -/
def writeTail (sn : Snappy) (p : TableBuilder × BlockHandle) :
    Except TableBuilder TableBuilder := do
  let (r, hm) ← p.1.writeMetaindex sn p.2
  let (r, hi) ← r.writeIndex sn
  r.writeFooter hm hi

theorem finish_eq (sn : Snappy) (r : TableBuilder) :
    r.finish sn = r.flush sn >>= fun r => writeTail sn (writeFilter { r with closed := true }) :=
  rfl

theorem Broken.writeTail {p : TableBuilder × BlockHandle} (hb : Broken fate closed p.1) :
    writeTail sn p = .ok p.1 := by
  simp only [TableBuilder.writeTail, bind, Except.bind, writeMetaindex, writeIndex, writeFooter,
    hb.status_ne, Bool.false_eq_true, if_false]

/-- After an error, `Finish` only closes the builder. -/
theorem Broken.close (sn : Snappy) (hb : Broken fate closed r) :
    TableBuilder.writeTail sn (writeFilter { r with closed := true })
      = .ok { r with closed := true } ∧
      Broken fate true { r with closed := true } := by
  have hb' : Broken fate true { r with closed := true } :=
    ⟨hb.fate_eq, hb.calls_eq, hb.status_ne, rfl⟩
  have hfilter : writeFilter { r with closed := true } = ({ r with closed := true }, .new) := by
    rw [writeFilter]
    dsimp only
    rw [hb.status_ne]
  rw [hfilter]
  exact ⟨Broken.writeTail hb', hb'⟩

theorem Broken.finish (hb : Broken fate false r) :
    r.finish sn = .ok { r with closed := true } := by
  have hflush : r.call sn .flush = .ok r := hb.call trivial
  rw [finish_eq, show r.flush sn = .ok r from hflush]
  exact (hb.close sn).1

theorem Broken.build (hb : Broken fate false r) (hsteady : ∀ c ∈ calls, c.Steady) :
    r.build sn calls = .ok { r with closed := true } := by
  rw [build_eq_bind, hb.runCalls hsteady]
  exact hb.finish

/-! ### The run without faults -/

/-- The builder, with a file none of whose calls fail. -/
def heal (r : TableBuilder) : TableBuilder :=
  { r with file := { r.file with fate := fun _ => .success } }

/-- A computation that ends with a builder, with another file. -/
def healed {α : Type} (g : α → α) : Except TableBuilder α → Except TableBuilder α
  | .ok a => .ok (g a)
  | .error r => .error r.heal

theorem healed_eq_ok {α : Type} {g : α → α} {x : Except TableBuilder α} {b : α}
    (h : healed g x = .ok b) : ∃ a, x = .ok a ∧ g a = b := by
  cases x with
  | error r => cases h
  | ok a => exact ⟨a, rfl, Except.ok.inj h⟩

theorem outcome_healed (x : Except TableBuilder TableBuilder) :
    outcome (healed heal x) = (outcome x).heal := by
  cases x <;> rfl

/-- The computation `x` is in step with `y`, where nothing fails, or is stopped by a failed call. -/
def Follows {α : Type} (fate : ℕ → Status) (closed : Bool) (get : α → TableBuilder) (g : α → α)
    (x y : Except TableBuilder α) : Prop :=
  (y = healed g x ∧ ∀ a, x = .ok a → Clean fate closed (get a)) ∨
    ∃ a, x = .ok a ∧ Broken fate closed (get a)

section

variable {α β : Type} {get : α → TableBuilder} {g : α → α} {get' : β → TableBuilder}
  {g' : β → β}

theorem Follows.bind {x y : Except TableBuilder α} {f f' : α → Except TableBuilder β}
    (h : Follows fate closed get g x y)
    (hclean : ∀ a, x = .ok a → Clean fate closed (get a) →
      Follows fate closed get' g' (f a) (f' (g a)))
    (hbroken : ∀ a, x = .ok a → Broken fate closed (get a) →
      ∃ b, f a = .ok b ∧ Broken fate closed (get' b)) :
    Follows fate closed get' g' (x >>= f) (y >>= f') := by
  rcases h with ⟨rfl, hc⟩ | ⟨a, rfl, hb⟩
  · cases x with
    | error r => exact .inl ⟨rfl, fun b hb => by cases hb⟩
    | ok a => exact hclean a rfl (hc a rfl)
  · exact .inr (hbroken a rfl hb)

theorem follows_ok {a : α} (hc : Clean fate closed (get a)) :
    Follows fate closed get g (.ok a) (.ok (g a)) := by
  refine .inl ⟨rfl, ?_⟩
  rintro _ ⟨⟩
  exact hc

theorem follows_error (r : TableBuilder) :
    Follows fate closed get g (.error r) (.error r.heal) :=
  .inl ⟨rfl, by simp⟩

/-- An assertion that is not about the file. -/
theorem follows_orAbort_bind (r : TableBuilder) (a : Option α) {f f' : α → Except TableBuilder β}
    (hf : ∀ a, Follows fate closed get' g' (f a) (f' a)) :
    Follows fate closed get' g' (r.orAbort a >>= f) (r.heal.orAbort a >>= f') := by
  cases a with
  | none => exact follows_error r
  | some a => exact hf a

end

/-! ### Writing blocks -/

/-- A block and its handle, with another file. -/
def healBlock (p : TableBuilder × BlockHandle) : TableBuilder × BlockHandle := (p.1.heal, p.2)

theorem writeRawBlock_follows (hc : Clean fate closed r) (contents : Bytes)
    (type : CompressionType) :
    Follows fate closed Prod.fst healBlock (.ok (r.writeRawBlock contents type))
      (.ok (r.heal.writeRawBlock contents type)) := by
  have hheal : r.heal.file.Sound := fun _ => rfl
  -- the builder after the first `Append`, and after the second
  generalize hr₁ : { r with
    status := (r.file.append contents).1
    file := (r.file.append contents).2 } = r₁
  generalize hr₂ : { r₁ with
    status := (r₁.file.append (blockTrailer contents type)).1
    file := (r₁.file.append (blockTrailer contents type)).2 } = r₂
  have hwrite : r.writeRawBlock contents type = if r₁.status.ok then
      if r₂.status.ok then
        ({ r₂ with offset := (r.offset + (contents.length + kBlockTrailerSize)) % 2 ^ 64 },
          ⟨r.offset, contents.length⟩)
      else (r₂, ⟨r.offset, contents.length⟩)
    else (r₁, ⟨r.offset, contents.length⟩) := by
    subst hr₁ hr₂
    rfl
  have hnext₁ : r₁.status.ok = true ∧ Clean fate closed r₁ ∨ Broken fate closed r₁ := by
    subst hr₁
    exact hc.next rfl rfl (by rw [← hc.fate_eq]; rfl) rfl
  rw [hwrite]
  rcases hnext₁ with ⟨hok₁, hc₁⟩ | hb₁
  · have hnext₂ : r₂.status.ok = true ∧ Clean fate closed r₂ ∨ Broken fate closed r₂ := by
      subst hr₂
      exact hc₁.next rfl rfl (by rw [← hc₁.fate_eq]; rfl) rfl
    rw [if_pos hok₁]
    rcases hnext₂ with ⟨hok₂, hc₂⟩ | hb₂
    · rw [if_pos hok₂]
      refine .inl ⟨?_, ?_⟩
      · subst hr₁ hr₂
        have hs₁ : r.file.fate r.file.calls = .success := Status.eq_success_of_ok hok₁
        have hs₂ : r.file.fate (r.file.calls + 1) = .success := Status.eq_success_of_ok hok₂
        rw [writeRawBlock_of_sound hheal]
        simp [healed, healBlock, heal, WritableFile.append, hs₁, hs₂, storedBlock,
          kBlockTrailerSize]
      · rintro _ ⟨⟩
        exact ⟨hc₂.fate_eq, hc₂.calls_ok, hc₂.status_eq, hc₂.closed_eq⟩
    · rw [if_neg (by rw [hb₂.status_ne]; decide)]
      exact .inr ⟨_, rfl, hb₂⟩
  · rw [if_neg (by rw [hb₁.status_ne]; decide)]
    exact .inr ⟨_, rfl, hb₁⟩

theorem writeBlock_follows (hc : Clean fate closed r) (block : BlockBuilder) :
    Follows fate closed Prod.fst healBlock (r.writeBlock sn block)
      (r.heal.writeBlock sn block) := by
  have hheal : r.heal.status = .success := hc.status_eq
  rw [writeBlock_of_ok hc.status_eq, writeBlock_of_ok hheal]
  exact writeRawBlock_follows hc _ _

/-! ### `Flush` -/

/-- The filter block has not got ahead of the file. -/
def InStep (r : TableBuilder) : Prop :=
  ∀ fb, r.filterBlock = some fb → fb.filterOffsets.length ≤ r.offset / kFilterBase

theorem InStep.of_le (hs : InStep r) (hfb : r'.filterBlock = r.filterBlock)
    (hle : r.offset ≤ r'.offset) : InStep r' := by
  intro fb h
  rw [hfb] at h
  exact (hs fb h).trans (Nat.div_le_div_right hle)

theorem startFilterBlock_follows (hc : Clean fate closed r) :
    Follows fate closed id heal r.startFilterBlock r.heal.startFilterBlock := by
  rw [startFilterBlock, startFilterBlock, show r.heal.filterBlock = r.filterBlock from rfl]
  split
  · exact follows_ok hc
  · refine follows_orAbort_bind r _ fun fb => ?_
    exact follows_ok ⟨hc.fate_eq, hc.calls_ok, hc.status_eq, hc.closed_eq⟩

theorem Broken.startFilterBlock (hb : Broken fate closed r) (hs : InStep r) :
    ∃ r', r.startFilterBlock = .ok r' ∧ Broken fate closed r' := by
  rw [TableBuilder.startFilterBlock]
  split
  · exact ⟨r, rfl, hb⟩
  · next fb hfb =>
    have hstart : ∃ fb', fb.startBlock r.offset = some fb' := ⟨_, if_pos (hs fb hfb)⟩
    obtain ⟨fb', hfb'⟩ := hstart
    rw [hfb']
    exact ⟨_, rfl, hb.fate_eq, hb.calls_eq, hb.status_ne, hb.closed_eq⟩

/-- The offset moves with the file, if at all. -/
theorem InStep.writeRawBlock (hs : InStep r) (hoff : r.offset = r.file.contents.length)
    (contents : Bytes) (type : CompressionType)
    (hsmall : (r.writeRawBlock contents type).1.file.contents.length < 2 ^ 63) :
    InStep (r.writeRawBlock contents type).1 := by
  rw [TableBuilder.writeRawBlock] at hsmall ⊢
  dsimp only at hsmall ⊢
  split at hsmall
  · next hok₁ =>
    rw [if_pos hok₁]
    split at hsmall
    · next hok₂ =>
      rw [if_pos hok₂]
      refine hs.of_le rfl ?_
      have hok₁' : (r.file.fate r.file.calls).ok = true := hok₁
      have hok₂' : (r.file.fate (r.file.calls + 1)).ok = true := hok₂
      simp only [WritableFile.append, hok₁', hok₂', if_true, List.length_append] at hsmall
      have hfive : (blockTrailer contents type).length = kBlockTrailerSize := rfl
      change r.offset ≤ (r.offset + (contents.length + kBlockTrailerSize)) % 2 ^ 64
      rw [Nat.mod_eq_of_lt (by omega)]
      exact Nat.le_add_right _ _
    · next hok₂ =>
      rw [if_neg hok₂]
      exact hs.of_le rfl (Nat.le_refl _)
  · next hok₁ =>
    rw [if_neg hok₁]
    exact hs.of_le rfl (Nat.le_refl _)

/-- `Flush` between `WriteBlock` and `StartBlock`. -/
def afterWrite (p : TableBuilder × BlockHandle) : TableBuilder :=
  let r := { p.1 with pendingHandle := p.2, dataBlock := .reset }
  if r.status.ok then
    let (status, file) := r.file.flush
    { r with pendingIndexEntry := true, status, file }
  else r

theorem afterWrite_heal {p : TableBuilder × BlockHandle} (hc : Clean fate closed p.1) :
    (afterWrite (healBlock p) = (afterWrite p).heal ∧ Clean fate closed (afterWrite p)) ∨
      Broken fate closed (afterWrite p) := by
  have hok : p.1.status.ok = true := by rw [hc.status_eq]; rfl
  have heq : afterWrite p = { p.1 with
      pendingHandle := p.2
      dataBlock := .reset
      pendingIndexEntry := true
      status := p.1.file.flush.1
      file := p.1.file.flush.2 } := if_pos hok
  have hheal : afterWrite (healBlock p) = { p.1.heal with
      pendingHandle := p.2
      dataBlock := .reset
      pendingIndexEntry := true
      status := p.1.heal.file.flush.1
      file := p.1.heal.file.flush.2 } := if_pos hok
  have hnext : (afterWrite p).status.ok = true ∧ Clean fate closed (afterWrite p) ∨
      Broken fate closed (afterWrite p) := by
    rw [heq]
    exact hc.next rfl rfl (by rw [← hc.fate_eq]; rfl) rfl
  rcases hnext with ⟨-, hc'⟩ | hb
  · refine .inl ⟨?_, hc'⟩
    rw [heq] at hc'
    have hflush : p.1.file.flush.1 = .success := hc'.status_eq
    rw [hheal, heq, heal, heal]
    simp only [hflush]
    rfl
  · rw [heq] at hb ⊢
    exact .inr hb

/-- Nothing more is written. -/
theorem afterWrite_keeps (p : TableBuilder × BlockHandle) :
    (afterWrite p).filterBlock = p.1.filterBlock ∧ (afterWrite p).offset = p.1.offset ∧
      (afterWrite p).file.contents = p.1.file.contents := by
  rw [afterWrite]
  dsimp only
  split <;> exact ⟨rfl, rfl, rfl⟩

theorem Broken.afterWrite {p : TableBuilder × BlockHandle}
    (hb : Broken fate closed p.1) : Broken fate closed (afterWrite p) := by
  have heq : TableBuilder.afterWrite p = { p.1 with pendingHandle := p.2, dataBlock := .reset } :=
    if_neg (by rw [hb.status_ne]; decide)
  rw [heq]
  exact ⟨hb.fate_eq, hb.calls_eq, hb.status_ne, hb.closed_eq⟩

theorem flush_follows (hc : Clean fate closed r) (hoff : r.offset = r.file.contents.length)
    (hs : InStep r) (hsmall : (outcome (r.flush sn)).file.contents.length < 2 ^ 63) :
    Follows fate closed id heal (r.flush sn) (r.heal.flush sn) := by
  have hheal : r.heal.flush sn = if r.closed then .error r.heal
    else if r.status.ok = false then .ok r.heal
    else if r.dataBlock.empty then .ok r.heal
    else if r.pendingIndexEntry then .error r.heal
    else r.heal.writeBlock sn r.dataBlock >>= fun p => (afterWrite p).startFilterBlock := rfl
  have hflush : r.flush sn = if r.closed then .error r
    else if r.status.ok = false then .ok r
    else if r.dataBlock.empty then .ok r
    else if r.pendingIndexEntry then .error r
    else r.writeBlock sn r.dataBlock >>= fun p => (afterWrite p).startFilterBlock := rfl
  rw [hflush] at hsmall ⊢
  rw [hheal]
  split_ifs at hsmall ⊢
  · exact follows_error r
  · exact follows_ok hc
  · exact follows_ok hc
  · exact follows_error r
  · rw [writeBlock_of_ok hc.status_eq] at hsmall
    have hsmall' := Nat.lt_of_le_of_lt (startFilterBlock_grows _).outcome_ge hsmall
    rw [(afterWrite_keeps _).2.2] at hsmall'
    -- whatever has been written, the filter can be told
    have hstep : ∀ p, r.writeBlock sn r.dataBlock = .ok p → InStep (afterWrite p) := by
      intro p hp
      rw [writeBlock_of_ok hc.status_eq] at hp
      obtain rfl := Except.ok.inj hp
      exact (hs.writeRawBlock hoff _ _ hsmall').of_le (afterWrite_keeps _).1
        (Nat.le_of_eq (afterWrite_keeps _).2.1.symm)
    refine (writeBlock_follows hc r.dataBlock).bind (fun p hp hcp => ?_) fun p hp hb => ?_
    · rcases afterWrite_heal hcp with ⟨heq, hc'⟩ | hb
      · rw [heq]
        exact startFilterBlock_follows hc'
      · exact .inr (hb.startFilterBlock (hstep p hp))
    · exact hb.afterWrite.startFilterBlock (hstep p hp)

/-! ### `Add` -/

theorem addIndexEntry_follows (hc : Clean fate closed r) (separator : Option Bytes) :
    Follows fate closed id heal (r.addIndexEntry separator) (r.heal.addIndexEntry separator) := by
  refine follows_orAbort_bind r _ fun separator => ?_
  refine follows_orAbort_bind r _ fun handleEncoding => ?_
  refine follows_orAbort_bind r _ fun indexBlock => ?_
  exact follows_ok ⟨hc.fate_eq, hc.calls_ok, hc.status_eq, hc.closed_eq⟩

theorem addPending_follows (hc : Clean fate closed r) (key : Bytes) :
    Follows fate closed id heal (r.addPending key) (r.heal.addPending key) := by
  have hheal : r.heal.addPending key = if r.pendingIndexEntry then
      if r.dataBlock.empty then
        r.heal.addIndexEntry (r.options.comparator.findShortestSeparator r.lastKey key)
      else .error r.heal
    else .ok r.heal := rfl
  rw [addPending, hheal]
  split_ifs
  · exact addIndexEntry_follows hc _
  · exact follows_error r
  · exact follows_ok hc

/-- `Add` leaves all that concerns the file to `Flush`. -/
theorem addPending_eq {key : Bytes} (h : r.addPending key = .ok r') :
    ∃ indexBlock lastKey pendingIndexEntry,
      r' = { r with indexBlock, lastKey, pendingIndexEntry } := by
  rw [addPending] at h
  split_ifs at h
  · obtain ⟨separator, -, h⟩ := bind_eq_ok h
    obtain ⟨handleEncoding, -, h⟩ := bind_eq_ok h
    obtain ⟨indexBlock, -, h⟩ := bind_eq_ok h
    exact ⟨indexBlock, separator, false, (Except.ok.inj h).symm⟩
  · exact ⟨r.indexBlock, r.lastKey, r.pendingIndexEntry, (Except.ok.inj h).symm⟩

theorem addEntry_follows (hc : Clean fate closed r) (hoff : r.offset = r.file.contents.length)
    (hs : InStep r) {key value : Bytes}
    (hsmall : (outcome (r.addEntry sn key value)).file.contents.length < 2 ^ 63) :
    Follows fate closed id heal (r.addEntry sn key value) (r.heal.addEntry sn key value) := by
  -- the builder with the key in its filter
  generalize hr₁ : ({ r with
    filterBlock := r.filterBlock.map (FilterBlockBuilder.addKey key)
    lastKey := key
    numEntries := r.numEntries + 1 } : TableBuilder) = r₁
  have heq : r.addEntry sn key value = r₁.orAbort (r.dataBlock.addWith r.options key value) >>=
      fun dataBlock => if r.options.blockSize ≤ dataBlock.currentSizeEstimate then
        flush sn { r₁ with dataBlock } else .ok { r₁ with dataBlock } := by
    subst hr₁
    rfl
  have hheal : r.heal.addEntry sn key value
      = r₁.heal.orAbort (r.dataBlock.addWith r.options key value) >>=
      fun dataBlock => if r.options.blockSize ≤ dataBlock.currentSizeEstimate then
        flush sn { r₁.heal with dataBlock } else .ok { r₁.heal with dataBlock } := by
    subst hr₁
    rfl
  have hc₁ : ∀ dataBlock, Clean fate closed { r₁ with dataBlock } := by
    intro dataBlock
    subst hr₁
    exact ⟨hc.fate_eq, hc.calls_ok, hc.status_eq, hc.closed_eq⟩
  have hs₁ : ∀ dataBlock, InStep { r₁ with dataBlock } := by
    intro dataBlock fb hfb
    subst hr₁
    obtain ⟨fb₀, hfb₀, rfl⟩ := Option.map_eq_some_iff.mp hfb
    exact hs fb₀ hfb₀
  have hoff₁ : r₁.offset = r₁.file.contents.length := by
    subst hr₁
    exact hoff
  rw [heq] at hsmall ⊢
  rw [hheal]
  cases hadd : r.dataBlock.addWith r.options key value with
  | none => exact follows_error r₁
  | some dataBlock =>
    rw [hadd] at hsmall
    simp only [orAbort, bind, Except.bind] at hsmall ⊢
    split_ifs at hsmall ⊢
    · exact flush_follows (hc₁ dataBlock) hoff₁ (hs₁ dataBlock) hsmall
    · exact follows_ok (hc₁ dataBlock)

theorem add_follows (hc : Clean fate closed r) (hoff : r.offset = r.file.contents.length)
    (hs : InStep r) {key value : Bytes}
    (hsmall : (outcome (r.add sn key value)).file.contents.length < 2 ^ 63) :
    Follows fate closed id heal (r.add sn key value) (r.heal.add sn key value) := by
  have hheal : r.heal.add sn key value = if r.closed then .error r.heal
    else if r.status.ok = false then .ok r.heal
    else if 0 < r.numEntries ∧ r.options.comparator.compare key r.lastKey ≠ .gt then .error r.heal
    else r.heal.addPending key >>= fun r₁ => r₁.addEntry sn key value := rfl
  have hadd : r.add sn key value = if r.closed then .error r
    else if r.status.ok = false then .ok r
    else if 0 < r.numEntries ∧ r.options.comparator.compare key r.lastKey ≠ .gt then .error r
    else r.addPending key >>= fun r₁ => r₁.addEntry sn key value := rfl
  rw [hadd] at hsmall ⊢
  rw [hheal]
  split_ifs at hsmall ⊢
  · exact follows_error r
  · exact follows_ok hc
  · exact follows_error r
  · refine (addPending_follows hc key).bind (fun r₁ hr₁ hc₁ => ?_) fun r₁ hr₁ hb => ?_
    · rw [hr₁] at hsmall
      obtain ⟨indexBlock, lastKey, pendingIndexEntry, rfl⟩ := addPending_eq hr₁
      exact addEntry_follows hc₁ hoff hs hsmall
    · obtain ⟨indexBlock, lastKey, pendingIndexEntry, rfl⟩ := addPending_eq hr₁
      exact absurd hb.status_ne (by rw [id, hc.status_eq]; decide)

/-! ### `Finish` -/

theorem writeFooter_follows (hc : Clean fate closed r) (hm hi : BlockHandle) :
    Follows fate closed id heal (r.writeFooter hm hi) (r.heal.writeFooter hm hi) := by
  have hok : r.status.ok = true := by rw [hc.status_eq]; rfl
  have hok' : r.heal.status.ok = true := hok
  rw [writeFooter, writeFooter, if_pos hok, if_pos hok']
  refine follows_orAbort_bind r _ fun footerEncoding => ?_
  -- the builder after the last `Append`
  generalize hr₁ : ({ r with
    status := (r.file.append footerEncoding).1
    file := (r.file.append footerEncoding).2 } : TableBuilder) = r₁
  have hnext : r₁.status.ok = true ∧ Clean fate closed r₁ ∨ Broken fate closed r₁ := by
    subst hr₁
    exact hc.next rfl rfl (by rw [← hc.fate_eq]; rfl) rfl
  have hheal : r.heal.file.Sound := fun _ => rfl
  rcases hnext with ⟨hok₁, hc₁⟩ | hb₁
  · have hs₁ : r.file.fate r.file.calls = .success := by
      subst hr₁
      exact Status.eq_success_of_ok hok₁
    subst hr₁
    refine .inl ⟨?_, ?_⟩
    · rw [WritableFile.append_of_sound hheal]
      simp [healed, heal, WritableFile.append, hs₁]
    · intro r₂ hr₂
      simp only [WritableFile.append, hs₁, Status.ok_success, if_true] at hr₂ hc₁
      obtain rfl := Except.ok.inj hr₂
      exact ⟨hc₁.fate_eq, hc₁.calls_ok, hc₁.status_eq, hc₁.closed_eq⟩
  · refine .inr ⟨r₁, ?_, ?_⟩
    · have hne : ¬ (r.file.append footerEncoding).1.ok = true := by
        subst hr₁
        rw [show (r.file.append footerEncoding).1.ok = false from hb₁.status_ne]
        decide
      dsimp only
      rw [if_neg hne, hr₁]
    · exact hb₁

theorem addLast_status (h : r.addLast = .ok r') : r'.status = r.status := by
  rw [addLast] at h
  split_ifs at h
  · obtain ⟨separator, -, h⟩ := bind_eq_ok h
    obtain ⟨handleEncoding, -, h⟩ := bind_eq_ok h
    obtain ⟨indexBlock, -, h⟩ := bind_eq_ok h
    rw [← Except.ok.inj h]
  · rw [← Except.ok.inj h]

theorem addLast_follows (hc : Clean fate closed r) :
    Follows fate closed id heal r.addLast r.heal.addLast := by
  have hheal : r.heal.addLast = if r.pendingIndexEntry then
      r.heal.addIndexEntry (r.options.comparator.findShortSuccessor r.lastKey)
    else .ok r.heal := rfl
  rw [addLast, hheal]
  split_ifs
  · exact addIndexEntry_follows hc _
  · exact follows_ok hc

theorem writeIndex_follows (hc : Clean fate closed r) :
    Follows fate closed Prod.fst healBlock (r.writeIndex sn) (r.heal.writeIndex sn) := by
  have hok : r.status.ok = true := by rw [hc.status_eq]; rfl
  have hok' : r.heal.status.ok = true := hok
  rw [writeIndex, writeIndex, if_pos hok, if_pos hok']
  refine (addLast_follows hc).bind (fun r₁ _ hc₁ => ?_) fun r₁ hr₁ hb₁ => ?_
  · refine (writeBlock_follows hc₁ r₁.indexBlock).bind (fun p _ hcp => ?_) fun p _ hb => ?_
    · exact follows_ok ⟨hcp.fate_eq, hcp.calls_ok, hcp.status_eq, hcp.closed_eq⟩
    · exact ⟨_, rfl, hb.fate_eq, hb.calls_eq, hb.status_ne, hb.closed_eq⟩
  · exact absurd hb₁.status_ne (by rw [id, addLast_status hr₁, hok]; decide)

theorem writeMetaindex_follows (hc : Clean fate closed r) (h : BlockHandle) :
    Follows fate closed Prod.fst healBlock (r.writeMetaindex sn h)
      (r.heal.writeMetaindex sn h) := by
  have hok : r.status.ok = true := by rw [hc.status_eq]; rfl
  have hok' : r.heal.status.ok = true := hok
  rw [writeMetaindex, writeMetaindex, if_pos hok, if_pos hok']
  exact follows_orAbort_bind r _ fun block => writeBlock_follows hc block

theorem writeFilter_follows (hc : Clean fate closed r) :
    Follows fate closed Prod.fst healBlock (.ok r.writeFilter) (.ok r.heal.writeFilter) := by
  have hheal : r.heal.status = .success := hc.status_eq
  cases hfb : r.filterBlock with
  | none =>
    have hfb' : r.heal.filterBlock = none := hfb
    rw [writeFilter_of_none hfb, writeFilter_of_none hfb']
    exact follows_ok hc
  | some fb =>
    have hfb' : r.heal.filterBlock = some fb := hfb
    rw [writeFilter_of_some hc.status_eq hfb, writeFilter_of_some hheal hfb']
    exact writeRawBlock_follows hc _ _

theorem writeTail_follows {p : TableBuilder × BlockHandle} (hc : Clean fate closed p.1) :
    Follows fate closed id heal (writeTail sn p) (writeTail sn (healBlock p)) := by
  refine (writeMetaindex_follows hc p.2).bind (fun p₁ _ hc₁ => ?_) fun p₁ _ hb => ⟨p₁.1, ?_, hb⟩
  · refine (writeIndex_follows hc₁).bind (fun p₂ _ hc₂ => ?_) fun p₂ _ hb => ⟨p₂.1, ?_, hb⟩
    · exact writeFooter_follows hc₂ p₁.2 p₂.2
    · simp only [writeFooter, hb.status_ne, Bool.false_eq_true, if_false]
  · simp only [bind, Except.bind, writeIndex, writeFooter, hb.status_ne, Bool.false_eq_true,
      if_false]

theorem finish_follows (hc : Clean fate false r) (hoff : r.offset = r.file.contents.length)
    (hs : InStep r) (hsmall : (outcome (r.finish sn)).file.contents.length < 2 ^ 63) :
    Follows fate true id heal (r.finish sn) (r.heal.finish sn) := by
  have hflush := Nat.lt_of_le_of_lt (outcome_bind_ge fun r₁ => Grows.trans
    (writeFilter_grows { r₁ with closed := true }) (writeMetaindex_writeFooter_grows sn _ _)) hsmall
  rcases flush_follows hc hoff hs hflush with ⟨hheal, hclean⟩ | ⟨r₁, hr₁, hb⟩
  · rw [finish_eq, finish_eq, hheal]
    cases hr₁ : r.flush sn with
    | error r₁ => exact follows_error r₁
    | ok r₁ =>
      have hc₁ := hclean r₁ hr₁
      have hc₂ : Clean fate true { r₁ with closed := true } :=
        ⟨hc₁.fate_eq, hc₁.calls_ok, hc₁.status_eq, rfl⟩
      exact Follows.bind (f := writeTail sn) (writeFilter_follows hc₂)
        (fun p _ hcp => writeTail_follows hcp) fun p _ hb => ⟨p.1, hb.writeTail, hb⟩
  · obtain ⟨hclose, hb'⟩ := hb.close sn
    refine .inr ⟨_, ?_, hb'⟩
    rw [finish_eq, hr₁]
    exact hclose

/-! ### Runs -/

theorem runCalls_concat (sn : Snappy) (r : TableBuilder) (calls : List Call) (c : Call) :
    r.runCalls sn (calls ++ [c]) = r.runCalls sn calls >>= fun r₁ => r₁.call sn c := by
  induction calls generalizing r with
  | nil =>
    change (r.call sn c >>= fun r₁ => .ok r₁) = r.call sn c
    cases r.call sn c <;> rfl
  | cons c' calls ih =>
    rw [List.cons_append, TableBuilder.runCalls, TableBuilder.runCalls]
    cases r.call sn c' with
    | error r₁ => rfl
    | ok r₁ => exact ih r₁

theorem call_follows (hc : Clean fate false r) (hoff : r.offset = r.file.contents.length)
    (hs : InStep r) {c : Call} (hsteady : c.Steady)
    (hsmall : (outcome (r.call sn c)).file.contents.length < 2 ^ 63) :
    Follows fate false id heal (r.call sn c) (r.heal.call sn c) := by
  cases c with
  | add key value => exact add_follows hc hoff hs hsmall
  | flush => exact flush_follows hc hoff hs hsmall
  | changeOptions same options => exact hsteady.elim

/-- Fewer calls are as proper. -/
theorem Proper.of_append {calls' : List Call} (hp : Proper P options (calls ++ calls')) :
    Proper P options calls where
  lawful := hp.lawful
  interval_pos := hp.interval_pos
  appends := hp.appends
  steady := fun c hc => hp.steady c (List.mem_append_left _ hc)
  keys := fun a ha => hp.keys a (by
    rw [added, List.filterMap_append]
    exact List.mem_append_left _ ha)
  sorted := by
    have hsorted := hp.sorted
    rw [added, List.filterMap_append] at hsorted
    exact (List.pairwise_append.mp hsorted).1

/-- The conditions on a state of a run hold if they hold without faults. -/
theorem Ready.inStep {K : CompressionType → Prop} {c : Comparator} {q : FilterPolicy}
    {blocks : List DataBlock} {pending : Option (BlockHandle × List (Bytes × Bytes))}
    {current : List (Bytes × Bytes)} (hr : Ready sn K c P q r.heal blocks pending current) :
    InStep r := by
  intro fb hfb
  obtain ⟨-, filters, hbuilt, hlen, -⟩ := hr.filtered fb hfb
  rw [hbuilt.length_eq, hlen]
  exact Nat.le_refl _

/-- A builder for a proper run, in step with one on a file without faults. -/
structure Starts (sn : Snappy) (P : Bytes → Prop) (options : Options) (fate : ℕ → Status)
    (q : FilterPolicy) (r : TableBuilder) : Prop where
  clean : Clean fate false r
  ready : Ready sn (fun _ => True) options.comparator P q r.heal [] none []
  options_eq : r.options = options
  counter_eq : r.dataBlock.counter = 0
  policy : r.filterBlock ≠ none → options.filterPolicy.map FilterPolicy.name = some q.name

theorem Starts.countersFit {q : FilterPolicy} (hst : Starts sn P options fate q r)
    (hp : Proper P options calls) : CountersFit sn r.heal calls := by
  refine countersFit_of_steady sn hp.steady ?_ ?_
  · rw [show r.heal.options = options from hst.options_eq]
    exact hp.interval_pos
  · rw [CounterFits, show r.heal.dataBlock.counter = 0 from hst.counter_eq]
    exact Nat.zero_le _

/-- Up to the first failed call, a run is like one without faults, and ready for more. -/
theorem Starts.runCalls_ready {q : FilterPolicy} (hst : Starts sn P options fate q r)
    (hp : Proper P options calls)
    (hsmall : (outcome (r.runCalls sn calls)).file.contents.length < 2 ^ 63)
    (heq : r.heal.runCalls sn calls = healed heal (r.runCalls sn calls)) :
    ∃ r₁ blocks pending current, r.runCalls sn calls = .ok r₁ ∧
      Ready sn (fun _ => True) options.comparator P q r₁.heal blocks pending current ∧
      r₁.options = options ∧ (r₁.filterBlock = none ↔ r.filterBlock = none) := by
  have hsmall' : (outcome (r.heal.runCalls sn calls)).file.contents.length < 2 ^ 63 := by
    rw [heq, outcome_healed]
    exact hsmall
  obtain ⟨r', blocks, pending, current, hrun, hready, -, hopt, hnone, -⟩ := hst.ready.runCalls
    hp.lawful (hst.countersFit hp) hp.optionsFit hp.keys hp.sorted hsmall'
  rw [heq] at hrun
  obtain ⟨r₁, hrun₁, rfl⟩ := healed_eq_ok hrun
  refine ⟨r₁, blocks, pending, current, hrun₁, hready, ?_, hnone⟩
  have hopt' : r₁.options = finalOptions r.options calls := hopt
  rw [hopt', hst.options_eq, finalOptions_of_steady hp.steady]

/-- **Runs are in step** with those on a file without faults, up to the first failed call. The
induction is on the calls, from the end. -/
theorem Starts.runCalls_follows {q : FilterPolicy} (hst : Starts sn P options fate q r)
    (hp : Proper P options calls)
    (hsmall : (outcome (r.runCalls sn calls)).file.contents.length < 2 ^ 63) :
    Follows fate false id heal (r.runCalls sn calls) (r.heal.runCalls sn calls) := by
  induction calls using List.reverseRecOn with
  | nil => exact follows_ok hst.clean
  | append_singleton calls c ih =>
    have hsteady : c.Steady := hp.steady c (List.mem_append_right _ (List.mem_singleton_self c))
    rw [runCalls_concat] at hsmall
    rw [runCalls_concat, runCalls_concat]
    have hcalls := Nat.lt_of_le_of_lt (outcome_bind_ge fun r₁ => call_grows sn r₁ c) hsmall
    rcases ih hp.of_append hcalls with ⟨heq, hclean⟩ | ⟨r₁, hr₁, hb⟩
    · obtain ⟨r₁, blocks, pending, current, hr₁, hready, -⟩ :=
        hst.runCalls_ready hp.of_append hcalls heq
      rw [heq, hr₁]
      rw [hr₁] at hsmall
      exact call_follows (hclean r₁ hr₁) hready.offset_eq hready.inStep hsteady hsmall
    · rw [hr₁]
      exact .inr ⟨r₁, hb.call hsteady, hb⟩

/-- A new builder on any file. -/
theorem Proper.starts (sn : Snappy) (hp : Proper P options calls) (fate : ℕ → Status) :
    ∃ q r, TableBuilder.new options ⟨[], 0, fate⟩ = some r ∧ Starts sn P options fate q r := by
  have hsound : WritableFile.fresh.Sound := fun _ => rfl
  obtain ⟨q, r, hnew, hready, hopt, hpolicy, -⟩ := hp.exists_ready sn rfl hsound
  obtain ⟨r', hnew', hopt', hcounter⟩ := exists_new options ⟨[], 0, fate⟩ hp.interval_pos
  have hinitial : ∀ file, TableBuilder.new options file
      = some (initial options file (options.filterPolicy.map FilterBlockBuilder.new)) := by
    intro file
    have hblock : BlockBuilder.new options.blockRestartInterval = some .reset :=
      if_pos hp.interval_pos
    rw [TableBuilder.new, hblock, newFilterBlock_eq]
    rfl
  have hr := Option.some.inj ((hinitial _).symm.trans hnew)
  have hr' := Option.some.inj ((hinitial _).symm.trans hnew')
  have hheal : r'.heal = r := by
    rw [← hr, ← hr']
    rfl
  refine ⟨q, r', hnew', ⟨?_, hheal ▸ hready, hopt', hcounter, ?_⟩⟩
  · rw [← hr']
    exact ⟨rfl, fun i hi => absurd hi (Nat.not_lt_zero i), rfl, rfl⟩
  · intro hne
    refine hpolicy ?_
    rw [← hheal]
    exact hne

/-- **Errors are sticky**, whatever calls on the file fail. After any calls of `Add` and `Flush` no
call on the file has failed, or the last one has, with the status that the builder has, and nothing
that is done from then on changes anything but that `Finish` closes the builder. After `Finish` it
is one or the other, and where no call has failed the size is that of the file. -/
theorem runCalls_sticky (sn : Snappy) (hp : Proper P options calls) (fate : ℕ → Status) :
    ∃ r, TableBuilder.new options ⟨[], 0, fate⟩ = some r ∧
      ((outcome (r.runCalls sn calls)).file.contents.length < 2 ^ 63 →
        ∃ r', r.runCalls sn calls = .ok r' ∧ (Clean fate false r' ∨ Broken fate false r' ∧
          ∀ more : List Call, (∀ c ∈ more, c.Steady) → r'.runCalls sn more = .ok r' ∧
            r'.build sn more = .ok { r' with closed := true })) ∧
      ((outcome (r.build sn calls)).file.contents.length < 2 ^ 63 →
        ∃ r', r.build sn calls = .ok r' ∧ (Clean fate true r' ∧
          r'.fileSize = r'.file.contents.length ∨ Broken fate true r')) := by
  obtain ⟨q, r, hnew, hst⟩ := hp.starts sn fate
  refine ⟨r, hnew, fun hsmall => ?_, fun hsmall => ?_⟩
  · rcases hst.runCalls_follows hp hsmall with ⟨heq, hclean⟩ | ⟨r', hrun, hb⟩
    · obtain ⟨r', -, -, -, hrun, -⟩ := hst.runCalls_ready hp hsmall heq
      exact ⟨r', hrun, .inl (hclean r' hrun)⟩
    · exact ⟨r', hrun, .inr ⟨hb, fun more hmore => ⟨hb.runCalls hmore, hb.build hmore⟩⟩⟩
  · rw [build_eq_bind] at hsmall ⊢
    have hcalls := Nat.lt_of_le_of_lt (outcome_bind_ge fun r₁ => finish_grows sn r₁) hsmall
    rcases hst.runCalls_follows hp hcalls with ⟨heq, hclean⟩ | ⟨r₁, hrun, hb⟩
    · obtain ⟨r₁, blocks, pending, current, hrun, hready, hopt, hnone⟩ :=
        hst.runCalls_ready hp hcalls heq
      rw [hrun] at hsmall ⊢
      have hpolicy : r₁.heal.filterBlock ≠ none →
          r₁.heal.options.filterPolicy.map FilterPolicy.name = some q.name := by
        intro hne
        rw [show r₁.heal.options = options from hopt]
        exact hst.policy fun hnil => hne (hnone.mpr hnil)
      have hc₁ : Clean fate false r₁ := hclean r₁ hrun
      rcases finish_follows hc₁ hready.offset_eq hready.inStep hsmall with
        ⟨heq', hclean'⟩ | ⟨r', hfinish, hb⟩
      · -- no call fails at all
        have hsmall' : (outcome (r₁.heal.finish sn)).file.contents.length < 2 ^ 63 := by
          rw [heq', outcome_healed]
          exact hsmall
        obtain ⟨r'', -, hfinish, -, hoffset, -⟩ := hready.finish hp.lawful hpolicy hsmall'
        rw [heq'] at hfinish
        obtain ⟨r', hfinish', rfl⟩ := healed_eq_ok hfinish
        exact ⟨r', hfinish', .inl ⟨hclean' r' hfinish', hoffset⟩⟩
      · exact ⟨r', hfinish, .inr hb⟩
    · rw [hrun]
      exact ⟨_, hb.finish, .inr (hb.close sn).2⟩

/-- The second `Append` of the second block fails, while the table is finished. -/
theorem runCalls_sticky_two :
    let fate := (WritableFile.failingAt 4).fate
    ∃ r r' r'', TableBuilder.new (plainOptions (some acceptAll)) ⟨[], 0, fate⟩ = some r ∧
      r.runCalls .absent twoBlocks = .ok r' ∧ Clean fate false r' ∧
      r.build .absent twoBlocks = .ok r'' ∧ Broken fate true r'' ∧
      r''.status = .error .kIOError "" ∧ r''.file.calls = 5 := by
  intro fate
  obtain ⟨r, hnew, hcalls, hbuild⟩ := runCalls_sticky .absent proper_twoBlocks fate
  have hr := Option.some.inj hnew
  obtain ⟨r', hrun, hcases⟩ := hcalls (by rw [← hr]; decide +kernel)
  obtain ⟨r'', hrun', hcases'⟩ := hbuild (by rw [← hr]; decide +kernel)
  have hstatus : r'.status = .success := by
    have h : (outcome (r.runCalls .absent twoBlocks)).status = .success := by
      rw [← hr]
      decide +kernel
    rw [hrun] at h
    exact h
  have hfinal : r''.status = .error .kIOError "" ∧ r''.file.calls = 5 := by
    have h : (outcome (r.build .absent twoBlocks)).status = .error .kIOError "" ∧
        (outcome (r.build .absent twoBlocks)).file.calls = 5 := by
      rw [← hr]
      decide +kernel
    rw [hrun'] at h
    exact h
  refine ⟨r, r', r'', hnew, hrun, ?_, hrun', ?_, hfinal⟩
  · rcases hcases with hc | ⟨hb, -⟩
    · exact hc
    · exact absurd hb.status_ne (by rw [hstatus]; decide)
  · rcases hcases' with ⟨hc, -⟩ | hb
    · exact absurd hc.status_eq (by rw [hfinal.1]; decide)
    · exact hb

end TableBuilder

end Squirrel
