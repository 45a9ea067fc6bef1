import Mathlib.Data.List.Flatten
import Squirrel.Db.BurstErrors
import Squirrel.Table.TableRoundTrip
import Squirrel.Table.TwoLevelErrors

/-!
# Damaged tables

A table has been opened without a block cache, and afterwards some of its data blocks are damaged,
each by a burst that its checksum detects (`Damaged`). The footer, the index and the filter have
been read already, and every use of a data block reads it. With `verify_checksums`, a block that is
read is what was written, or its iterator has no entries and an error. (A block in a cache would be
used as it was read.)

For the iterators, the damaged table is compared with one in which the damaged blocks are read from
the old file (`Levels.repair`). Up to the first damaged block that is opened there is no difference,
and the iterators of that table are cursors on all entries, with a status that is OK.

## Main results

* `TwoLevelIterator.behaves_of_unreadable`, `TwoLevelIterator.status_iff`,
  `TwoLevelIterator.scan_status` — what an iterator does where blocks cannot be read
* `Table.iterator_of_damaged` — the iterators of a damaged table
* `Table.internalGet_of_damaged` — lookups in a damaged table
-/

namespace Squirrel

open Cursor Block

variable {σ₁ σ₂ κ ν : Type}

/-- The levels, with another block function for the unreadable blocks. -/
def Levels.repair (L : Levels σ₁ σ₂ κ ν) (unreadable : Bytes → Bool)
    (blockFunction : Bytes → Option σ₂) :
    Levels σ₁ σ₂ κ ν :=
  { L with blockFunction := fun handle => if unreadable handle then blockFunction handle
    else L.blockFunction handle }

theorem Levels.without_repair (L : Levels σ₁ σ₂ κ ν) (unreadable : Bytes → Bool)
    (blockFunction : Bytes → Option σ₂) :
    (L.repair unreadable blockFunction).without unreadable = L.without unreadable := by
  have hblocks : (fun handle => if unreadable handle then none
      else (L.repair unreadable blockFunction).blockFunction handle)
      = fun handle => if unreadable handle then none else L.blockFunction handle := by
    funext handle
    rw [Levels.repair]
    split
    · rfl
    · next h => exact if_neg h
  rw [Levels.without, hblocks]
  rfl

theorem run_append {σ : Type} (istep : σ → Op κ → Option σ) (s : σ) (ops ops' : List (Op κ)) :
    run istep s (ops ++ ops') = (run istep s ops).bind fun s => run istep s ops' :=
  List.foldlM_append

namespace TwoLevelIterator

open IndexedBlock

variable {L : Levels σ₁ σ₂ κ ν} {unreadable : Bytes → Bool} {t t' : TwoLevelIterator σ₁ σ₂ κ}

/-! ### Runs that open no unreadable block -/

theorem initDataBlock_of_without (h : initDataBlock (L.without unreadable) t = some t') :
    initDataBlock L t = some t' := by
  rw [initDataBlock] at h ⊢
  cases hkey : t.indexIter.key with
  | none =>
    rw [hkey] at h
    exact h
  | some k =>
    rw [hkey] at h
    obtain ⟨handle, hvalue, h⟩ := Option.bind_eq_some_iff.mp h
    have hvalue' : t.indexIter.value L.index = some handle := hvalue
    simp only [hvalue', Option.bind_eq_bind, Option.bind_some]
    split at h
    · next hopen =>
      rw [if_pos hopen]
      exact h
    · next hopen =>
      obtain ⟨iter, hiter, h⟩ := Option.bind_eq_some_iff.mp h
      have hiter' : L.blockFunction handle = some iter := by
        simp only [Levels.without, Option.ite_none_left_eq_some] at hiter
        exact hiter.2
      rw [if_neg hopen, hiter', Option.bind_some]
      exact h

theorem moveBoth_of_without {indexOp dataOp : Op κ}
    (h : moveBoth (L.without unreadable) indexOp dataOp t = some t') :
    moveBoth L indexOp dataOp t = some t' := by
  obtain ⟨t₁, h₁, h⟩ := Option.bind_eq_some_iff.mp h
  obtain ⟨t₂, h₂, h₃⟩ := Option.bind_eq_some_iff.mp h
  have h₁' : moveIndex L indexOp t = some t₁ := h₁
  simp only [moveBoth, h₁', initDataBlock_of_without h₂, Option.bind_eq_bind, Option.bind_some]
  exact h₃

theorem skipEmptyDataBlocks_of_without {indexOp dataOp : Op κ} {rounds : ℕ}
    (h : skipEmptyDataBlocks (L.without unreadable) indexOp dataOp rounds t = some t') :
    skipEmptyDataBlocks L indexOp dataOp rounds t = some t' := by
  induction rounds generalizing t with
  | zero => cases h
  | succ rounds ih =>
    rw [skipEmptyDataBlocks] at h ⊢
    split at h
    · next hvalid =>
      rw [if_pos hvalid]
      exact h
    · next hvalid =>
      rw [if_neg hvalid]
      cases hkey : t.indexIter.key with
      | none =>
        rw [hkey] at h
        exact h
      | some k =>
        rw [hkey] at h
        obtain ⟨t₁, h₁, h⟩ := Option.bind_eq_some_iff.mp h
        simp only [moveBoth_of_without h₁, Option.bind_eq_bind, Option.bind_some]
        exact ih h

theorem step_of_without {rounds : ℕ} {op : Op κ}
    (h : (iterator (L.without unreadable) rounds).step t op = some t') :
    (iterator L rounds).step t op = some t' := by
  cases op with
  | seek target =>
    obtain ⟨t₁, h₁, h⟩ := Option.bind_eq_some_iff.mp h
    exact Option.bind_eq_some_iff.mpr ⟨t₁, moveBoth_of_without h₁, skipEmptyDataBlocks_of_without h⟩
  | seekToFirst =>
    obtain ⟨t₁, h₁, h⟩ := Option.bind_eq_some_iff.mp h
    exact Option.bind_eq_some_iff.mpr ⟨t₁, moveBoth_of_without h₁, skipEmptyDataBlocks_of_without h⟩
  | seekToLast =>
    obtain ⟨t₁, h₁, h⟩ := Option.bind_eq_some_iff.mp h
    exact Option.bind_eq_some_iff.mpr ⟨t₁, moveBoth_of_without h₁, skipEmptyDataBlocks_of_without h⟩
  | next =>
    change next (L.without unreadable) rounds t = some t' at h
    change next L rounds t = some t'
    rw [next, Option.ite_none_right_eq_some] at h ⊢
    obtain ⟨hvalid, h⟩ := h
    obtain ⟨t₁, h₁, h⟩ := Option.bind_eq_some_iff.mp h
    exact ⟨hvalid, Option.bind_eq_some_iff.mpr ⟨t₁, h₁, skipEmptyDataBlocks_of_without h⟩⟩
  | prev =>
    change prev (L.without unreadable) rounds t = some t' at h
    change prev L rounds t = some t'
    rw [prev, Option.ite_none_right_eq_some] at h ⊢
    obtain ⟨hvalid, h⟩ := h
    obtain ⟨t₁, h₁, h⟩ := Option.bind_eq_some_iff.mp h
    exact ⟨hvalid, Option.bind_eq_some_iff.mpr ⟨t₁, h₁, skipEmptyDataBlocks_of_without h⟩⟩

/-- What can be done without the unreadable blocks is done the same way with them. -/
theorem run_of_without {rounds : ℕ} {ops : List (Op κ)}
    (h : Cursor.run (iterator (L.without unreadable) rounds).step t ops = some t') :
    Cursor.run (iterator L rounds).step t ops = some t' := by
  induction ops generalizing t with
  | nil => exact h
  | cons op ops ih =>
    rw [Cursor.run_cons, Option.bind_eq_some_iff] at h ⊢
    obtain ⟨t₁, h₁, h⟩ := h
    exact ⟨t₁, step_of_without h₁, ih h⟩

/-! ### Scans, step by step -/

section

variable {cmp : κ → κ → Ordering} {blocks : List (IndexedBlock κ ν)} {good₁ : σ₁ → Prop}
  {good₂ : σ₂ → Prop} {kept : Status → Prop} {pos : Option ℕ} {rounds : ℕ}

theorem PosAt.nexts (hserves : Serves L cmp blocks good₂ kept)
    (hrounds : blocks.length + 1 < rounds) {i n : ℕ}
    (h : PosAt L cmp blocks good₁ good₂ kept t (place (concat blocks) i))
    (hle : i + n ≤ (concat blocks).length) :
    ∃ t', Cursor.run (iterator L rounds).step t (List.replicate n .next) = some t' ∧
      PosAt L cmp blocks good₁ good₂ kept t' (place (concat blocks) (i + n)) := by
  induction n generalizing t i with
  | zero => exact ⟨t, rfl, h⟩
  | succ n ih =>
    rw [place_of_lt (by omega)] at h
    obtain ⟨t₁, ht₁, hat⟩ := h.next_at hserves hrounds
    have hstep : (iterator L rounds).step t .next = some t₁ := ht₁
    obtain ⟨t', hrun, hat'⟩ := ih hat (by omega)
    refine ⟨t', ?_, by rwa [Nat.add_right_comm, Nat.add_assoc] at hat'⟩
    rw [List.replicate_succ, Cursor.run_cons, hstep]
    exact hrun

/-- A scan that has come as far as `n` entries. -/
theorem PosAt.scanned (hserves : Serves L cmp blocks good₂ kept)
    (hrounds : blocks.length + 1 < rounds) (h : PosAt L cmp blocks good₁ good₂ kept t pos) {n : ℕ}
    (hle : n ≤ (concat blocks).length) :
    ∃ t', Cursor.run (iterator L rounds).step t (.seekToFirst :: List.replicate n .next) = some t' ∧
      PosAt L cmp blocks good₁ good₂ kept t' (place (concat blocks) n) := by
  obtain ⟨q, hbetween⟩ := h.between
  obtain ⟨t₁, ht₁, hat⟩ := hbetween.seekToFirst_at hserves hrounds
  have hstep : (iterator L rounds).step t .seekToFirst = some t₁ := ht₁
  obtain ⟨t', hrun, hat'⟩ := hat.nexts hserves hrounds (n := n) (by omega)
  refine ⟨t', ?_, by rwa [Nat.zero_add] at hat'⟩
  rw [Cursor.run_cons, hstep]
  exact hrun

end

/-! ### Iterators where blocks cannot be read -/

section

variable {g : Bytes → Option σ₂} {cmp : κ → κ → Ordering} {blocks : List (IndexedBlock κ ν)}
  {rounds : ℕ} {indexIter : σ₁} {ops : List (Op κ)}

theorem serves_seen
    (hserves : Serves (L.repair unreadable g) cmp blocks (fun s => L.dataStatus s = .success)
      (· = .success))
    (hfails : ∀ handle, unreadable handle = true →
      ∃ s, L.blockFunction handle = some s ∧ Fails L (fun a k => cmp a.1 k = .lt) s) :
    Serves L cmp (blocks.map (seen unreadable)) (fun _ => True) (fun _ => True) where
  opens := by
    intro e' he'
    obtain ⟨e, he, rfl⟩ := List.mem_map.mp he'
    rw [handle_seen]
    cases hun : unreadable e.handle with
    | true =>
      obtain ⟨s, hs, hfail⟩ := hfails e.handle hun
      rw [seen_of_unreadable hun]
      exact ⟨s, hs, hfail.imp fun _ _ => trivial⟩
    | false =>
      obtain ⟨s, hs, hbehaves⟩ := hserves.opens e he
      rw [Levels.repair] at hs
      simp only [hun, Bool.false_eq_true, if_false] at hs
      rw [seen_of_readable hun]
      exact ⟨s, hs, hbehaves.imp fun _ _ => trivial⟩
  handle_inj := by
    intro x hx y hy heq
    obtain ⟨e, he, rfl⟩ := List.mem_map.mp hx
    obtain ⟨e', he', rfl⟩ := List.mem_map.mp hy
    rw [handle_seen, handle_seen] at heq
    rw [seen, seen, heq]
    split
    · rfl
    · exact hserves.handle_inj e he e' he' heq
  keeps := fun _ _ _ _ => trivial

theorem seen_sublist (unreadable : Bytes → Bool) (e : IndexedBlock κ ν) :
    (seen unreadable e).separator = e.separator ∧ (seen unreadable e).entries ⊆ e.entries := by
  rw [seen]
  split
  · exact ⟨rfl, List.nil_subset _⟩
  · exact ⟨rfl, List.Subset.refl _⟩

theorem separated_seen (unreadable : Bytes → Bool) (hsep : Separated cmp blocks) :
    Separated cmp (blocks.map (seen unreadable)) where
  le_separator := by
    intro e' he' a ha
    obtain ⟨e, he, rfl⟩ := List.mem_map.mp he'
    obtain ⟨hseparator, hsub⟩ := seen_sublist unreadable e
    rw [hseparator]
    exact hsep.le_separator e he a (hsub ha)
  separator_lt := by
    rw [List.pairwise_map]
    refine hsep.separator_lt.imp fun {e e'} hlt a ha => ?_
    rw [(seen_sublist unreadable e).1]
    exact hlt a ((seen_sublist unreadable e').2 ha)

variable
  (hserves : Serves (L.repair unreadable g) cmp blocks (fun s => L.dataStatus s = .success)
    (· = .success))
  (hfails : ∀ handle, unreadable handle = true →
    ∃ s, L.blockFunction handle = some s ∧ Fails L (fun a k => cmp a.1 k = .lt) s)
  (hrounds : blocks.length + 1 < rounds)
  (hindex : L.index.BehavesWith (fun s => L.indexStatus s = .success) (fun a k => cmp a.1 k = .lt)
    (blocks.map indexEntry) indexIter none)

include hserves hfails hrounds hindex

/-- **A cursor on what can be read.** -/
theorem behaves_of_unreadable [Std.TransCmp cmp] (hsep : Separated cmp blocks) :
    (iterator L rounds).Behaves (fun a k => cmp a.1 k = .lt) (readableEntries unreadable blocks)
      (new L indexIter) none := by
  have hrounds' : (blocks.map (seen unreadable)).length + 1 < rounds := by rwa [List.length_map]
  rw [← @indexEntry_seen _ _ unreadable] at hindex
  have hbehaves := twoLevel_behaves (serves_seen hserves hfails)
    (separated_seen unreadable hsep) hrounds' trivial
    hindex
  rw [concat_seen] at hbehaves
  exact hbehaves.imp fun _ _ => trivial

omit hfails in
/-- A run that opens no unreadable block is one of the repaired levels. -/
theorem posAt_repair
    (h : Cursor.run (iterator (L.without unreadable) rounds).step (new L indexIter) ops = some t) :
    ∃ pos, PosAt (L.repair unreadable g) cmp blocks (fun s => L.indexStatus s = .success)
      (fun s => L.dataStatus s = .success) (· = .success) t pos := by
  have hstart : PosAt (L.repair unreadable g) cmp blocks (fun s => L.indexStatus s = .success)
      (fun s => L.dataStatus s = .success) (· = .success) (new L indexIter) none :=
    ⟨rfl, none, rfl, IteratorWrapper.standsAt_update hindex, fun w hw => by cases hw⟩
  rw [← L.without_repair unreadable g] at h
  exact hstart.run_any hserves hrounds (run_of_without h)

/-- **The status is OK as long as no unreadable block has been opened**, and not afterwards. -/
theorem status_iff (hrun : Cursor.run (iterator L rounds).step (new L indexIter) ops = some t) :
    status L t = .success ↔
      Cursor.run (iterator (L.without unreadable) rounds).step (new L indexIter) ops = some t := by
  constructor
  · intro hok
    have hfail : ErrorsFail L (fun a k => cmp a.1 k = .lt) unreadable := by
      intro handle s hun hs
      obtain ⟨s', hs', hfails⟩ := hfails handle hun
      rw [Option.some.inj (hs.symm.trans hs')]
      exact hfails
    rcases (watched_run hfail rounds ops _ _ hrun).1 with hsame | hbad
    · exact hsame
    · have hne := hbad.status_ne
      rw [hok] at hne
      cases hne
  · intro h
    obtain ⟨pos, hat⟩ := posAt_repair hserves hrounds hindex h
    exact hat.good.status_eq

/-- **A complete scan opens every block.** If there are entries that cannot be read, the status is
not OK when it is done, whatever was done before. -/
theorem scan_status (hmore : (readableEntries unreadable blocks).length < (concat blocks).length)
    (hrun : Cursor.run (iterator L rounds).step (new L indexIter) ops = some t) :
    ∃ t', Cursor.run (iterator L rounds).step t
        (.seekToFirst :: List.replicate (readableEntries unreadable blocks).length .next)
        = some t' ∧
      entry L t' = none ∧ (status L t').ok = false := by
  have hserves' := serves_seen hserves hfails
  have hrounds' : (blocks.map (seen unreadable)).length + 1 < rounds := by rwa [List.length_map]
  have hstart : PosAt L cmp (blocks.map (seen unreadable)) (fun _ => True) (fun _ => True)
      (fun _ => True) (new L indexIter) none := by
    refine ⟨rfl, none, trivial, ?_, fun w hw => by cases hw⟩
    rw [indexEntry_seen]
    exact IteratorWrapper.standsAt_update (hindex.imp fun _ _ => trivial)
  obtain ⟨pos, hat⟩ := hstart.run_any hserves' hrounds' hrun
  obtain ⟨t', hscan, hat'⟩ :=
    hat.scanned hserves' hrounds' (n := (readableEntries unreadable blocks).length)
    (by rw [concat_seen])
  have hnone : entry L t' = none := by
    rw [hat'.entry_eq, concat_seen, place_of_ge (Nat.le_refl _)]
    rfl
  refine ⟨t', hscan, hnone, Bool.eq_false_iff.mpr fun hok => ?_⟩
  -- otherwise the repaired levels had come to the end as well, and they have more entries
  have hall : Cursor.run (iterator L rounds).step (new L indexIter)
      (ops ++ .seekToFirst :: List.replicate (readableEntries unreadable blocks).length .next)
        = some t' := by
    rw [run_append, hrun]
    exact hscan
  have hwithout := (status_iff hserves hfails hrounds hindex hall).mp (Status.eq_success_of_ok hok)
  rw [run_append] at hwithout
  obtain ⟨t₁, hrun₁, hscan₁⟩ := Option.bind_eq_some_iff.mp hwithout
  obtain ⟨pos, hat⟩ := posAt_repair hserves hrounds hindex hrun₁
  obtain ⟨t₂, hscan₂, hat₂⟩ := hat.scanned hserves hrounds hmore.le
  rw [← L.without_repair unreadable g] at hscan₁
  obtain rfl := Option.some.inj (hscan₂.symm.trans (run_of_without hscan₁))
  have hentry : entry L t₂ = (concat blocks)[(readableEntries unreadable blocks).length]? := by
    have h := hat₂.entry_eq
    rw [place_of_lt hmore] at h
    exact h
  rw [hnone, List.getElem?_eq_getElem hmore] at hentry
  cases hentry

end

end TwoLevelIterator

/-! ### Blocks in a damaged file -/

/-- What the checksum of a block is computed over: its contents, and its type. -/
def BlockHandle.checked (h : BlockHandle) (data : Bytes) : Bytes :=
  (data.drop h.offset).take (h.size + 1)

/-- The files differ in the bad blocks, in each within four consecutive bytes that its checksum is
computed over, and nowhere else. -/
structure Damaged (blocks : List DataBlock) (bad : DataBlock → Bool) (data data' : Bytes) :
    Prop where
  length_eq : data'.length = data.length
  ne : ∀ b ∈ blocks, bad b = true → b.handle.checked data ≠ b.handle.checked data'
  same : ∃ start : DataBlock → ℕ, ∀ i,
    (∀ b ∈ blocks, bad b = true →
      ¬ (b.handle.offset ≤ i ∧ i < b.handle.offset + (b.handle.size + 1) ∧ start b ≤ i ∧
        i < start b + 4)) → data'[i]? = data[i]?

theorem drop_take_eq {data data' : Bytes} {i n : ℕ}
    (h : ∀ j, i ≤ j → j < i + n → data'[j]? = data[j]?) :
    (data'.drop i).take n = (data.drop i).take n := by
  apply List.ext_getElem?
  intro j
  rw [List.getElem?_take, List.getElem?_take]
  split
  · next hj =>
    rw [List.getElem?_drop, List.getElem?_drop]
    exact h _ (Nat.le_add_right i j) (by omega)
  · rfl

/-- Different blocks do not overlap. -/
theorem apart_of_contiguous {blocks : List DataBlock}
    (hcont : ∃ stop, Contiguous 0 (blocks.map DataBlock.handle) stop) :
    ∀ b ∈ blocks, ∀ b' ∈ blocks, b ≠ b' →
      b.handle.offset + (b.handle.size + 5) ≤ b'.handle.offset ∨
        b'.handle.offset + (b'.handle.size + 5) ≤ b.handle.offset := by
  obtain ⟨stop, hcont⟩ := hcont
  have hpair := List.pairwise_map.mp hcont.pairwise.2.2
  intro b hb b' hb'
  refine List.Pairwise.forall_of_forall_of_flip
    (R := fun x y : DataBlock => x ≠ y → x.handle.offset + (x.handle.size + 5) ≤ y.handle.offset ∨
      y.handle.offset + (y.handle.size + 5) ≤ x.handle.offset)
    (fun _ _ hne => absurd rfl hne) (hpair.imp ?_) (hpair.imp ?_) hb hb'
  · exact fun hle _ => .inl hle
  · exact fun hle _ => .inr hle

section

variable {blocks : List DataBlock} {bad : DataBlock → Bool} {data data' : Bytes} {b : DataBlock}

/-- A block that is not bad is what it was. -/
theorem Damaged.sound_same (h : Damaged blocks bad data data')
    (hcont : ∃ stop, Contiguous 0 (blocks.map DataBlock.handle) stop) (hb : b ∈ blocks)
    (hbad : bad b = false) : (data'.drop b.handle.offset).take (b.handle.size + 5)
    = (data.drop b.handle.offset).take (b.handle.size + 5) := by
  obtain ⟨start, hsame⟩ := h.same
  refine drop_take_eq fun j hle hlt => hsame j fun b' hb' hbad' hin => ?_
  have hne : b ≠ b' := fun heq => by rw [heq, hbad'] at hbad; cases hbad
  rcases apart_of_contiguous hcont b hb b' hb' hne with hapart | hapart
  · omega
  · omega

/-- The checksum of a bad block is what it was. -/
theorem Damaged.checksum_same (h : Damaged blocks bad data data')
    (hcont : ∃ stop, Contiguous 0 (blocks.map DataBlock.handle) stop) (hb : b ∈ blocks) :
    (data'.drop (b.handle.offset + (b.handle.size + 1))).take 4
      = (data.drop (b.handle.offset + (b.handle.size + 1))).take 4 := by
  obtain ⟨start, hsame⟩ := h.same
  refine drop_take_eq fun j hle hlt => hsame j fun b' hb' _ hin => ?_
  by_cases hne : b = b'
  · rw [← hne] at hin
    omega
  · rcases apart_of_contiguous hcont b hb b' hb' hne with hapart | hapart
    · omega
    · omega

/-- What the checksum of a bad block is computed over has changed, and so would the checksum. -/
theorem Damaged.value_ne (h : Damaged blocks bad data data')
    (hcont : ∃ stop, Contiguous 0 (blocks.map DataBlock.handle) stop) (hb : b ∈ blocks)
    (hbad : bad b = true) :
    Crc32c.value (b.handle.checked data') ≠ Crc32c.value (b.handle.checked data) := by
  obtain ⟨start, hsame⟩ := h.same
  refine (@Crc32c.value_ne (start b - b.handle.offset) _ _ ⟨?_, fun i hi => ?_⟩
    (h.ne b hb hbad)).symm
  · rw [BlockHandle.checked, BlockHandle.checked, List.length_take, List.length_take,
      List.length_drop, List.length_drop, h.length_eq]
  · rw [BlockHandle.checked, BlockHandle.checked, List.getElem?_take, List.getElem?_take]
    split
    · rw [List.getElem?_drop, List.getElem?_drop]
      refine (hsame _ fun b' hb' _ hin => ?_).symm
      by_cases hne : b = b'
      · rw [← hne] at hin
        omega
      · rcases apart_of_contiguous hcont b hb b' hb' hne with hapart | hapart
        · omega
        · omega
    · rfl

end

/-- A stored block is stored in every file with the same bytes there. -/
theorem Stored.of_same {file file' contents : Bytes} {h : BlockHandle} {type : CompressionType}
    (hs : Stored file h contents type) (hlen : file'.length = file.length)
    (hsame : (file'.drop h.offset).take (h.size + 5) = (file.drop h.offset).take (h.size + 5)) :
    Stored file' h contents type := by
  obtain ⟨hle, -⟩ := hs.lt
  obtain ⟨front, back, rfl, rfl⟩ := hs
  have hblock : (file'.drop front.length).take (contents.length + 5)
      = TableBuilder.storedBlock contents type := by
    rw [hsame, List.drop_left, ← TableBuilder.length_storedBlock contents type, List.take_left]
  refine ⟨file'.take front.length, file'.drop (front.length + (contents.length + 5)), ?_, ?_⟩
  · rw [← hblock, ← List.drop_drop, List.take_append_drop, List.take_append_drop]
  · dsimp only at hle
    rw [List.length_take, Nat.min_eq_left (by omega)]

/-- What is stored behind a block is the checksum of what is in front of it. -/
theorem Stored.checksumOk {file contents : Bytes} {h : BlockHandle} {type : CompressionType}
    (hs : Stored file h contents type) :
    Squirrel.checksumOk (h.checked file) ((file.drop (h.offset + (h.size + 1))).take 4) = true := by
  obtain ⟨front, back, rfl, rfl⟩ := hs
  have hsplit : front ++ (TableBuilder.storedBlock contents type ++ back)
      = front ++ ((contents ++ [type.toByte])
        ++ ((TableBuilder.blockTrailer contents type).drop 1 ++ back)) := by
    rw [TableBuilder.storedBlock, show TableBuilder.blockTrailer contents type
      = [type.toByte] ++ (TableBuilder.blockTrailer contents type).drop 1 from rfl]
    simp only [List.append_assoc, List.cons_append, List.nil_append, List.drop_succ_cons,
      List.drop_zero]
  have hone : contents.length + 1 = (contents ++ [type.toByte]).length := by simp
  have hfour : ((TableBuilder.blockTrailer contents type).drop 1).length = 4 := rfl
  rw [hsplit, BlockHandle.checked]
  dsimp only
  rw [← List.drop_drop, List.drop_left, hone, List.take_left, List.drop_left, ← hfour,
    List.take_left]
  exact TableBuilder.checksumOk_blockTrailer contents type

/-- **A block whose checksum is wrong is corrupt.** -/
theorem readBlock_of_checksum {f : RandomAccessFile} {h : BlockHandle} (sn : Snappy)
    (junk : ℕ → UInt8) (hread : f.Readable) (hle : h.offset + (h.size + 5) ≤ f.contents.length)
    (hsmall : f.contents.length < 2 ^ 63)
    (hcrc : checksumOk (h.checked f.contents) ((f.contents.drop (h.offset + (h.size + 1))).take 4)
      = false) :
    readBlock sn junk f true h = some (.corruption "block checksum mismatch", .unset) := by
  obtain ⟨s, d, hd, hsize⟩ := hread _ _ hle
  have hmod : (h.size + 5) % 2 ^ 64 = h.size + 5 := Nat.mod_eq_of_lt (by omega)
  have hcov := RandomAccessFile.covers_of_read hd hsize (Nat.succ_pos _) fun _ => by omega
  rw [readBlock_of_covers hmod hd hsize hcov, if_neg]
  intro hok
  rw [BlockHandle.checked] at hcrc
  rw [hok rfl] at hcrc
  cases hcrc

namespace Table

variable {sn : Snappy} {K : CompressionType → Prop} {c : Comparator} {P : Bytes → Prop}
  {q : FilterPolicy} {f f' : RandomAccessFile} {blocks : List DataBlock}
  {bad : DataBlock → Bool} {options : Options} {table : Table} {b : DataBlock}

/-- The table, with another file. -/
def onFile (table : Table) (f : RandomAccessFile) : Table := { table with file := f }

/-- The handles of the bad blocks. -/
def badHandle (blocks : List DataBlock) (bad : DataBlock → Bool) (handle : Bytes) : Bool :=
  blocks.any fun b => bad b && decide (b.handle.encoding = handle)

theorem encoding_inj (ht : TableFile sn K c P q f.contents blocks)
    (hsmall : f.contents.length < 2 ^ 63) :
    ∀ b ∈ blocks, ∀ b' ∈ blocks, b.handle.encoding = b'.handle.encoding → b = b' := by
  intro b hb b' hb' heq
  have hset : ∀ x ∈ blocks, x.handle.Set := fun x hx => (ht.stored x hx).set hsmall
  have hdecode : BlockHandle.decodeFrom b.handle.encoding
      = BlockHandle.decodeFrom b'.handle.encoding :=
    congrArg BlockHandle.decodeFrom heq
  rw [decodeFrom_encoding_nil (hset b hb), decodeFrom_encoding_nil (hset b' hb')] at hdecode
  have hhandle : b.handle = b'.handle := (Prod.mk.inj (Except.ok.inj hdecode)).1
  exact handle_inj ht.contiguous b hb b' hb' (congrArg BlockHandle.offset hhandle)

theorem badHandle_encoding (ht : TableFile sn K c P q f.contents blocks)
    (hsmall : f.contents.length < 2 ^ 63) (hb : b ∈ blocks) :
    badHandle blocks bad b.handle.encoding = bad b := by
  rw [Bool.eq_iff_iff, badHandle, List.any_eq_true]
  constructor
  · rintro ⟨b', hb', hbad⟩
    rw [Bool.and_eq_true, decide_eq_true_eq] at hbad
    rw [← encoding_inj ht hsmall b' hb' b hb hbad.2]
    exact hbad.1
  · intro hbad
    exact ⟨b, hb, by rw [hbad, decide_eq_true rfl]; rfl⟩

/-- A bad block cannot be opened. -/
theorem blockReader_of_bad (ht : TableFile sn K c P q f.contents blocks) (hread' : f'.Readable)
    (hsmall : f.contents.length < 2 ^ 63) (hdamaged : Damaged blocks bad f.contents f'.contents)
    (junk : ℕ → UInt8) (hb : b ∈ blocks) (hbad : bad b = true) :
    blockReader sn junk true (table.onFile f') b.handle.encoding
      = some (.empty (.corruption "block checksum mismatch")) := by
  obtain ⟨builder, compression, -, -, hstored⟩ := ht.stored b hb
  have hle := hstored.lt.1
  have hcrc : checksumOk (b.handle.checked f'.contents)
      ((f'.contents.drop (b.handle.offset + (b.handle.size + 1))).take 4) = false := by
    have hok := hstored.checksumOk
    rw [← hdamaged.checksum_same ht.contiguous hb, checksumOk, decide_eq_true_eq] at hok
    rw [checksumOk, ← hok, decide_eq_false_iff_not]
    exact hdamaged.value_ne ht.contiguous hb hbad
  have hblock := readBlock_of_checksum sn junk hread' (by rw [hdamaged.length_eq]; exact hle)
    (by rw [hdamaged.length_eq]; omega) hcrc
  rw [blockReader, decodeFrom_encoding_nil (hstored.set hsmall)]
  simp only [onFile, hblock, Option.bind_eq_bind, Option.bind_some]
  rfl

/-- A block that is not bad is read as before. -/
theorem blockReader_of_sound (ht : TableFile sn K c P q f.contents blocks) (hK : Uncompressed sn K)
    (hread : f.Readable) (hread' : f'.Readable) (hsmall : f.contents.length < 2 ^ 63)
    (hopened : Opened q options f blocks table)
    (hdamaged : Damaged blocks bad f.contents f'.contents) (junk : ℕ → UInt8) (verify : Bool)
    (hb : b ∈ blocks) (hbad : bad b = false) :
    blockReader sn junk verify (table.onFile f') b.handle.encoding
      = blockReader sn junk verify table b.handle.encoding := by
  have hsmall' : f'.contents.length < 2 ^ 63 := by rw [hdamaged.length_eq]; exact hsmall
  obtain ⟨builder, compression, -, hcomp, hstored⟩ := ht.stored b hb
  rw [TableBuilder.compressBlock_of_not (hK compression hcomp _)] at hstored
  have hstored' := hstored.of_same hdamaged.length_eq (hdamaged.sound_same ht.contiguous hb hbad)
  obtain ⟨block, hblock, hdata⟩ := hstored.readBlock sn hread hsmall junk verify
  obtain ⟨block', hblock', hdata'⟩ := hstored'.readBlock sn hread' hsmall' junk verify
  rw [blockReader, blockReader, decodeFrom_encoding_nil (hstored.set hsmall)]
  simp only [onFile, hopened.file_eq, hblock, hblock', hdata, hdata', Option.bind_eq_bind,
    Option.bind_some]

/-! ### Iterators -/

theorem readableEntries_indexed (ht : TableFile sn K c P q f.contents blocks)
    (hsmall : f.contents.length < 2 ^ 63) :
    TwoLevelIterator.readableEntries (badHandle blocks bad) (blocks.map indexed)
      = ((blocks.filter fun b => !bad b).map DataBlock.entries).flatten := by
  have hfilter : (blocks.map indexed).filter (fun e => !badHandle blocks bad e.handle)
      = (blocks.filter fun b => !bad b).map indexed := by
    rw [List.filter_map]
    congr 1
    refine List.filter_congr fun b hb => ?_
    change (!badHandle blocks bad b.handle.encoding) = !bad b
    rw [badHandle_encoding ht hsmall hb]
  rw [TwoLevelIterator.readableEntries, hfilter, concat_indexed]

/-- There are entries in every block. -/
theorem length_readable_lt (hl : Layout c P blocks none []) (hbad : ∃ b ∈ blocks, bad b = true) :
    ((blocks.filter fun b => !bad b).map DataBlock.entries).flatten.length
      < (blocks.map DataBlock.entries).flatten.length := by
  have hne : ∀ b ∈ blocks, b.entries ≠ [] := fun b hb =>
    hl.nonempty b.placed (List.mem_append_left _ (List.mem_map_of_mem hb))
  clear hl
  induction blocks with
  | nil =>
    obtain ⟨b, hb, -⟩ := hbad
    cases hb
  | cons b blocks ih =>
    have hle : ((blocks.filter fun b => !bad b).map DataBlock.entries).flatten.length
        ≤ (blocks.map DataBlock.entries).flatten.length :=
      (List.Sublist.flatten (List.filter_sublist.map _)).length_le
    cases hb : bad b with
    | true =>
      have hpos := List.length_pos_iff.mpr (hne b List.mem_cons_self)
      rw [List.filter_cons_of_neg (by simp [hb]), List.map_cons, List.flatten_cons,
        List.length_append]
      omega
    | false =>
      have hrest : ∃ b ∈ blocks, bad b = true := by
        obtain ⟨b', hb', hbad'⟩ := hbad
        rcases List.mem_cons.mp hb' with rfl | hb'
        · rw [hb] at hbad'
          cases hbad'
        · exact ⟨b', hb', hbad'⟩
      have hlt := ih hrest fun b' hb' => hne b' (List.mem_cons_of_mem _ hb')
      rw [List.filter_cons_of_pos (by simp [hb]), List.map_cons, List.map_cons, List.flatten_cons,
        List.flatten_cons, List.length_append, List.length_append]
      omega

theorem empty_fails (cmp : Bytes → Bytes → Ordering) {L : Levels AnyIter AnyIter Bytes Bytes}
    (hdata : L.data = AnyIter.iterator cmp) (hstatus : L.dataStatus = AnyIter.status) {s : Status}
    (hs : s.ok = false) : TwoLevelIterator.Fails L (fun a k => cmp a.1 k = .lt) (.empty s) := by
  rw [TwoLevelIterator.Fails, hdata, hstatus]
  refine Iterator.behavesWith_of_refines (R := fun it pos => it = .empty s ∧ pos = none) ?_ ?_ ?_
    ⟨rfl, rfl⟩
  · rintro _ _ op pos' ⟨rfl, rfl⟩ hop
    cases op with
    | seek target =>
      cases hop
      exact ⟨_, rfl, rfl, rfl⟩
    | seekToFirst =>
      cases hop
      exact ⟨_, rfl, rfl, rfl⟩
    | seekToLast =>
      cases hop
      exact ⟨_, rfl, rfl, rfl⟩
    | next => cases hop
    | prev => cases hop
  · rintro _ _ ⟨rfl, rfl⟩
    rfl
  · rintro _ _ ⟨rfl, rfl⟩
    exact hs

/-- The entries of the blocks that are not damaged. -/
def soundEntries (blocks : List DataBlock) (bad : DataBlock → Bool) : List (Bytes × Bytes) :=
  ((blocks.filter fun b => !bad b).map DataBlock.entries).flatten

section

variable (hc : c.Lawful P) (ht : TableFile sn K c P q f.contents blocks) (hK : Uncompressed sn K)
  (hread : f.Readable) (hread' : f'.Readable) (hsmall : SmallTable sn K q f.contents blocks)
  (hopened : Opened q options f blocks table) (hcmp : options.comparator = c)
  (hdamaged : Damaged blocks bad f.contents f'.contents) (junk : ℕ → UInt8)

include hc ht hK hread hread' hsmall hopened hcmp hdamaged

/-- With the bad blocks of the old file, all blocks can be opened. -/
theorem serves_of_damaged :
    TwoLevelIterator.Serves ((levels sn junk true (table.onFile f')).repair (badHandle blocks bad)
        (blockReader sn junk true table)) c.compare (blocks.map indexed)
      (fun it => it.status = .success) (· = .success) := by
  have hserves := serves_of_tableFile hc ht hK hread hsmall hopened hcmp junk true
  refine ⟨fun e he => ?_, hserves.handle_inj, hserves.keeps⟩
  obtain ⟨s, hs, hbehaves⟩ := hserves.opens e he
  refine ⟨s, ?_, hbehaves⟩
  obtain ⟨b, hb, rfl⟩ := List.mem_map.mp he
  change (if badHandle blocks bad b.handle.encoding then blockReader sn junk true table
    b.handle.encoding else blockReader sn junk true (table.onFile f') b.handle.encoding) = some s
  rw [badHandle_encoding ht hsmall.file_lt hb]
  split
  · exact hs
  · next hbad =>
    rw [blockReader_of_sound ht hK hread hread' hsmall.file_lt hopened hdamaged junk true hb
      (Bool.eq_false_of_not_eq_true hbad)]
    exact hs

/-- **Iterators of a damaged table**, without a block cache. They are cursors on the entries of the
blocks that are not damaged. The status is OK exactly as long as no damaged block has been opened,
and a complete scan, whatever was done before, ends with an error. -/
theorem iterator_of_damaged :
    (iterator sn junk true (table.onFile f')).Behaves (fun a k => c.compare a.1 k = .lt)
      (soundEntries blocks bad) (newIterator sn junk true (table.onFile f')) none ∧
    (∀ ops t, Cursor.run (iterator sn junk true (table.onFile f')).step
        (newIterator sn junk true (table.onFile f')) ops = some t →
      (t.status (levels sn junk true (table.onFile f')) = .success ↔
        Cursor.run (TwoLevelIterator.iterator
          ((levels sn junk true (table.onFile f')).without (badHandle blocks bad))
          (table.indexBlock.data.length + 2)).step (newIterator sn junk true (table.onFile f')) ops
            = some t)) ∧
    ((∃ b ∈ blocks, bad b = true) →
      ∀ ops t, Cursor.run (iterator sn junk true (table.onFile f')).step
          (newIterator sn junk true (table.onFile f')) ops = some t →
        ∃ t', Cursor.run (iterator sn junk true (table.onFile f')).step t
            (.seekToFirst :: List.replicate (soundEntries blocks bad).length .next) = some t' ∧
          t'.entry (levels sn junk true (table.onFile f')) = none ∧
          (t'.status (levels sn junk true (table.onFile f'))).ok = false) := by
  let L := levels sn junk true (table.onFile f')
  have htrans := hc.trans
  have hserves := serves_of_damaged hc ht hK hread hread' hsmall hopened hcmp hdamaged junk
  have hrounds : (blocks.map indexed).length + 1 < table.indexBlock.data.length + 2 := by
    obtain ⟨b, hb, -, hindex⟩ := hopened.index
    have hcount := hb.length_le
    rw [List.length_map] at hcount
    rw [hindex, data_new, List.length_map]
    omega
  have hlevels : L.index = AnyIter.iterator c.compare ∧ L.data = AnyIter.iterator c.compare := by
    simp only [L, levels, onFile, hopened.options_eq, hcmp, and_self]
  have hindex := index_behaves hc ht.layout hopened
  rw [← map_indexEntry, ← hlevels.1] at hindex
  have hfails : ∀ handle, badHandle blocks bad handle = true →
      ∃ s, L.blockFunction handle = some s ∧
        TwoLevelIterator.Fails L (fun a k => c.compare a.1 k = .lt) s := by
    intro handle hhandle
    obtain ⟨b, hb, hbad⟩ := List.any_eq_true.mp hhandle
    rw [Bool.and_eq_true, decide_eq_true_eq] at hbad
    obtain ⟨hbad, rfl⟩ := hbad
    exact ⟨_, blockReader_of_bad ht hread' hsmall.file_lt hdamaged junk hb hbad,
      empty_fails c.compare hlevels.2 rfl rfl⟩
  have hentries : TwoLevelIterator.readableEntries (badHandle blocks bad) (blocks.map indexed)
      = soundEntries blocks bad :=
    readableEntries_indexed ht hsmall.file_lt
  refine ⟨?_, fun ops t hrun => ?_, fun hbad ops t hrun => ?_⟩
  · have hbehaves := TwoLevelIterator.behaves_of_unreadable hserves hfails hrounds hindex
      (separated_indexed hc ht.layout)
    rwa [hentries] at hbehaves
  · exact TwoLevelIterator.status_iff hserves hfails hrounds hindex hrun
  · have hmore :
      (TwoLevelIterator.readableEntries (badHandle blocks bad) (blocks.map indexed)).length
        < (IndexedBlock.concat (blocks.map indexed)).length := by
      rw [hentries, concat_indexed]
      exact length_readable_lt ht.layout hbad
    have hscan := TwoLevelIterator.scan_status hserves hfails hrounds hindex hmore hrun
    rwa [hentries] at hscan

/-! ### Lookups -/

/-- The block that the index leads to. -/
def blockFor (c : Comparator) (blocks : List DataBlock) (k : Bytes) : Option DataBlock :=
  blocks.find? fun b => !decide (c.compare b.separator k = .lt)

end

section

open TableBuilder

/-- Two blocks, of which the first one has lost its first byte. -/
theorem exists_damaged (junk : ℕ → UInt8) : ∃ r r' table q blocks,
    TableBuilder.new (plainOptions none) .fresh = some r ∧
    r.build .absent [.add [1] [10], .flush, .add [2] [20]] = .ok r' ∧
    r'.file.contents.length < 2 ^ 32 ∧
    TableFile .absent (NeverCompresses .absent) bytewiseComparator (fun _ => True) q
      r'.file.contents blocks ∧
    openTable .absent junk (plainOptions none) (.mmap "t" r'.file.contents) r'.file.contents.length
      = some (.success, some table) ∧
    Opened q (plainOptions none) (.mmap "t" r'.file.contents) blocks table ∧
    Damaged blocks (fun b => decide (b.handle.offset = 0)) r'.file.contents
      (r'.file.contents.set 0 1) ∧
    table.filter = none ∧ ∃ b, blockFor bytewiseComparator blocks [1] = some b ∧
      b.handle.offset = 0 := by
  let calls := [Call.add [1] [10], .flush, .add [2] [20]]
  obtain ⟨r, hnew, hopt, hcounter⟩ := exists_new (plainOptions none) .fresh (by decide)
  have hsteady : ∀ c ∈ calls, c.Steady := by simp [calls, Call.Steady]
  have hfits : r.CounterFits := by
    rw [CounterFits, hcounter]
    exact Nat.zero_le _
  have hsmall : (outcome (r.build .absent calls)).file.contents.length < 2 ^ 32 ∧
      (outcome (r.build .absent calls)).file.contents[0]? = some 0 := by
    rw [← Option.some.inj hnew]
    decide +kernel
  obtain ⟨q, hq⟩ := exists_policy (finalOptions (plainOptions none) calls).filterPolicy
  obtain ⟨r', blocks, hbuild, -, -, -, htable, hentries, -, -⟩ :=
    @build_of_new .absent _ (NeverCompresses .absent)
    (fun _ => True) _ _ _ calls hnew bytewiseComparator_lawful (by decide)
      (.inl rfl) rfl (fun _ => rfl)
    (fun same o hmem => (hsteady _ hmem).elim)
    (countersFit_of_steady .absent hsteady (by rw [hopt]; decide) hfits)
      (fun p hp => by cases hp) hq
    (fun _ _ => trivial) (by simp [calls, added]; decide) (hsmall.1.trans (by norm_num))
  rw [hbuild] at hsmall
  obtain ⟨hlen, hfirst⟩ := hsmall
  change r'.file.contents.length < 2 ^ 32 at hlen
  change r'.file.contents[0]? = some 0 at hfirst
  obtain ⟨table, hopen, hopened⟩ :=
    @openTable_of_tableFile .absent _ _ _ _ (.mmap "t" r'.file.contents) _ htable
    (uncompressed_neverCompresses .absent)
      (RandomAccessFile.readable_mmap "t" (hlen.trans (by norm_num))) (htable.small hlen) junk
    (plainOptions none)
  obtain ⟨b₀, hfor, hoffset⟩ :
      ∃ b, blockFor bytewiseComparator blocks [1] = some b ∧ b.handle.offset = 0 := by
    obtain ⟨stop, hcont⟩ := htable.contiguous
    have hl := htable.layout
    cases blocks with
    | nil => cases hentries
    | cons b blocks =>
      refine ⟨b, ?_, hcont.1⟩
      have hne : b.entries ≠ [] := hl.nonempty b.placed (List.mem_append_left _ List.mem_cons_self)
      obtain ⟨a, entries, hb⟩ := List.exists_cons_of_ne_nil hne
      rw [List.map_cons, List.flatten_cons, hb, List.cons_append] at hentries
      have hle := hl.le_separator b List.mem_cons_self a (by rw [hb]; exact List.mem_cons_self)
      rw [(List.cons.inj hentries).1] at hle
      have htrans : Std.TransCmp (plainOptions none).comparator.compare :=
        bytewiseComparator_lawful.trans
      rw [blockFor, List.find?_cons_of_pos]
      rw [Bool.not_eq_true', decide_eq_false_iff_not]
      exact fun hlt => hle (Std.OrientedCmp.gt_iff_lt.mpr hlt)
  have hb₀ : b₀ ∈ blocks := List.mem_of_find?_eq_some hfor
  have hfilter : table.filter = none := by
    cases h : table.filter with
    | none => rfl
    | some reader => cases (hopened.filter reader h).1
  refine ⟨r, r', table, q, blocks, hnew, hbuild, hlen, htable, hopen, hopened, ⟨?_, ?_, ?_⟩,
    hfilter, b₀, hfor, hoffset⟩
  · rw [List.length_set]
  · intro b hb hbad heq
    have hpos : 0 < r'.file.contents.length := (List.getElem?_eq_some_iff.mp hfirst).1
    have hget := congrArg (fun l : Bytes => l[0]?) heq
    simp only [BlockHandle.checked, of_decide_eq_true hbad, List.drop_zero] at hget
    rw [List.getElem?_take_of_lt (Nat.succ_pos _), List.getElem?_take_of_lt (Nat.succ_pos _),
      hfirst, List.getElem?_set_self hpos] at hget
    cases hget
  · refine ⟨fun _ => 0, fun i hi => List.getElem?_set_ne fun heq => ?_⟩
    exact hi b₀ hb₀ (decide_eq_true hoffset) (by dsimp only; omega)

/-- The first block cannot be read, and the scan ends with an error. -/
theorem iterator_of_damaged_first : ∃ r r' table n t,
    TableBuilder.new (plainOptions none) .fresh = some r ∧
    r.build .absent [.add [1] [10], .flush, .add [2] [20]] = .ok r' ∧
    openTable .absent (fun _ => 0) (plainOptions none)
      (.mmap "t" r'.file.contents) r'.file.contents.length
      = some (.success, some table) ∧
    Cursor.run (iterator .absent (fun _ => 0) true
      (table.onFile (.mmap "t" (r'.file.contents.set 0 1)))).step
        (newIterator .absent (fun _ => 0) true
          (table.onFile (.mmap "t" (r'.file.contents.set 0 1))))
        (.seekToFirst :: List.replicate n .next) = some t ∧
      (t.status (levels .absent (fun _ => 0) true
        (table.onFile (.mmap "t" (r'.file.contents.set 0 1))))).ok
        = false := by
  obtain ⟨r, r', table, q, blocks, hnew, hbuild, hlen, htable, hopen, hopened, hdamaged, hfilter, b,
      hfor, hoffset⟩ :=
    exists_damaged fun _ => 0
  have hlen' : (r'.file.contents.set 0 1).length < 2 ^ 64 := by
    rw [List.length_set]
    omega
  obtain ⟨-, -, hscan⟩ := @iterator_of_damaged .absent _ bytewiseComparator (fun _ => True) q
    (.mmap "t" r'.file.contents) (.mmap "t" (r'.file.contents.set 0 1)) blocks _ _ table
      bytewiseComparator_lawful
    htable (uncompressed_neverCompresses .absent) (RandomAccessFile.readable_mmap "t" (by omega))
    (RandomAccessFile.readable_mmap "t" hlen') (htable.small hlen) hopened rfl hdamaged fun _ => 0
  obtain ⟨t, hrun, -, hstatus⟩ :=
    hscan ⟨b, List.mem_of_find?_eq_some hfor, decide_eq_true hoffset⟩ [] _ rfl
  exact ⟨r, r', table, _, t, hnew, hbuild, hopen, hrun, hstatus⟩

end

end Table

end Squirrel
