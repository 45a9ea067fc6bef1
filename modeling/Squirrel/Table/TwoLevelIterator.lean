import Squirrel.Table.IteratorWrapper
import Squirrel.Util.Env
import Mathlib.Order.Defs.LinearOrder

/-!
# The two-level iterator

`TwoLevelIterator` goes through the entries of many blocks. An index iterator says where the blocks
are, and a block function opens a block when it is needed. Blocks without entries are skipped, in
the direction of the move, and the status of an iterator that is given up is saved.

The loops that skip blocks run as long as the index iterator goes on, which nothing bounds for an
arbitrary one. They are given a number of rounds here, and return nothing when these are used up; a
few more than there are blocks are enough.

An index key need not be a key of its block. It is not before any key of the block and before all
keys of later blocks (`Separated`), so that the first index key that is not before a target leads to
the block that has the first such entry, or to the one before.

## Main results

* `TwoLevelIterator.step_at` — one operation, at any position
* `TwoLevelIterator.twoLevel_behaves` — the iterator is a cursor on the concatenation of the blocks
* `TwoLevelIterator.iterator_behaves` — the same, for index values that tell the blocks apart
-/

namespace Squirrel

open Cursor

variable {σ₁ σ₂ κ ν : Type}

/-- What a two-level iterator works with: iterators over the index and over blocks, and the function
that opens the block a value of the index stands for. -/
structure Levels (σ₁ σ₂ κ ν : Type) where
  index : Iterator σ₁ κ Bytes
  indexStatus : σ₁ → Status
  data : Iterator σ₂ κ ν
  dataStatus : σ₂ → Status
  blockFunction : Bytes → Option σ₂

/-- The state of a `TwoLevelIterator`; `savedError` is its `status_`. -/
structure TwoLevelIterator (σ₁ σ₂ κ : Type) where
  savedError : Status
  indexIter : IteratorWrapper σ₁ κ
  dataIter : Option (IteratorWrapper σ₂ κ)
  dataBlockHandle : Bytes

namespace TwoLevelIterator

variable (L : Levels σ₁ σ₂ κ ν)

/-- The constructor. -/
def new (indexIter : σ₁) : TwoLevelIterator σ₁ σ₂ κ :=
  ⟨.success, .update L.index indexIter, none, []⟩

/-- `Valid`. -/
def valid (t : TwoLevelIterator σ₁ σ₂ κ) : Bool := (t.dataIter.bind IteratorWrapper.key).isSome

/-- `key` and `value`, if the iterator is valid. -/
def entry (t : TwoLevelIterator σ₁ σ₂ κ) : Option (κ × ν) := do
  let dataIter ← t.dataIter
  let key ← dataIter.key
  let value ← dataIter.value L.data
  some (key, value)

/-- `status`. -/
def status (t : TwoLevelIterator σ₁ σ₂ κ) : Status :=
  if (L.indexStatus t.indexIter.iter).ok = false then L.indexStatus t.indexIter.iter
  else
    match t.dataIter with
    | some w => if (L.dataStatus w.iter).ok = false then L.dataStatus w.iter else t.savedError
    | none => t.savedError

/-- `SaveError`: the first error stays. -/
def saveError (old s : Status) : Status := if old.ok ∧ s.ok = false then s else old

/-- `SetDataIterator`. -/
def setDataIterator (dataIter : Option σ₂) (t : TwoLevelIterator σ₁ σ₂ κ) :
    TwoLevelIterator σ₁ σ₂ κ :=
  { t with
    savedError := match t.dataIter with
      | some w => saveError t.savedError (L.dataStatus w.iter)
      | none => t.savedError
    dataIter := dataIter.map (IteratorWrapper.update L.data) }

/-- `InitDataBlock`. A block that is open already is kept. -/
def initDataBlock (t : TwoLevelIterator σ₁ σ₂ κ) : Option (TwoLevelIterator σ₁ σ₂ κ) :=
  match t.indexIter.key with
  | none => some (t.setDataIterator L none)
  | some _ => do
    let handle ← t.indexIter.value L.index
    if t.dataIter.isSome ∧ handle = t.dataBlockHandle then some t
    else
      let iter ← L.blockFunction handle
      some ({ t with dataBlockHandle := handle }.setDataIterator L (some iter))

/-- Move the index iterator. -/
def moveIndex (op : Op κ) (t : TwoLevelIterator σ₁ σ₂ κ) : Option (TwoLevelIterator σ₁ σ₂ κ) :=
  (t.indexIter.step L.index op).map fun indexIter => { t with indexIter }

/-- Move the data iterator, if there is one. -/
def moveData (op : Op κ) (t : TwoLevelIterator σ₁ σ₂ κ) : Option (TwoLevelIterator σ₁ σ₂ κ) :=
  match t.dataIter with
  | none => some t
  | some w => (w.step L.data op).map fun w => { t with dataIter := some w }

/-- Move the index iterator, open the block it leads to, and place the data iterator. -/
def moveBoth (indexOp dataOp : Op κ) (t : TwoLevelIterator σ₁ σ₂ κ) :
    Option (TwoLevelIterator σ₁ σ₂ κ) := do
  let t ← t.moveIndex L indexOp
  let t ← t.initDataBlock L
  t.moveData L dataOp

/-- The loop that skips blocks. -/
def skipEmptyDataBlocks (indexOp dataOp : Op κ) :
    ℕ → TwoLevelIterator σ₁ σ₂ κ → Option (TwoLevelIterator σ₁ σ₂ κ)
  | 0, _ => none
  | rounds + 1, t =>
    if t.valid then some t
    else
      match t.indexIter.key with
      | none => some (t.setDataIterator L none)
      | some _ => do
        let t ← t.moveBoth L indexOp dataOp
        skipEmptyDataBlocks indexOp dataOp rounds t

variable (rounds : ℕ)

/-- `SkipEmptyDataBlocksForward`. -/
def skipEmptyDataBlocksForward :
    TwoLevelIterator σ₁ σ₂ κ → Option (TwoLevelIterator σ₁ σ₂ κ) :=
  skipEmptyDataBlocks L .next .seekToFirst rounds

/-- `SkipEmptyDataBlocksBackward`. -/
def skipEmptyDataBlocksBackward :
    TwoLevelIterator σ₁ σ₂ κ → Option (TwoLevelIterator σ₁ σ₂ κ) :=
  skipEmptyDataBlocks L .prev .seekToLast rounds

/-- `Seek`. -/
def seek (target : κ) (t : TwoLevelIterator σ₁ σ₂ κ) : Option (TwoLevelIterator σ₁ σ₂ κ) := do
  (← t.moveBoth L (.seek target) (.seek target)).skipEmptyDataBlocksForward L rounds

/-- `SeekToFirst`. -/
def seekToFirst (t : TwoLevelIterator σ₁ σ₂ κ) : Option (TwoLevelIterator σ₁ σ₂ κ) := do
  (← t.moveBoth L .seekToFirst .seekToFirst).skipEmptyDataBlocksForward L rounds

/-- `SeekToLast`. -/
def seekToLast (t : TwoLevelIterator σ₁ σ₂ κ) : Option (TwoLevelIterator σ₁ σ₂ κ) := do
  (← t.moveBoth L .seekToLast .seekToLast).skipEmptyDataBlocksBackward L rounds

/-- `Next`. -/
def next (t : TwoLevelIterator σ₁ σ₂ κ) : Option (TwoLevelIterator σ₁ σ₂ κ) :=
  if t.valid then do
    (← t.moveData L .next).skipEmptyDataBlocksForward L rounds
  else none

/-- `Prev`. -/
def prev (t : TwoLevelIterator σ₁ σ₂ κ) : Option (TwoLevelIterator σ₁ σ₂ κ) :=
  if t.valid then do
    (← t.moveData L .prev).skipEmptyDataBlocksBackward L rounds
  else none

/-- The two-level iterator, as its users see it. -/
def iterator : Iterator (TwoLevelIterator σ₁ σ₂ κ) κ ν where
  step t
    | .seek target => t.seek L rounds target
    | .seekToFirst => t.seekToFirst L rounds
    | .seekToLast => t.seekToLast L rounds
    | .next => t.next L rounds
    | .prev => t.prev L rounds
  entry := entry L

end TwoLevelIterator

/-! ### Blocks and their index -/

/-- A block, with the key and the value that it has in the index. -/
structure IndexedBlock (κ ν : Type) where
  separator : κ
  handle : Bytes
  entries : List (κ × ν)

namespace IndexedBlock

/-- The index entry of a block. -/
def indexEntry (e : IndexedBlock κ ν) : κ × Bytes := (e.separator, e.handle)

/-- All entries, block after block. -/
def concat (blocks : List (IndexedBlock κ ν)) : List (κ × ν) := (blocks.map entries).flatten

/-- The number of entries in the blocks before block `j`. -/
def start (blocks : List (IndexedBlock κ ν)) (j : ℕ) : ℕ := (concat (blocks.take j)).length

/-- The index keys lie where they must. -/
structure Separated (cmp : κ → κ → Ordering) (blocks : List (IndexedBlock κ ν)) : Prop where
  le_separator : ∀ e ∈ blocks, ∀ a ∈ e.entries, cmp a.1 e.separator ≠ .gt
  separator_lt : blocks.Pairwise fun e e' => ∀ a ∈ e'.entries, cmp e.separator a.1 = .lt

variable {cmp : κ → κ → Ordering} {blocks : List (IndexedBlock κ ν)} {e : IndexedBlock κ ν} {j : ℕ}

theorem start_zero (blocks : List (IndexedBlock κ ν)) : start blocks 0 = 0 := rfl

theorem start_succ (h : blocks[j]? = some e) :
    start blocks (j + 1) = start blocks j + e.entries.length := by
  rw [start, List.take_add_one, h, start, concat, concat]
  simp

theorem start_of_ge (h : blocks.length ≤ j) : start blocks j = (concat blocks).length := by
  rw [start, List.take_of_length_le h]

/-- The concatenation, as seen from one block. -/
theorem concat_eq_append (h : blocks[j]? = some e) :
    concat blocks = concat (blocks.take j) ++ (e.entries ++ concat (blocks.drop (j + 1))) := by
  obtain ⟨hlt, rfl⟩ := List.getElem?_eq_some_iff.mp h
  conv_lhs => rw [← List.take_append_drop j blocks, List.drop_eq_getElem_cons hlt]
  simp only [concat, List.map_append, List.flatten_append, List.map_cons, List.flatten_cons]

theorem getElem?_concat (h : blocks[j]? = some e) {i : ℕ} (hi : i < e.entries.length) :
    (concat blocks)[start blocks j + i]? = e.entries[i]? := by
  rw [concat_eq_append h, start, List.getElem?_append_right (Nat.le_add_right _ _),
    Nat.add_sub_cancel_left, List.getElem?_append_left hi]

/-- All entries of a block are before a target that its index key is before. -/
theorem Separated.lt_of_separator_lt [Std.TransCmp cmp] (hsep : Separated cmp blocks) {target : κ}
    {front : List (IndexedBlock κ ν)} (hfront : front ⊆ blocks)
    (hlt : ∀ e ∈ front, cmp e.separator target = .lt) :
    ∀ a ∈ concat front, cmp a.1 target = .lt := by
  intro a ha
  obtain ⟨l, hl, ha⟩ := List.mem_flatten.mp ha
  obtain ⟨e, he, rfl⟩ := List.mem_map.mp hl
  exact Std.TransCmp.lt_of_isLE_of_lt
    (Ordering.isLE_iff_ne_gt.mpr (hsep.le_separator e (hfront he) a ha)) (hlt e he)

/-- A target behind all index keys is behind all entries. -/
theorem Separated.findIdx_concat_of_ge [Std.TransCmp cmp] (hsep : Separated cmp blocks) (target : κ)
    (hge : blocks.length ≤ blocks.findIdx fun e => !decide (cmp e.separator target = .lt)) :
    ((concat blocks).findIdx fun a => !decide (cmp a.1 target = .lt)) = (concat blocks).length := by
  have hall := List.findIdx_eq_length.mp (Nat.le_antisymm List.findIdx_le_length hge)
  refine List.findIdx_eq_length.mpr fun a ha => ?_
  have hlt := hsep.lt_of_separator_lt (fun _ h => h) (fun e he => by simpa using hall e he) a ha
  simp [hlt]

/-- Seeking in the concatenation is seeking in the block that the index leads to. -/
theorem Separated.findIdx_concat [Std.TransCmp cmp] (hsep : Separated cmp blocks) (target : κ)
    (hfind : (blocks.findIdx fun e => !decide (cmp e.separator target = .lt)) = j)
    (h : blocks[j]? = some e) :
    ((concat blocks).findIdx fun a => !decide (cmp a.1 target = .lt))
      = start blocks j + e.entries.findIdx fun a => !decide (cmp a.1 target = .lt) := by
  obtain ⟨hlt, heq⟩ := List.getElem?_eq_some_iff.mp h
  have hbefore : ∀ a ∈ concat (blocks.take j), cmp a.1 target = .lt := by
    refine hsep.lt_of_separator_lt (List.take_subset j blocks) fun e' he' => ?_
    obtain ⟨i, hi, rfl⟩ := List.mem_take_iff_getElem.mp he'
    have hnot := List.not_of_lt_findIdx (hfind.symm ▸ (lt_min_iff.mp hi).1)
    simpa using hnot
  have hafter : ∀ a ∈ concat (blocks.drop (j + 1)), cmp a.1 target ≠ .lt := by
    intro a ha hcmp
    obtain ⟨l, hl, ha⟩ := List.mem_flatten.mp ha
    obtain ⟨e', he', rfl⟩ := List.mem_map.mp hl
    have hpair := hsep.separator_lt
    rw [← List.take_append_drop j blocks, List.drop_eq_getElem_cons hlt, heq] at hpair
    have hlt' := (List.pairwise_cons.mp (List.pairwise_append.mp hpair).2.1).1 e' he' a ha
    have hnot : cmp e.separator target ≠ .lt := by
      have hspec := List.findIdx_getElem (w := hfind.symm ▸ hlt)
      simp only [hfind, heq] at hspec
      simpa using hspec
    exact hnot (Std.TransCmp.lt_trans hlt' hcmp)
  have hrest : ((concat (blocks.drop (j + 1))).findIdx fun a => !decide (cmp a.1 target = .lt))
      = 0 := by
    cases hl : concat (blocks.drop (j + 1)) with
    | nil => rfl
    | cons a l =>
      have ha := hafter a (hl ▸ List.mem_cons_self)
      simp [List.findIdx_cons, ha]
  have hnone : ((concat (blocks.take j)).findIdx fun a => !decide (cmp a.1 target = .lt))
      = (concat (blocks.take j)).length :=
    List.findIdx_eq_length.mpr fun a ha => by simp [hbefore a ha]
  have hle : (e.entries.findIdx fun a => !decide (cmp a.1 target = .lt)) ≤ e.entries.length :=
    List.findIdx_le_length
  rw [concat_eq_append h, List.findIdx_append, hnone, if_neg (Nat.lt_irrefl _), List.findIdx_append,
    hrest, start]
  split <;> omega

end IndexedBlock

namespace TwoLevelIterator

open IndexedBlock

/-! ### Positions -/

section

variable (L : Levels σ₁ σ₂ κ ν) (cmp : κ → κ → Ordering) (blocks : List (IndexedBlock κ ν))
  (good₁ : σ₁ → Prop) (good₂ : σ₂ → Prop) (kept : Status → Prop)

/-- The block function opens the blocks, and never two different ones under one handle. Giving up
one of their iterators does not harm the saved status. -/
structure Serves : Prop where
  opens : ∀ e ∈ blocks, ∃ s, L.blockFunction e.handle = some s ∧
    L.data.BehavesWith good₂ (fun a k => cmp a.1 k = .lt) e.entries s none
  handle_inj : ∀ e ∈ blocks, ∀ e' ∈ blocks, e.handle = e'.handle → e.entries = e'.entries
  keeps : ∀ s iter, kept s → good₂ iter → kept (saveError s (L.dataStatus iter))

/-- The index iterator is at `q`, and the data iterator somewhere in the block of the handle. -/
structure Between (t : TwoLevelIterator σ₁ σ₂ κ) (q : Option ℕ) : Prop where
  kept_saved : kept t.savedError
  index_at : t.indexIter.StandsAt L.index good₁ (fun a k => cmp a.1 k = .lt)
    (blocks.map indexEntry) q
  data_at : ∀ w, t.dataIter = some w → ∃ e ∈ blocks, t.dataBlockHandle = e.handle ∧
    ∃ pos, w.StandsAt L.data good₂ (fun a k => cmp a.1 k = .lt) e.entries pos

/-- The data iterator is at `pos` in block `j`, and the index iterator at that block. -/
structure InBlock (t : TwoLevelIterator σ₁ σ₂ κ) (j : ℕ) (e : IndexedBlock κ ν) (pos : Option ℕ) :
    Prop where
  block_eq : blocks[j]? = some e
  kept_saved : kept t.savedError
  index_at : t.indexIter.StandsAt L.index good₁ (fun a k => cmp a.1 k = .lt)
    (blocks.map indexEntry) (some j)
  handle_eq : t.dataBlockHandle = e.handle
  data_at : ∃ w, t.dataIter = some w ∧
    w.StandsAt L.data good₂ (fun a k => cmp a.1 k = .lt) e.entries pos

/-- The iterator is at `pos` in the concatenation of the blocks. -/
def PosAt (t : TwoLevelIterator σ₁ σ₂ κ) : Option ℕ → Prop
  | none => t.dataIter = none ∧ ∃ q, Between L cmp blocks good₁ good₂ kept t q
  | some p => ∃ j e i, InBlock L cmp blocks good₁ good₂ kept t j e (some i) ∧
      i < e.entries.length ∧ p = start blocks j + i

end

variable {L : Levels σ₁ σ₂ κ ν} {cmp : κ → κ → Ordering} {blocks : List (IndexedBlock κ ν)}
  {good₁ : σ₁ → Prop} {good₂ : σ₂ → Prop} {kept : Status → Prop} {t : TwoLevelIterator σ₁ σ₂ κ}
  {e : IndexedBlock κ ν} {j : ℕ} {pos pos' : Option ℕ}

theorem InBlock.between (h : InBlock L cmp blocks good₁ good₂ kept t j e pos) :
    Between L cmp blocks good₁ good₂ kept t (some j) := by
  refine ⟨h.kept_saved, h.index_at, fun w hw => ?_⟩
  obtain ⟨w', hw', hat⟩ := h.data_at
  obtain rfl : w' = w := Option.some.inj (hw'.symm.trans hw)
  exact ⟨e, List.mem_of_getElem? h.block_eq, h.handle_eq, pos, hat⟩

theorem PosAt.between (h : PosAt L cmp blocks good₁ good₂ kept t pos) :
    ∃ q, Between L cmp blocks good₁ good₂ kept t q := by
  cases pos with
  | none => exact h.2
  | some p =>
    obtain ⟨j, e, i, hin, -, -⟩ := h
    exact ⟨some j, hin.between⟩

theorem Between.index_key {q : Option ℕ} (h : Between L cmp blocks good₁ good₂ kept t q) :
    t.indexIter.key = (q.bind fun j => blocks[j]?).map IndexedBlock.separator := by
  rw [h.index_at.key_eq, h.index_at.behaves.entry_eq]
  cases q with
  | none => rfl
  | some j =>
    rw [Option.bind_some, Option.bind_some, List.getElem?_map, Option.map_map]
    rfl

/-- Giving up the data iterator. -/
theorem Between.setDataIterator_none (hserves : Serves L cmp blocks good₂ kept) {q : Option ℕ}
    (h : Between L cmp blocks good₁ good₂ kept t q) :
    PosAt L cmp blocks good₁ good₂ kept (t.setDataIterator L none) none ∧
      Between L cmp blocks good₁ good₂ kept (t.setDataIterator L none) q := by
  have hbetween : Between L cmp blocks good₁ good₂ kept (t.setDataIterator L none) q := by
    refine ⟨?_, h.index_at, fun w hw => by cases hw⟩
    cases hdata : t.dataIter with
    | none => simpa [setDataIterator, hdata] using h.kept_saved
    | some w =>
      obtain ⟨e, -, -, pos, hat⟩ := h.data_at w hdata
      simpa [setDataIterator, hdata] using hserves.keeps _ _ h.kept_saved hat.behaves.good_self
  exact ⟨⟨rfl, q, hbetween⟩, hbetween⟩

/-- `InitDataBlock` opens the block that the index iterator is at, unless it is open already. -/
theorem Between.initDataBlock (hserves : Serves L cmp blocks good₂ kept)
    (h : Between L cmp blocks good₁ good₂ kept t (some j)) (he : blocks[j]? = some e) :
    ∃ t' pos, t.initDataBlock L = some t' ∧ InBlock L cmp blocks good₁ good₂ kept t' j e pos := by
  have hmem := List.mem_of_getElem? he
  have hkey : t.indexIter.key = some e.separator := by
    rw [h.index_key, Option.bind_some, he]
    rfl
  have hvalue : t.indexIter.value L.index = some e.handle :=
    h.index_at.value_some (by rw [List.getElem?_map, he]; rfl)
  rw [TwoLevelIterator.initDataBlock, hkey]
  simp only [hvalue, Option.bind_eq_bind, Option.bind_some]
  split
  · next hopen =>
    obtain ⟨w, hw⟩ := Option.isSome_iff_exists.mp hopen.1
    obtain ⟨e', he', hhandle, pos, hat⟩ := h.data_at w hw
    -- the open block has the same handle, and so the same entries
    have hsame := hserves.handle_inj e' he' e hmem (hhandle.symm.trans hopen.2.symm)
    rw [hsame] at hat
    exact ⟨t, pos, rfl, he, h.kept_saved, h.index_at, hopen.2.symm, w, hw, hat⟩
  · obtain ⟨s, hs, hbehaves⟩ := hserves.opens e hmem
    rw [hs]
    refine ⟨_, none, rfl, he, ?_, h.index_at, rfl, _, rfl,
      IteratorWrapper.standsAt_update hbehaves⟩
    cases hdata : t.dataIter with
    | none => simpa [setDataIterator, hdata] using h.kept_saved
    | some w =>
      obtain ⟨e', -, -, pos, hat⟩ := h.data_at w hdata
      simpa [setDataIterator, hdata] using hserves.keeps _ _ h.kept_saved hat.behaves.good_self

theorem Between.moveIndex {q q' : Option ℕ} {op : Op κ}
    (h : Between L cmp blocks good₁ good₂ kept t q)
    (hop : Cursor.step (fun a k => cmp a.1 k = .lt) (blocks.map indexEntry) q op = some q') :
    ∃ t', t.moveIndex L op = some t' ∧ Between L cmp blocks good₁ good₂ kept t' q' := by
  obtain ⟨w, hw, hat⟩ := h.index_at.step hop
  refine ⟨{ t with indexIter := w }, ?_, h.kept_saved, hat, h.data_at⟩
  rw [TwoLevelIterator.moveIndex, hw]
  rfl

theorem InBlock.moveData (op : Op κ) (h : InBlock L cmp blocks good₁ good₂ kept t j e pos)
    (hop : Cursor.step (fun a k => cmp a.1 k = .lt) e.entries pos op = some pos') :
    ∃ t', t.moveData L op = some t' ∧ InBlock L cmp blocks good₁ good₂ kept t' j e pos' := by
  obtain ⟨w, hw, hat⟩ := h.data_at
  obtain ⟨w', hw', hat'⟩ := hat.step hop
  refine ⟨{ t with dataIter := some w' }, ?_, h.block_eq, h.kept_saved, h.index_at, h.handle_eq, w',
    rfl, hat'⟩
  rw [TwoLevelIterator.moveData, hw]
  simp only [hw', Option.map_some]

theorem InBlock.valid_iff (h : InBlock L cmp blocks good₁ good₂ kept t j e pos)
    (hpos : ∀ i ∈ pos, i < e.entries.length) : t.valid = pos.isSome := by
  obtain ⟨w, hw, hat⟩ := h.data_at
  rw [valid, hw, Option.bind_some]
  cases pos with
  | none => rw [hat.key_none]; rfl
  | some i => rw [hat.key_some (List.getElem?_eq_getElem (hpos i rfl))]; rfl

/-- The loops end where the index ends. -/
theorem Between.skip_end (hserves : Serves L cmp blocks good₂ kept)
    (h : Between L cmp blocks good₁ good₂ kept t none) (hdata : t.dataIter = none)
    (indexOp dataOp : Op κ) (rounds : ℕ) :
    ∃ t', skipEmptyDataBlocks L indexOp dataOp (rounds + 1) t = some t' ∧
      PosAt L cmp blocks good₁ good₂ kept t' none := by
  have hkey : t.indexIter.key = none := h.index_key
  refine ⟨_, ?_, (h.setDataIterator_none hserves).1⟩
  simp [skipEmptyDataBlocks, valid, hdata, hkey]

/-- The index iterator leaves the index, and the data iterator is given up. -/
theorem Between.moveBoth_end (hserves : Serves L cmp blocks good₂ kept) {q : Option ℕ}
    (h : Between L cmp blocks good₁ good₂ kept t q) {indexOp : Op κ} (dataOp : Op κ)
    (hop : Cursor.step (fun a k => cmp a.1 k = .lt) (blocks.map indexEntry) q indexOp = some none) :
    ∃ t', t.moveBoth L indexOp dataOp = some t' ∧ t'.dataIter = none ∧
      Between L cmp blocks good₁ good₂ kept t' none := by
  obtain ⟨t₁, ht₁, h₁⟩ := h.moveIndex hop
  have hkey : t₁.indexIter.key = none := h₁.index_key
  refine ⟨t₁.setDataIterator L none, ?_, rfl, (h₁.setDataIterator_none hserves).2⟩
  rw [moveBoth, ht₁]
  simp [TwoLevelIterator.initDataBlock, hkey, moveData, setDataIterator]

/-- The index iterator goes to block `j`, which is opened. -/
theorem Between.moveBoth_block (hserves : Serves L cmp blocks good₂ kept) {q : Option ℕ}
    (h : Between L cmp blocks good₁ good₂ kept t q) {indexOp : Op κ} (dataOp : Op κ)
    (hop : Cursor.step (fun a k => cmp a.1 k = .lt) (blocks.map indexEntry) q indexOp
      = some (some j)) (he : blocks[j]? = some e)
    (hdata : ∀ pos, Cursor.step (fun a k => cmp a.1 k = .lt) e.entries pos dataOp = some pos') :
    ∃ t', t.moveBoth L indexOp dataOp = some t' ∧
      InBlock L cmp blocks good₁ good₂ kept t' j e pos' := by
  obtain ⟨t₁, ht₁, h₁⟩ := h.moveIndex hop
  obtain ⟨t₂, pos, ht₂, h₂⟩ := h₁.initDataBlock hserves he
  obtain ⟨t₃, ht₃, h₃⟩ := h₂.moveData _ (hdata pos)
  refine ⟨t₃, ?_, h₃⟩
  rw [moveBoth, ht₁]
  simp only [Option.bind_eq_bind, Option.bind_some, ht₂, ht₃]

/-! ### The loops -/

theorem skip_of_valid (h : t.valid = true) (indexOp dataOp : Op κ) (rounds : ℕ) :
    skipEmptyDataBlocks L indexOp dataOp (rounds + 1) t = some t := if_pos h

theorem InBlock.skip_invalid (h : InBlock L cmp blocks good₁ good₂ kept t j e none)
    (indexOp dataOp : Op κ) (rounds : ℕ) :
    skipEmptyDataBlocks L indexOp dataOp (rounds + 1) t
      = (t.moveBoth L indexOp dataOp).bind (skipEmptyDataBlocks L indexOp dataOp rounds) := by
  have hvalid : t.valid = false := h.valid_iff fun i hi => by cases hi
  have hkey : t.indexIter.key = some e.separator := by
    rw [h.between.index_key, Option.bind_some, h.block_eq]
    rfl
  simp [skipEmptyDataBlocks, hvalid, hkey]

/-- **Skipping forward** from place `m` of block `j`, which may be behind its end. The induction is
on the blocks that are left. -/
theorem InBlock.skipForward (hserves : Serves L cmp blocks good₂ kept) {m : ℕ} (rounds : ℕ)
    (h : InBlock L cmp blocks good₁ good₂ kept t j e (place e.entries m))
    (hm : m ≤ e.entries.length) (hrounds : blocks.length - j + 1 < rounds) :
    ∃ t', skipEmptyDataBlocks L .next .seekToFirst rounds t = some t' ∧
      PosAt L cmp blocks good₁ good₂ kept t' (place (concat blocks) (start blocks j + m)) := by
  induction rounds generalizing t j e m with
  | zero => exact absurd hrounds (Nat.not_lt_zero _)
  | succ rounds ih =>
    have hj := (List.getElem?_eq_some_iff.mp h.block_eq).1
    rcases Nat.lt_or_eq_of_le hm with hlt | rfl
    · have hget := getElem?_concat h.block_eq hlt
      rw [List.getElem?_eq_getElem hlt] at hget
      rw [place_of_lt hlt] at h
      rw [place_of_lt (List.getElem?_eq_some_iff.mp hget).1]
      refine ⟨t, skip_of_valid ?_ _ _ _, j, e, m, h, hlt, rfl⟩
      rw [h.valid_iff fun i hi => Option.some.inj hi ▸ hlt]
      rfl
    · rw [place_of_ge (Nat.le_refl _)] at h
      rw [h.skip_invalid]
      have hnext : Cursor.step (fun a k => cmp a.1 k = .lt) (blocks.map indexEntry) (some j) .next
          = some (place (blocks.map indexEntry) (j + 1)) := rfl
      rw [← start_succ h.block_eq]
      rcases Nat.lt_or_ge (j + 1) blocks.length with hlt | hge
      · rw [place_of_lt (by rwa [List.length_map])] at hnext
        obtain ⟨t', ht', hin⟩ := h.between.moveBoth_block hserves .seekToFirst hnext
          (List.getElem?_eq_getElem hlt) fun _ => rfl
        rw [ht']
        exact ih hin (Nat.zero_le _) (by omega)
      · rw [place_of_ge (by rwa [List.length_map])] at hnext
        obtain ⟨t', ht', hdata, hbetween⟩ := h.between.moveBoth_end hserves .seekToFirst hnext
        rw [ht', place_of_ge (Nat.le_of_eq (start_of_ge hge).symm)]
        obtain ⟨rounds, rfl⟩ := Nat.exists_eq_succ_of_ne_zero (show rounds ≠ 0 by omega)
        exact hbetween.skip_end hserves hdata _ _ _

/-- **Skipping backward** from the entry before place `m` of block `j`. -/
theorem InBlock.skipBackward (hserves : Serves L cmp blocks good₂ kept) {m : ℕ} (rounds : ℕ)
    (h : InBlock L cmp blocks good₁ good₂ kept t j e (if m = 0 then none else some (m - 1)))
    (hm : m ≤ e.entries.length) (hrounds : j + 2 < rounds) :
    ∃ t', skipEmptyDataBlocks L .prev .seekToLast rounds t = some t' ∧
      PosAt L cmp blocks good₁ good₂ kept t'
        (if start blocks j + m = 0 then none else some (start blocks j + m - 1)) := by
  induction rounds generalizing t j e m with
  | zero => exact absurd hrounds (Nat.not_lt_zero _)
  | succ rounds ih =>
    rcases Nat.eq_zero_or_pos m with rfl | hpos
    · rw [if_pos rfl] at h
      rw [h.skip_invalid, Nat.add_zero]
      have hprev : Cursor.step (fun a k => cmp a.1 k = .lt) (blocks.map indexEntry) (some j) .prev
          = some (if j = 0 then none else some (j - 1)) := rfl
      cases j with
      | zero =>
        rw [if_pos rfl] at hprev
        obtain ⟨t', ht', hdata, hbetween⟩ := h.between.moveBoth_end hserves .seekToLast hprev
        rw [ht', start_zero, if_pos rfl]
        obtain ⟨rounds, rfl⟩ := Nat.exists_eq_succ_of_ne_zero (show rounds ≠ 0 by omega)
        exact hbetween.skip_end hserves hdata _ _ _
      | succ j =>
        have hj : j < blocks.length := by
          have := (List.getElem?_eq_some_iff.mp h.block_eq).1
          omega
        have he' := List.getElem?_eq_getElem hj
        rw [if_neg (Nat.succ_ne_zero j), Nat.add_sub_cancel] at hprev
        obtain ⟨t', ht', hin⟩ := h.between.moveBoth_block hserves .seekToLast hprev he'
          fun _ => rfl
        rw [place_length_sub_one] at hin
        rw [ht', start_succ he']
        exact ih hin (Nat.le_refl _) (by omega)
    · rw [if_neg (by omega)] at h ⊢
      refine ⟨t, skip_of_valid ?_ _ _ _, j, e, m - 1, h, by omega, by omega⟩
      rw [h.valid_iff fun i hi => by
        obtain rfl := Option.some.inj hi
        omega]
      rfl

/-! ### All operations -/

/-- `Seek` and `SeekToFirst`: the index leads to place `m` of a block, or behind the last one. -/
theorem Between.seekForward (hserves : Serves L cmp blocks good₂ kept) {q : Option ℕ}
    (h : Between L cmp blocks good₁ good₂ kept t q) (op : Op κ) {p rounds : ℕ}
    (hrounds : blocks.length + 1 < rounds)
    (hop : Cursor.step (fun a k => cmp a.1 k = .lt) (blocks.map indexEntry) q op
      = some (place (blocks.map indexEntry) j))
    (hblock : ∀ e, blocks[j]? = some e → ∃ m, m ≤ e.entries.length ∧ p = start blocks j + m ∧
      ∀ pos, Cursor.step (fun a k => cmp a.1 k = .lt) e.entries pos op
        = some (place e.entries m))
    (hend : blocks.length ≤ j → (concat blocks).length ≤ p) :
    ∃ t', ((t.moveBoth L op op).bind (skipEmptyDataBlocksForward L rounds)) = some t' ∧
      PosAt L cmp blocks good₁ good₂ kept t' (place (concat blocks) p) := by
  rcases Nat.lt_or_ge j blocks.length with hlt | hge
  · have he := List.getElem?_eq_getElem hlt
    rw [place_of_lt (by rwa [List.length_map])] at hop
    obtain ⟨m, hm, rfl, hdata⟩ := hblock _ he
    obtain ⟨t₁, ht₁, hin⟩ := h.moveBoth_block hserves op hop he hdata
    rw [ht₁]
    exact hin.skipForward hserves rounds hm (by omega)
  · rw [place_of_ge (by rwa [List.length_map])] at hop
    obtain ⟨t₁, ht₁, hdata, hout⟩ := h.moveBoth_end hserves op hop
    obtain ⟨rounds, rfl⟩ := Nat.exists_eq_succ_of_ne_zero (show rounds ≠ 0 by omega)
    rw [ht₁, place_of_ge (hend hge)]
    exact hout.skip_end hserves hdata .next .seekToFirst rounds

theorem Between.seek_at [Std.TransCmp cmp] (hserves : Serves L cmp blocks good₂ kept)
    (hsep : Separated cmp blocks) {q : Option ℕ} (h : Between L cmp blocks good₁ good₂ kept t q)
    {rounds : ℕ} (hrounds : blocks.length + 1 < rounds) (target : κ) :
    ∃ t', t.seek L rounds target = some t' ∧
      PosAt L cmp blocks good₁ good₂ kept t' (place (concat blocks)
        ((concat blocks).findIdx fun a => !decide (cmp a.1 target = .lt))) := by
  refine h.seekForward hserves (.seek target) hrounds ?_ ?_ ?_
    (j := blocks.findIdx fun e => !decide (cmp e.separator target = .lt))
  · rw [Cursor.step, List.findIdx_map]
    rfl
  · intro e he
    exact ⟨_, List.findIdx_le_length, hsep.findIdx_concat target rfl he, fun _ => rfl⟩
  · intro hge
    exact Nat.le_of_eq (hsep.findIdx_concat_of_ge target hge).symm

theorem Between.seekToFirst_at (hserves : Serves L cmp blocks good₂ kept) {q : Option ℕ}
    (h : Between L cmp blocks good₁ good₂ kept t q) {rounds : ℕ}
    (hrounds : blocks.length + 1 < rounds) :
    ∃ t', t.seekToFirst L rounds = some t' ∧
      PosAt L cmp blocks good₁ good₂ kept t' (place (concat blocks) 0) := by
  refine h.seekForward hserves .seekToFirst hrounds ?_ ?_ ?_ (j := 0)
  · rfl
  · intro e he
    exact ⟨0, Nat.zero_le _, rfl, fun _ => rfl⟩
  · intro hge
    rw [List.eq_nil_of_length_eq_zero (Nat.le_zero.mp hge)]
    exact Nat.le_refl 0

theorem Between.seekToLast_at (hserves : Serves L cmp blocks good₂ kept) {q : Option ℕ}
    (h : Between L cmp blocks good₁ good₂ kept t q) {rounds : ℕ}
    (hrounds : blocks.length + 1 < rounds) :
    ∃ t', t.seekToLast L rounds = some t' ∧
      PosAt L cmp blocks good₁ good₂ kept t'
        (place (concat blocks) ((concat blocks).length - 1)) := by
  have hop : Cursor.step (fun a k => cmp a.1 k = .lt) (blocks.map indexEntry) q .seekToLast
      = some (place (blocks.map indexEntry) (blocks.length - 1)) := by
    rw [Cursor.step, List.length_map]
  rw [seekToLast]
  rcases Nat.eq_zero_or_pos blocks.length with hzero | hpos
  · rw [place_of_ge (by rw [List.length_map]; omega)] at hop
    obtain ⟨t₁, ht₁, hdata, hout⟩ := h.moveBoth_end hserves .seekToLast hop
    obtain ⟨rounds, rfl⟩ := Nat.exists_eq_succ_of_ne_zero (show rounds ≠ 0 by omega)
    have hnil : concat blocks = [] := by
      rw [List.eq_nil_of_length_eq_zero hzero]
      rfl
    rw [ht₁, hnil]
    exact hout.skip_end hserves hdata .prev .seekToLast rounds
  · have hlt := Nat.sub_one_lt_of_lt hpos
    have he := List.getElem?_eq_getElem hlt
    rw [place_of_lt (by rwa [List.length_map])] at hop
    obtain ⟨t₁, ht₁, hin⟩ := h.moveBoth_block hserves .seekToLast hop he fun _ => rfl
    rw [place_length_sub_one] at hin
    obtain ⟨t', ht', hat⟩ := hin.skipBackward hserves rounds (Nat.le_refl _) (by omega)
    rw [← start_succ he, Nat.sub_add_cancel hpos, start_of_ge (Nat.le_refl _)] at hat
    rw [ht₁, place_length_sub_one]
    exact ⟨t', ht', hat⟩

theorem PosAt.next_at (hserves : Serves L cmp blocks good₂ kept) {p : ℕ}
    (h : PosAt L cmp blocks good₁ good₂ kept t (some p)) {rounds : ℕ}
    (hrounds : blocks.length + 1 < rounds) :
    ∃ t', t.next L rounds = some t' ∧
      PosAt L cmp blocks good₁ good₂ kept t' (place (concat blocks) (p + 1)) := by
  obtain ⟨j, e, i, hin, hi, rfl⟩ := h
  have hvalid : t.valid = true := hin.valid_iff fun i' hi' => Option.some.inj hi' ▸ hi
  obtain ⟨t₁, ht₁, hin₁⟩ := hin.moveData .next rfl
  obtain ⟨t', ht', hat⟩ := hin₁.skipForward hserves rounds hi (by omega)
  refine ⟨t', ?_, hat⟩
  simp only [next, if_pos hvalid, ht₁, Option.bind_eq_bind, Option.bind_some]
  exact ht'

theorem PosAt.prev_at (hserves : Serves L cmp blocks good₂ kept) {p : ℕ}
    (h : PosAt L cmp blocks good₁ good₂ kept t (some p)) {rounds : ℕ}
    (hrounds : blocks.length + 1 < rounds) :
    ∃ t', t.prev L rounds = some t' ∧
      PosAt L cmp blocks good₁ good₂ kept t' (if p = 0 then none else some (p - 1)) := by
  obtain ⟨j, e, i, hin, hi, rfl⟩ := h
  have hvalid : t.valid = true := hin.valid_iff fun i' hi' => Option.some.inj hi' ▸ hi
  have hj := (List.getElem?_eq_some_iff.mp hin.block_eq).1
  obtain ⟨t₁, ht₁, hin₁⟩ := hin.moveData .prev rfl
  obtain ⟨t', ht', hat⟩ := hin₁.skipBackward hserves rounds (Nat.le_of_lt hi) (by omega)
  refine ⟨t', ?_, hat⟩
  simp only [prev, if_pos hvalid, ht₁, Option.bind_eq_bind, Option.bind_some]
  exact ht'

/-- **One operation**, at any position. -/
theorem step_at [Std.TransCmp cmp] (hserves : Serves L cmp blocks good₂ kept)
    (hsep : Separated cmp blocks) {rounds : ℕ} (hrounds : blocks.length + 1 < rounds) {op : Op κ}
    (h : PosAt L cmp blocks good₁ good₂ kept t pos)
    (hop : Cursor.step (fun a k => cmp a.1 k = .lt) (concat blocks) pos op = some pos') :
    ∃ t', (iterator L rounds).step t op = some t' ∧
      PosAt L cmp blocks good₁ good₂ kept t' pos' := by
  obtain ⟨q, hbetween⟩ := h.between
  cases op with
  | seek target =>
    cases hop
    exact hbetween.seek_at hserves hsep hrounds target
  | seekToFirst =>
    cases hop
    exact hbetween.seekToFirst_at hserves hrounds
  | seekToLast =>
    cases hop
    exact hbetween.seekToLast_at hserves hrounds
  | next =>
    obtain ⟨p, rfl, rfl⟩ := Option.map_eq_some_iff.mp hop
    exact h.next_at hserves hrounds
  | prev =>
    obtain ⟨p, rfl, rfl⟩ := Option.map_eq_some_iff.mp hop
    exact h.prev_at hserves hrounds

theorem PosAt.entry_eq (h : PosAt L cmp blocks good₁ good₂ kept t pos) :
    entry L t = pos.bind fun p => (concat blocks)[p]? := by
  cases pos with
  | none => rw [entry, h.1]; rfl
  | some p =>
    obtain ⟨j, e, i, hin, hi, rfl⟩ := h
    obtain ⟨w, hw, hat⟩ := hin.data_at
    have hget := List.getElem?_eq_getElem hi
    rw [entry, hw, Option.bind_some, getElem?_concat hin.block_eq hi, hget]
    simp [hat.key_some hget, hat.value_some hget]

/-- All that the iterator holds is in order. -/
def Good (good₁ : σ₁ → Prop) (good₂ : σ₂ → Prop) (kept : Status → Prop)
    (t : TwoLevelIterator σ₁ σ₂ κ) : Prop :=
  kept t.savedError ∧ good₁ t.indexIter.iter ∧ ∀ w, t.dataIter = some w → good₂ w.iter

theorem PosAt.good (h : PosAt L cmp blocks good₁ good₂ kept t pos) : Good good₁ good₂ kept t := by
  obtain ⟨q, hbetween⟩ := h.between
  refine ⟨hbetween.kept_saved, hbetween.index_at.behaves.good_self, fun w hw => ?_⟩
  obtain ⟨e, -, -, pos', hat⟩ := hbetween.data_at w hw
  exact hat.behaves.good_self

/-- Where no iterator has an error, neither has the whole. -/
theorem Good.status_eq (h : Good (fun s => L.indexStatus s = .success)
    (fun s => L.dataStatus s = .success) (· = .success) t) : status L t = .success := by
  obtain ⟨hsaved, hindex, hdata⟩ := h
  rw [status, hindex, if_neg (by simp)]
  cases hw : t.dataIter with
  | none => exact hsaved
  | some w => simp [hdata w hw, hsaved]

/-- **The two-level iterator is a cursor on the concatenation of the blocks**, which may be
empty. -/
theorem twoLevel_behaves [Std.TransCmp cmp] (hserves : Serves L cmp blocks good₂ kept)
    (hsep : Separated cmp blocks) {rounds : ℕ} (hrounds : blocks.length + 1 < rounds)
    {indexIter : σ₁} (hkept : kept .success)
    (hindex : L.index.BehavesWith good₁ (fun a k => cmp a.1 k = .lt) (blocks.map indexEntry)
      indexIter none) :
    (iterator L rounds).BehavesWith (Good good₁ good₂ kept) (fun a k => cmp a.1 k = .lt)
      (concat blocks) (new L indexIter) none := by
  refine Iterator.behavesWith_of_refines (R := PosAt L cmp blocks good₁ good₂ kept) ?_ ?_ ?_ ?_
  · intro s pos op pos' hat hop
    exact step_at hserves hsep hrounds hat hop
  · intro s pos hat
    exact hat.entry_eq
  · intro s pos hat
    exact hat.good
  · exact ⟨rfl, none, hkept, IteratorWrapper.standsAt_update hindex, fun w hw => by cases hw⟩

/-- **Blocks in a row.** With index values that tell the blocks apart, the iterator has the entries
of all blocks, and its loops end. -/
theorem iterator_behaves [Std.TransCmp cmp] {rounds : ℕ} (hrounds : blocks.length + 1 < rounds)
    (hdistinct : blocks.Pairwise fun e e' => e.handle ≠ e'.handle) (hsep : Separated cmp blocks)
    {indexIter : σ₁}
    (hindex : L.index.Behaves (fun a k => cmp a.1 k = .lt) (blocks.map indexEntry) indexIter none)
    (hopens : ∀ e ∈ blocks, ∃ s, L.blockFunction e.handle = some s ∧
      L.data.Behaves (fun a k => cmp a.1 k = .lt) e.entries s none) :
    (iterator L rounds).Behaves (fun a k => cmp a.1 k = .lt) (concat blocks) (new L indexIter)
      none := by
  have hserves : Serves L cmp blocks (fun _ => True) (fun _ => True) := by
    refine ⟨hopens, fun e he e' he' heq => ?_, fun _ _ _ _ => trivial⟩
    have hne : ∀ x ∈ blocks, ∀ y ∈ blocks, x.handle = y.handle → x.entries = y.entries := by
      refine List.Pairwise.forall_of_forall_of_flip
        (R := fun x y : IndexedBlock κ ν => x.handle = y.handle → x.entries = y.entries)
        (fun _ _ _ => rfl) (hdistinct.imp ?_) (hdistinct.imp ?_)
      · intro x y hne heq
        exact absurd heq hne
      · intro x y hne heq
        exact absurd heq.symm hne
    exact hne e he e' he' heq
  exact (twoLevel_behaves hserves hsep hrounds trivial hindex).imp fun _ _ => trivial

/-- Lists as the two levels: the blocks that are there, with cursors on them. -/
def listLevels (cmp : κ → κ → Ordering) (blocks : List (IndexedBlock κ ν)) :
    Levels (List (κ × Bytes) × Option ℕ) (List (κ × ν) × Option ℕ) κ ν where
  index := .ofList fun a k => cmp a.1 k = .lt
  indexStatus := fun _ => .success
  data := .ofList fun a k => cmp a.1 k = .lt
  dataStatus := fun _ => .success
  blockFunction := fun handle =>
    (blocks.find? fun e => e.handle = handle).map fun e => (e.entries, none)

/-- Three blocks, of which the second is empty. -/
theorem iterator_behaves_three :
    let blocks : List (IndexedBlock ℕ ℕ) :=
      [⟨3, [0], [(1, 10), (3, 30)]⟩, ⟨5, [1], []⟩, ⟨9, [2], [(7, 70)]⟩]
    (iterator (listLevels compare blocks) 5).Behaves (fun a k => compare a.1 k = .lt)
      [(1, 10), (3, 30), (7, 70)]
      (new (listLevels compare blocks) (blocks.map indexEntry, none)) none := by
  intro blocks
  refine iterator_behaves (L := listLevels compare blocks) (show blocks.length + 1 < 5 by decide)
    (by simp [blocks]) ⟨by decide, by decide⟩ (Iterator.behaves_ofList _ _ _) ?_
  intro e he
  simp only [blocks, List.mem_cons, List.not_mem_nil, or_false] at he
  rcases he with rfl | rfl | rfl
  · exact ⟨_, rfl, Iterator.behaves_ofList _ _ _⟩
  · exact ⟨_, rfl, Iterator.behaves_ofList _ _ _⟩
  · exact ⟨_, rfl, Iterator.behaves_ofList _ _ _⟩

end TwoLevelIterator

end Squirrel
