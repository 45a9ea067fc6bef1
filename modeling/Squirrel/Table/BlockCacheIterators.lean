import Squirrel.Table.BlockOwnership

/-!
# Iterators over tables in memory

An iterator over a table does in memory what it does without. Seen without the memory (`plain`), the
state is that of the iterators in `Table`; the memory adds that blocks come from the cache, and that
the data iterators that are given up are deleted. The proofs go through the operations of the
two-level iterator one by one.

If there is a cache, the index iterator of the table has to be a cursor on entries whose values
stand for blocks that can be read. Without a cache nothing has to be known of the table.

## Main results

* `CachedTable.move_simulates`, `CachedTable.shown_eq`, `CachedTable.deleteIterator_eq` — iterators
* `CachedTable.internalGet_simulates` — lookups
-/

namespace Squirrel

open Coding Block Cursor

namespace CachedTable

/-- The iterator without the memory. -/
def plain (it : Iter) : TwoLevelIterator AnyIter AnyIter Bytes :=
  ⟨it.savedError, it.indexIter, it.dataIter.map fun w => ⟨w.iter.iter, w.key⟩, it.dataBlockHandle⟩

/-- The iterators over blocks that it has. -/
def dataIters (it : Iter) : List DataIter := it.dataIter.toList.map IteratorWrapper.iter

section

variable (sn : Snappy) (junk : ℕ → UInt8) (verify : Bool) (t : CachedTable) (it : Iter)

theorem length_dataIters_le : (dataIters it).length ≤ 1 := by
  rw [dataIters, List.length_map]
  exact Option.length_toList_le

theorem valid_plain : (plain it).valid = it.valid := by
  rw [TwoLevelIterator.valid, TwoLevelIterator.valid, plain]
  cases it.dataIter <;> rfl

theorem entry_plain : (plain it).entry (t.table.levels sn junk verify) = it.entry t.levels := by
  rw [TwoLevelIterator.entry, TwoLevelIterator.entry, plain]
  cases it.dataIter <;> rfl

theorem status_plain : (plain it).status (t.table.levels sn junk verify) = it.status t.levels := by
  rw [TwoLevelIterator.status, TwoLevelIterator.status, plain]
  cases it.dataIter <;> rfl

theorem setDataIterator_plain (dataIter : Option DataIter) :
    (plain it).setDataIterator (t.table.levels sn junk verify) (dataIter.map DataIter.iter)
      = plain (it.setDataIterator t.levels dataIter) := by
  rw [TwoLevelIterator.setDataIterator, TwoLevelIterator.setDataIterator, plain, plain]
  cases it.dataIter <;> cases dataIter <;> rfl

theorem moveIndex_plain (op : Op Bytes) :
    (plain it).moveIndex (t.table.levels sn junk verify) op
      = (it.moveIndex t.levels op).map plain := by
  rw [TwoLevelIterator.moveIndex, TwoLevelIterator.moveIndex, Option.map_map]
  rfl

theorem moveData_plain (op : Op Bytes) :
    (plain it).moveData (t.table.levels sn junk verify) op
      = (it.moveData t.levels op).map plain := by
  obtain ⟨s, index, dataIter, handle⟩ := it
  cases dataIter with
  | none => rfl
  | some w =>
    rw [TwoLevelIterator.moveData, TwoLevelIterator.moveData, plain]
    dsimp only [Option.map_some]
    rw [IteratorWrapper.step, IteratorWrapper.step]
    dsimp only [levels, Table.levels]
    cases (AnyIter.iterator t.table.options.comparator.compare).step w.iter.iter op <;> rfl

theorem dataIters_setDataIterator (dataIter : Option DataIter) :
    dataIters (it.setDataIterator t.levels dataIter) = dataIter.toList := by
  cases dataIter <;> rfl

end

/-- The index of the table is a cursor on the entries `l`, whose values stand for blocks. -/
structure Indexes (sn : Snappy) (junk : ℕ → UInt8) (g : Ledger) (t : CachedTable)
    (l : List (Bytes × Bytes)) : Prop where
  index : (AnyIter.iterator t.table.options.comparator.compare).Behaves
    (fun a k => t.table.options.comparator.compare a.1 k = .lt) l t.table.indexBlock.newIterator
      none
  serves : ∀ a ∈ l, t.Serves sn junk g a.2
  names : g.cached = true → ∀ k block block', g.Names k block → g.Names k block' → block = block'

/-- The iterator is `p` without the memory; the other iterators over blocks are `others`. If there
is a cache, the iterator stands at `pos` in the index. -/
structure At (g : Ledger) (t : CachedTable) (l : List (Bytes × Bytes)) (others : List DataIter)
    (pos : Option ℕ) (p : TwoLevelIterator AnyIter AnyIter Bytes) (r : Iter × BlockMemory) :
    Prop where
  plain_eq : p = plain r.1
  index_at : g.cached = true → r.1.indexIter.StandsAt t.levels.index (fun _ => True)
    (fun a k => t.table.options.comparator.compare a.1 k = .lt) l pos
  memory : ∃ order, r.2.Inv g order (dataIters r.1 ++ others)

/-- The iterator stands somewhere. -/
def Stands (g : Ledger) (t : CachedTable) (l : List (Bytes × Bytes)) (others : List DataIter)
    (p : TwoLevelIterator AnyIter AnyIter Bytes) (r : Iter × BlockMemory) : Prop :=
  ∃ pos, At g t l others pos p r

variable {sn : Snappy} {junk : ℕ → UInt8} {g : Ledger} {t : CachedTable} {l : List (Bytes × Bytes)}
  {others : List DataIter} {pos : Option ℕ} {p : TwoLevelIterator AnyIter AnyIter Bytes} {it : Iter}
  {m : BlockMemory} {options : ReadOptions}

/-- The old data iterator is deleted, and a new one may take its place. -/
theorem setDataIterator_at (sn : Snappy) (junk : ℕ → UInt8) (verify : Bool)
    {order : Fin kNumShards → List ℕ} (dataIter : Option DataIter)
    (hindex : g.cached = true → it.indexIter.StandsAt t.levels.index (fun _ => True)
      (fun a k => t.table.options.comparator.compare a.1 k = .lt) l pos)
    (hinv : m.Inv g order (dataIter.toList ++ (dataIters it ++ others))) :
    ∃ r, t.setDataIterator dataIter it m = .ok r ∧ At g t l others pos
      ((plain it).setDataIterator (t.table.levels sn junk verify) (dataIter.map DataIter.iter))
      r := by
  rw [setDataIterator_plain, setDataIterator]
  cases hdata : it.dataIter with
  | none =>
    rw [dataIters, hdata] at hinv
    refine ⟨_, rfl, rfl, hindex, order, ?_⟩
    rw [dataIters_setDataIterator]
    exact hinv
  | some w =>
    rw [dataIters, hdata] at hinv
    obtain ⟨m', hdelete, hinv'⟩ := (hinv.perm List.perm_middle).deleteIterator
    simp only [hdelete, bind, Except.bind]
    refine ⟨_, rfl, rfl, hindex, order, ?_⟩
    rw [dataIters_setDataIterator]
    exact hinv'

theorem initDataBlock_simulates (hi : g.cached = true → Indexes sn junk g t l)
    (hfew : g.cached = true → Holdable 2 others) (options : ReadOptions)
    (h : At g t l others pos p (it, m)) :
    Simulates g.Full (At g t l others pos)
      (p.initDataBlock (t.table.levels sn junk options.verifyChecksums))
      (t.initDataBlock sn junk options it m) := by
  obtain ⟨rfl, hindex, order, hinv⟩ := h
  dsimp only at hindex hinv ⊢
  rw [TwoLevelIterator.initDataBlock, initDataBlock, show (plain it).indexIter = it.indexIter
    from rfl]
  cases hkey : it.indexIter.key with
  | none =>
    obtain ⟨r, hset, hat⟩ := setDataIterator_at sn junk options.verifyChecksums none hindex hinv
    dsimp only
    rw [hset]
    exact Simulates.ok hat
  | some k =>
    have hopen : (plain it).dataIter.isSome = it.dataIter.isSome := Option.isSome_map ..
    refine Simulates.bind (simulates_defined (it.indexIter.value t.levels.index)) ?_
    rintro handle _ ⟨hvalue, rfl⟩
    simp only [hopen, show (plain it).dataBlockHandle = it.dataBlockHandle from rfl]
    split
    · exact Simulates.ok ⟨rfl, hindex, order, hinv⟩
    · have hserves : g.cached = true → t.Serves sn junk g handle := by
        intro hcached
        obtain ⟨i, a, -, ha, hvalue'⟩ := (hindex hcached).exists_of_key hkey
        obtain rfl : a.2 = handle := Option.some.inj (hvalue'.symm.trans hvalue)
        exact (hi hcached).serves a (List.mem_of_getElem? ha)
      have hholdable : g.cached = true → Holdable 1 (dataIters it ++ others) := fun hcached =>
        (hfew hcached).cons (length_dataIters_le it)
          fun d hd => hinv.owns d (List.mem_append_left _ hd)
      refine Simulates.bind (blockReader_simulates hinv (fun hcached => (hi hcached).names hcached)
        hholdable hserves options) ?_
      rintro _ ⟨d, m'⟩ ⟨rfl, order', hinv'⟩
      obtain ⟨r, hset, hat⟩ :
          ∃ r, t.setDataIterator (some d) { it with dataBlockHandle := handle } m' = .ok r ∧ _ :=
        setDataIterator_at sn junk options.verifyChecksums (some d) hindex hinv'
      dsimp only
      rw [hset]
      exact Simulates.ok hat

theorem moveData_simulates (sn : Snappy) (junk : ℕ → UInt8) (verify : Bool) (op : Op Bytes)
    (h : At g t l others pos p (it, m)) :
    Simulates g.Full (At g t l others pos) (p.moveData (t.table.levels sn junk verify) op)
      (t.moveData op it m) := by
  obtain ⟨rfl, hindex, order, hinv⟩ := h
  dsimp only at hindex hinv
  rw [moveData_plain, moveData, TwoLevelIterator.moveData]
  cases hdata : it.dataIter with
  | none => exact Simulates.ok ⟨rfl, hindex, order, hinv⟩
  | some w =>
    rw [dataIters, hdata] at hinv
    have haccess : m.access w.iter = .ok () := hinv.access_eq List.mem_cons_self
    simp only [haccess, bind, Except.bind, IteratorWrapper.step, levels]
    cases hstep : (AnyIter.iterator t.table.options.comparator.compare).step w.iter.iter op with
    | none => exact Or.inl rfl
    | some iter => exact Simulates.ok ⟨rfl, hindex, order, hinv.move iter⟩

theorem moveBoth_simulates (hi : g.cached = true → Indexes sn junk g t l)
    (hfew : g.cached = true → Holdable 2 others) (options : ReadOptions) {indexOp : Op Bytes}
    (dataOp : Op Bytes)
    (hop : g.cached = true → ∃ pos',
      Cursor.step (fun a k => t.table.options.comparator.compare a.1 k = .lt) l pos indexOp
        = some pos')
    (h : At g t l others pos p (it, m)) :
    Simulates g.Full (Stands g t l others)
      (p.moveBoth (t.table.levels sn junk options.verifyChecksums) indexOp dataOp)
      (t.moveBoth sn junk options indexOp dataOp it m) := by
  obtain ⟨rfl, hindex, order, hinv⟩ := h
  dsimp only at hindex hinv
  obtain ⟨pos', hpos'⟩ : ∃ pos', ∀ w, it.indexIter.step t.levels.index indexOp = some w →
      g.cached = true → w.StandsAt t.levels.index (fun _ => True)
        (fun a k => t.table.options.comparator.compare a.1 k = .lt) l pos' := by
    cases hcached : g.cached with
    | false => exact ⟨none, fun _ _ h => by cases h⟩
    | true =>
      obtain ⟨pos', hpos⟩ := hop hcached
      obtain ⟨w, hw, hat⟩ := (hindex hcached).step hpos
      refine ⟨pos', fun w' hw' _ => ?_⟩
      rwa [← Option.some.inj (hw.symm.trans hw')]
  rw [TwoLevelIterator.moveBoth, moveBoth, moveIndex_plain]
  have hfirst : Simulates g.Full (fun p it' => At g t l others pos' p (it', m))
      ((it.moveIndex t.levels indexOp).map plain) (defined (it.moveIndex t.levels indexOp)) := by
    rw [TwoLevelIterator.moveIndex]
    cases hw : it.indexIter.step t.levels.index indexOp with
    | none => exact Or.inl rfl
    | some w => exact Simulates.ok ⟨rfl, hpos' w hw, order, hinv⟩
  refine Simulates.bind hfirst fun p₁ it₁ h₁ => ?_
  refine Simulates.bind (initDataBlock_simulates hi hfew options h₁) ?_
  rintro p' ⟨it', m'⟩ h'
  exact (moveData_simulates sn junk options.verifyChecksums dataOp h').mono fun _ _ hr => ⟨pos', hr⟩

/-- **The loop.** The induction is on the rounds. -/
theorem skipEmptyDataBlocks_simulates (hi : g.cached = true → Indexes sn junk g t l)
    (hfew : g.cached = true → Holdable 2 others) (options : ReadOptions) (indexOp dataOp : Op Bytes)
    (rounds : ℕ) (h : Stands g t l others p (it, m)) :
    Simulates g.Full (Stands g t l others)
      (TwoLevelIterator.skipEmptyDataBlocks (t.table.levels sn junk options.verifyChecksums) indexOp
        dataOp rounds p)
      (t.skipEmptyDataBlocks sn junk options indexOp dataOp rounds it m) := by
  induction rounds generalizing p it m with
  | zero => exact Or.inl rfl
  | succ rounds ih =>
    obtain ⟨pos, hat⟩ := h
    obtain ⟨rfl, hindex, order, hinv⟩ := hat
    dsimp only at hindex hinv
    rw [TwoLevelIterator.skipEmptyDataBlocks, skipEmptyDataBlocks, valid_plain,
      show (plain it).indexIter = it.indexIter from rfl]
    split
    · exact Simulates.ok ⟨pos, rfl, hindex, order, hinv⟩
    · cases hkey : it.indexIter.key with
      | none =>
        obtain ⟨r, hset, hat⟩ := setDataIterator_at sn junk options.verifyChecksums none hindex hinv
        dsimp only
        rw [hset]
        exact Simulates.ok ⟨pos, hat⟩
      | some k =>
        -- at an entry every operation is allowed
        have hop : g.cached = true → ∃ pos', Cursor.step
            (fun a k => t.table.options.comparator.compare a.1 k = .lt) l pos indexOp
              = some pos' := by
          intro hcached
          obtain ⟨i, a, rfl, -, -⟩ := (hindex hcached).exists_of_key hkey
          cases indexOp <;> exact ⟨_, rfl⟩
        refine Simulates.bind (moveBoth_simulates hi hfew options dataOp hop
          ⟨rfl, hindex, order, hinv⟩) ?_
        rintro p' ⟨it', m'⟩ h'
        exact ih h'

/-- **The operations of an iterator.** -/
theorem move_simulates (hi : g.cached = true → Indexes sn junk g t l)
    (hfew : g.cached = true → Holdable 2 others) (options : ReadOptions) (op : Op Bytes)
    (h : Stands g t l others p (it, m)) :
    Simulates g.Full (Stands g t l others)
      ((t.table.iterator sn junk options.verifyChecksums).step p op)
      (t.move sn junk options op it m) := by
  obtain ⟨pos, hat⟩ := h
  have hvalid : p.valid = it.valid := by rw [hat.plain_eq, valid_plain]
  cases op with
  | seek target =>
    refine Simulates.bind (moveBoth_simulates hi hfew options (.seek target)
      (fun _ => ⟨_, rfl⟩) hat) ?_
    rintro p' ⟨it', m'⟩ h'
    exact skipEmptyDataBlocks_simulates hi hfew options .next .seekToFirst t.rounds h'
  | seekToFirst =>
    refine Simulates.bind (moveBoth_simulates hi hfew options .seekToFirst
      (fun _ => ⟨_, rfl⟩) hat) ?_
    rintro p' ⟨it', m'⟩ h'
    exact skipEmptyDataBlocks_simulates hi hfew options .next .seekToFirst t.rounds h'
  | seekToLast =>
    refine Simulates.bind (moveBoth_simulates hi hfew options .seekToLast
      (fun _ => ⟨_, rfl⟩) hat) ?_
    rintro p' ⟨it', m'⟩ h'
    exact skipEmptyDataBlocks_simulates hi hfew options .prev .seekToLast t.rounds h'
  | next =>
    change Simulates _ _ (if p.valid then _ else none) (if it.valid then _ else _)
    rw [hvalid]
    split
    · refine Simulates.bind (moveData_simulates sn junk options.verifyChecksums .next hat) ?_
      rintro p' ⟨it', m'⟩ h'
      exact skipEmptyDataBlocks_simulates hi hfew options .next .seekToFirst t.rounds ⟨pos, h'⟩
    · exact Or.inl rfl
  | prev =>
    change Simulates _ _ (if p.valid then _ else none) (if it.valid then _ else _)
    rw [hvalid]
    split
    · refine Simulates.bind (moveData_simulates sn junk options.verifyChecksums .prev hat) ?_
      rintro p' ⟨it', m'⟩ h'
      exact skipEmptyDataBlocks_simulates hi hfew options .prev .seekToLast t.rounds ⟨pos, h'⟩
    · exact Or.inl rfl

/-- What an iterator shows is there. -/
theorem shown_eq (sn : Snappy) (junk : ℕ → UInt8) (verify : Bool)
    (h : Stands g t l others p (it, m)) :
    t.shown it m = .ok (p.entry (t.table.levels sn junk verify),
      p.status (t.table.levels sn junk verify)) := by
  obtain ⟨pos, rfl, -, order, hinv⟩ := h
  dsimp only at hinv
  rw [entry_plain, status_plain, shown]
  cases hdata : it.dataIter with
  | none => rfl
  | some w =>
    rw [dataIters, hdata] at hinv
    have haccess : m.access w.iter = .ok () := hinv.access_eq List.mem_cons_self
    dsimp only
    rw [haccess]
    rfl

theorem deleteIterator_eq (h : Stands g t l others p (it, m)) :
    ∃ m' order, deleteIterator it m = .ok m' ∧ m'.Inv g order others := by
  obtain ⟨pos, rfl, -, order, hinv⟩ := h
  dsimp only at hinv
  rw [deleteIterator]
  cases hdata : it.dataIter with
  | none =>
    rw [dataIters, hdata] at hinv
    exact ⟨m, order, rfl, hinv⟩
  | some w =>
    rw [dataIters, hdata] at hinv
    obtain ⟨m', hdelete, hinv'⟩ := hinv.deleteIterator
    exact ⟨m', order, hdelete, hinv'⟩

/-- **`InternalGet`.** -/
theorem internalGet_simulates (hi : g.cached = true → Indexes sn junk g t l) {its : List DataIter}
    (hfew : g.cached = true → Holdable 1 its) (options : ReadOptions) (k : Bytes)
    {order : Fin kNumShards → List ℕ} (hinv : m.Inv g order its) :
    Simulates g.Full (fun x r => x = r.1 ∧ ∃ order, r.2.Inv g order its)
      (t.table.internalGet sn junk options.verifyChecksums k)
      (t.internalGet sn junk options k m) := by
  rw [Table.internalGet, internalGet]
  refine Simulates.bind (simulates_defined ((AnyIter.iterator
    t.table.options.comparator.compare).step t.table.indexBlock.newIterator (.seek k))) ?_
  rintro iiter _ ⟨hseek, rfl⟩
  cases hshown : iiter.entry with
  | none =>
    dsimp only
    exact Simulates.ok ⟨rfl, order, hinv⟩
  | some a =>
    obtain ⟨separator, handleValue⟩ := a
    have hserves : g.cached = true → t.Serves sn junk g handleValue := by
      intro hcached
      obtain ⟨iiter', hseek', hbehaves⟩ :=
        (hi hcached).index.step (show Cursor.step _ _ none (.seek k) = _ from rfl)
      have hentry := hbehaves.entry_eq
      rw [← Option.some.inj (hseek.symm.trans hseek')] at hentry
      obtain ⟨i, -, hi'⟩ := Option.bind_eq_some_iff.mp (hentry.symm.trans hshown)
      exact (hi hcached).serves _ (List.mem_of_getElem? hi')
    dsimp only
    split
    · exact Simulates.ok ⟨rfl, order, hinv⟩
    · refine Simulates.bind (blockReader_simulates hinv (fun hcached => (hi hcached).names hcached)
        hfew hserves options) ?_
      rintro _ ⟨it, m'⟩ ⟨rfl, order', hinv'⟩
      dsimp only
      rw [hinv'.access_eq List.mem_cons_self]
      dsimp only [levels]
      have hstep : (AnyIter.iterator t.table.options.comparator.compare).step it.iter (.seek k)
        = it.iter.step t.table.options.comparator.compare decodeEntry (.seek k) := rfl
      rw [hstep]
      cases it.iter.step t.table.options.comparator.compare decodeEntry (.seek k) with
      | none => exact Or.inl rfl
      | some iter =>
        obtain ⟨m'', hdelete, hinv''⟩ := (hinv'.move iter).deleteIterator
        dsimp only at hdelete
        simp only [defined, bind, Except.bind, Option.map_some, Option.bind_some, hdelete]
        exact Simulates.ok ⟨rfl, order', hinv''⟩

end CachedTable

end Squirrel
