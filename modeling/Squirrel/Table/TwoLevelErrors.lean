import Squirrel.Table.TwoLevelIterator

/-!
# Blocks that cannot be read

Where the block function cannot read a block, it returns an error iterator, which has no entries and
a status that is not OK. A two-level iterator passes over such a block as it does over an empty one,
so all that is left of the error is the status. It must not get lost when the data iterator is
replaced.

To say that a block has been opened, the block function is taken away for the unreadable ones
(`Levels.without`). Until one of them is asked for, nothing changes; then the restricted iterator
returns nothing. `Watched` compares the two: what an operation does with all blocks, it does with
the readable ones, or there is an error in the end, and an error never goes away.

Index keys play no part here, so `Seek` may end up anywhere. But it ends up at some position, and
scans need no more than that.

## Main results

* `TwoLevelIterator.scan_errors` — scans have all readable entries, and the status tells the rest
-/

namespace Squirrel

open Cursor

variable {σ₁ σ₂ κ ν : Type}

/-- The levels without the blocks that cannot be read. -/
def Levels.without (L : Levels σ₁ σ₂ κ ν) (unreadable : Bytes → Bool) : Levels σ₁ σ₂ κ ν :=
  { L with blockFunction := fun handle => if unreadable handle then none
    else L.blockFunction handle }

namespace TwoLevelIterator

open IndexedBlock

variable {L : Levels σ₁ σ₂ κ ν} {before : κ × ν → κ → Bool} {unreadable : Bytes → Bool}
  {t t' : TwoLevelIterator σ₁ σ₂ κ}

/-! ### Errors stay -/

variable (L before) in
/-- An error iterator: no entries, and a status that is not OK. -/
def Fails (s : σ₂) : Prop :=
  L.data.BehavesWith (fun s => (L.dataStatus s).ok = false) before [] s none

variable (L before) in
/-- There is an error, saved or in the data iterator. -/
def Tainted (t : TwoLevelIterator σ₁ σ₂ κ) : Prop :=
  t.savedError.ok = false ∨ ∃ w, t.dataIter = some w ∧ w.key = none ∧ Fails L before w.iter

theorem Tainted.status_ne (h : Tainted L before t) : (status L t).ok = false := by
  rw [status]
  split
  · assumption
  rcases h with hsaved | ⟨w, hw, -, hfails⟩
  · split
    · split
      · assumption
      · exact hsaved
    · exact hsaved
  · have hbad := hfails.good_self
    rw [hw]
    dsimp only
    rw [if_pos hbad]
    exact hbad

theorem saveError_of_old {old : Status} (h : old.ok = false) (s : Status) :
    (saveError old s).ok = false := by
  rw [saveError, if_neg fun hand => by rw [h] at hand; cases hand.1]
  exact h

theorem saveError_of_new (old : Status) {s : Status} (h : s.ok = false) :
    (saveError old s).ok = false := by
  rw [saveError]
  split
  · exact h
  · next hnot =>
    by_contra hok
    exact hnot ⟨Bool.eq_true_of_not_eq_false hok, h⟩

/-- An error is saved when its iterator is replaced. -/
theorem Tainted.setDataIterator (h : Tainted L before t) (dataIter : Option σ₂) :
    Tainted L before (t.setDataIterator L dataIter) := by
  left
  rcases h with hsaved | ⟨w, hw, -, hfails⟩
  · rw [TwoLevelIterator.setDataIterator]
    dsimp only
    split
    · exact saveError_of_old hsaved _
    · exact hsaved
  · rw [TwoLevelIterator.setDataIterator, hw]
    exact saveError_of_new _ hfails.good_self

/-! ### With and without the unreadable blocks -/

variable (L before) in
/-- What `f` does, `f'` does too unless there is an error in the end; and an error does not go
away. -/
def Watched (f f' : TwoLevelIterator σ₁ σ₂ κ → Option (TwoLevelIterator σ₁ σ₂ κ)) : Prop :=
  ∀ t t', f t = some t' →
    (f' t = some t' ∨ Tainted L before t') ∧ (Tainted L before t → Tainted L before t')

theorem watched_some : Watched L before some some := by
  rintro t _ ⟨⟩
  exact ⟨.inl rfl, id⟩

theorem Watched.bind {f f' g g' : TwoLevelIterator σ₁ σ₂ κ → Option (TwoLevelIterator σ₁ σ₂ κ)}
    (hf : Watched L before f f') (hg : Watched L before g g') :
    Watched L before (fun t => (f t).bind g) (fun t => (f' t).bind g') := by
  intro t t₂ h
  obtain ⟨t₁, h₁, h₂⟩ := Option.bind_eq_some_iff.mp h
  obtain ⟨hsame₁, hkeep₁⟩ := hf t t₁ h₁
  obtain ⟨hsame₂, hkeep₂⟩ := hg t₁ t₂ h₂
  refine ⟨?_, fun ht => hkeep₂ (hkeep₁ ht)⟩
  rcases hsame₁ with hsame₁ | hbad
  · dsimp only
    rw [hsame₁, Option.bind_some]
    exact hsame₂
  · exact .inr (hkeep₂ hbad)

theorem watched_moveIndex (op : Op κ) :
    Watched L before (moveIndex L op) (moveIndex (L.without unreadable) op) := by
  intro t t' h
  refine ⟨.inl h, fun hbad => ?_⟩
  obtain ⟨w, -, rfl⟩ := Option.map_eq_some_iff.mp h
  exact hbad

/-- The seeks, which error iterators ignore. -/
theorem watched_moveData {op : Op κ}
    (hop : Cursor.step before ([] : List (κ × ν)) none op = some none) :
    Watched L before (moveData L op) (moveData (L.without unreadable) op) := by
  intro t t' h
  refine ⟨.inl h, fun hbad => ?_⟩
  rw [moveData] at h
  cases hdata : t.dataIter with
  | none =>
    rw [hdata] at h
    cases h
    exact hbad
  | some w =>
    rw [hdata] at h
    obtain ⟨w', hw', rfl⟩ := Option.map_eq_some_iff.mp h
    refine hbad.imp_right fun hwatched => ?_
    obtain ⟨w₁, hw₁, hkey, hfails⟩ := hwatched
    obtain rfl : w₁ = w := Option.some.inj (hw₁.symm.trans hdata)
    obtain ⟨s, hs, hfails'⟩ := Iterator.BehavesWith.step hfails hop
    rw [IteratorWrapper.step, hs] at hw'
    cases hw'
    refine ⟨_, rfl, ?_, hfails'⟩
    rw [IteratorWrapper.update, hfails'.entry_eq]
    rfl

/-- `Next` and `Prev` of the data iterator, which is valid and so no error iterator. -/
theorem watched_moveData_valid (op : Op κ) :
    Watched L before (fun t => if t.valid then t.moveData L op else none)
      (fun t => if t.valid then t.moveData (L.without unreadable) op else none) := by
  intro t t' h
  refine ⟨.inl h, fun hbad => ?_⟩
  dsimp only at h
  split at h
  · next hvalid =>
    rcases hbad with hsaved | ⟨w, hw, hkey, -⟩
    · left
      rw [moveData] at h
      split at h
      · cases h
        exact hsaved
      · obtain ⟨w, -, rfl⟩ := Option.map_eq_some_iff.mp h
        exact hsaved
    · rw [valid, hw, Option.bind_some, hkey] at hvalid
      cases hvalid
  · cases h

variable (L before unreadable) in
/-- What the block function returns for the unreadable blocks are error iterators. -/
def ErrorsFail : Prop :=
  ∀ handle s, unreadable handle = true → L.blockFunction handle = some s → Fails L before s

theorem watched_initDataBlock (hfail : ErrorsFail L before unreadable) :
    Watched L before (initDataBlock L) (initDataBlock (L.without unreadable)) := by
  intro t t' h
  rw [initDataBlock] at h ⊢
  cases hkey : t.indexIter.key with
  | none =>
    rw [hkey] at h
    cases h
    exact ⟨.inl rfl, fun hbad => hbad.setDataIterator none⟩
  | some k =>
    rw [hkey] at h
    obtain ⟨handle, hvalue, h⟩ := Option.bind_eq_some_iff.mp h
    have hvalue' : t.indexIter.value (L.without unreadable).index = some handle := hvalue
    simp only [hvalue', Option.bind_eq_bind, Option.bind_some]
    split at h
    · next hopen =>
      cases h
      rw [if_pos hopen]
      exact ⟨.inl rfl, id⟩
    · next hopen =>
      rw [if_neg hopen]
      obtain ⟨iter, hiter, h⟩ := Option.bind_eq_some_iff.mp h
      cases h
      refine ⟨?_, fun hbad => Tainted.setDataIterator hbad _⟩
      cases hun : unreadable handle with
      | true =>
        right
        have hfails := hfail handle iter hun hiter
        refine .inr ⟨_, rfl, ?_, hfails⟩
        rw [IteratorWrapper.update, hfails.entry_eq]
        rfl
      | false =>
        left
        have hiter' : (L.without unreadable).blockFunction handle = some iter := by
          simp only [Levels.without, hun, hiter, Bool.false_eq_true, if_false]
        rw [hiter']
        rfl

theorem watched_moveBoth (hfail : ErrorsFail L before unreadable) (indexOp : Op κ) {dataOp : Op κ}
    (hop : Cursor.step before ([] : List (κ × ν)) none dataOp = some none) :
    Watched L before (moveBoth L indexOp dataOp) (moveBoth (L.without unreadable) indexOp dataOp) :=
  (watched_moveIndex indexOp).bind ((watched_initDataBlock hfail).bind (watched_moveData hop))

theorem watched_skipEmptyDataBlocks (hfail : ErrorsFail L before unreadable) (indexOp : Op κ)
    {dataOp : Op κ} (hop : Cursor.step before ([] : List (κ × ν)) none dataOp = some none)
    (rounds : ℕ) :
    Watched L before (skipEmptyDataBlocks L indexOp dataOp rounds)
      (skipEmptyDataBlocks (L.without unreadable) indexOp dataOp rounds) := by
  induction rounds with
  | zero => exact fun t t' h => by cases h
  | succ rounds ih =>
    intro t t' h
    rw [skipEmptyDataBlocks] at h ⊢
    split at h
    · next hvalid =>
      cases h
      rw [if_pos hvalid]
      exact ⟨.inl rfl, id⟩
    · next hvalid =>
      rw [if_neg hvalid]
      cases hkey : t.indexIter.key with
      | none =>
        rw [hkey] at h
        cases h
        exact ⟨.inl rfl, fun hbad => hbad.setDataIterator none⟩
      | some k =>
        rw [hkey] at h
        exact ((watched_moveBoth hfail indexOp hop).bind ih) t t' h

/-- All operations. -/
theorem watched_step (hfail : ErrorsFail L before unreadable) (rounds : ℕ) (op : Op κ) :
    Watched L before (fun t => (iterator L rounds).step t op)
      (fun t => (iterator (L.without unreadable) rounds).step t op) := by
  cases op with
  | seek target =>
    exact (watched_moveBoth hfail _ rfl).bind (watched_skipEmptyDataBlocks hfail _ rfl rounds)
  | seekToFirst =>
    exact (watched_moveBoth hfail _ rfl).bind (watched_skipEmptyDataBlocks hfail _ rfl rounds)
  | seekToLast =>
    exact (watched_moveBoth hfail _ rfl).bind (watched_skipEmptyDataBlocks hfail _ rfl rounds)
  | next =>
    have heq : ∀ L' : Levels σ₁ σ₂ κ ν, next L' rounds = fun t =>
        (if t.valid then t.moveData L' .next else none).bind
          (skipEmptyDataBlocksForward L' rounds) := by
      intro L'
      funext t
      rw [next]
      split <;> rfl
    change Watched L before (next L rounds) (next (L.without unreadable) rounds)
    rw [heq, heq]
    exact (watched_moveData_valid .next).bind (watched_skipEmptyDataBlocks hfail _ rfl rounds)
  | prev =>
    have heq : ∀ L' : Levels σ₁ σ₂ κ ν, prev L' rounds = fun t =>
        (if t.valid then t.moveData L' .prev else none).bind
          (skipEmptyDataBlocksBackward L' rounds) := by
      intro L'
      funext t
      rw [prev]
      split <;> rfl
    change Watched L before (prev L rounds) (prev (L.without unreadable) rounds)
    rw [heq, heq]
    exact (watched_moveData_valid .prev).bind (watched_skipEmptyDataBlocks hfail _ rfl rounds)

/-- All sequences of operations. -/
theorem watched_run (hfail : ErrorsFail L before unreadable) (rounds : ℕ) (ops : List (Op κ)) :
    Watched L before (fun t => Cursor.run (iterator L rounds).step t ops)
      (fun t => Cursor.run (iterator (L.without unreadable) rounds).step t ops) := by
  induction ops with
  | nil => exact watched_some
  | cons op ops ih => exact (watched_step hfail rounds op).bind ih

/-! ### Scans -/

section

variable {cmp : κ → κ → Ordering} {blocks : List (IndexedBlock κ ν)} {good₁ : σ₁ → Prop}
  {good₂ : σ₂ → Prop} {kept : Status → Prop} {pos : Option ℕ} {rounds : ℕ}

/-- `Seek` goes to some position, whatever the index keys are. -/
theorem Between.seek_any (hserves : Serves L cmp blocks good₂ kept) {q : Option ℕ}
    (h : Between L cmp blocks good₁ good₂ kept t q) (hrounds : blocks.length + 1 < rounds)
    (target : κ) :
    ∃ t' pos, t.seek L rounds target = some t' ∧ PosAt L cmp blocks good₁ good₂ kept t' pos := by
  obtain ⟨j, hj⟩ : ∃ j, j = blocks.findIdx fun e => !decide (cmp e.separator target = .lt) :=
    ⟨_, rfl⟩
  have hop : Cursor.step (fun a k => cmp a.1 k = .lt) (blocks.map indexEntry) q (.seek target)
      = some (place (blocks.map indexEntry) j) := by
    rw [Cursor.step, List.findIdx_map, hj]
    rfl
  cases he : blocks[j]? with
  | none =>
    obtain ⟨t', ht', hat⟩ := h.seekForward hserves (.seek target) hrounds hop
      (fun e he' => by cases he.symm.trans he') fun _ => Nat.le_refl _
    exact ⟨t', _, ht', hat⟩
  | some e =>
    obtain ⟨t', ht', hat⟩ := h.seekForward hserves (.seek target) hrounds hop
      (p := start blocks j + e.entries.findIdx fun a => !decide (cmp a.1 target = .lt))
      (fun e' he' => by
        obtain rfl : e' = e := Option.some.inj (he'.symm.trans he)
        exact ⟨_, List.findIdx_le_length, rfl, fun _ => rfl⟩)
      fun hge => absurd (List.getElem?_eq_some_iff.mp he).1 (Nat.not_lt.mpr hge)
    exact ⟨t', _, ht', hat⟩

/-- Every operation that is allowed leads to some position. -/
theorem PosAt.step_any (hserves : Serves L cmp blocks good₂ kept)
    (h : PosAt L cmp blocks good₁ good₂ kept t pos) (hrounds : blocks.length + 1 < rounds)
    {op : Op κ} (hvalid : op = .next ∨ op = .prev → t.valid = true) :
    ∃ t' pos', (iterator L rounds).step t op = some t' ∧
      PosAt L cmp blocks good₁ good₂ kept t' pos' := by
  obtain ⟨q, hbetween⟩ := h.between
  have hsome : t.valid = true → ∃ p, pos = some p := by
    intro hv
    cases pos with
    | none =>
      rw [valid, h.1] at hv
      cases hv
    | some p => exact ⟨p, rfl⟩
  cases op with
  | seek target => exact hbetween.seek_any hserves hrounds target
  | seekToFirst =>
    obtain ⟨t', ht', hat⟩ := hbetween.seekToFirst_at hserves hrounds
    exact ⟨t', _, ht', hat⟩
  | seekToLast =>
    obtain ⟨t', ht', hat⟩ := hbetween.seekToLast_at hserves hrounds
    exact ⟨t', _, ht', hat⟩
  | next =>
    obtain ⟨p, rfl⟩ := hsome (hvalid (.inl rfl))
    obtain ⟨t', ht', hat⟩ := h.next_at hserves hrounds
    exact ⟨t', _, ht', hat⟩
  | prev =>
    obtain ⟨p, rfl⟩ := hsome (hvalid (.inr rfl))
    obtain ⟨t', ht', hat⟩ := h.prev_at hserves hrounds
    exact ⟨t', _, ht', hat⟩

/-- `Next` and `Prev` only succeed where they are allowed. -/
theorem valid_of_step {op : Op κ} (h : (iterator L rounds).step t op = some t') :
    op = .next ∨ op = .prev → t.valid = true := by
  rintro (rfl | rfl)
  · by_contra hinvalid
    have hnone : next L rounds t = none := if_neg hinvalid
    cases hnone.symm.trans h
  · by_contra hinvalid
    have hnone : prev L rounds t = none := if_neg hinvalid
    cases hnone.symm.trans h

/-- Whatever has been done, the iterator is at some position. -/
theorem PosAt.run_any (hserves : Serves L cmp blocks good₂ kept)
    (hrounds : blocks.length + 1 < rounds) {ops : List (Op κ)}
    (h : PosAt L cmp blocks good₁ good₂ kept t pos)
    (hrun : Cursor.run (iterator L rounds).step t ops = some t') :
    ∃ pos', PosAt L cmp blocks good₁ good₂ kept t' pos' := by
  induction ops generalizing t pos with
  | nil =>
    cases hrun
    exact ⟨pos, h⟩
  | cons op ops ih =>
    rw [Cursor.run_cons, Option.bind_eq_some_iff] at hrun
    obtain ⟨t₁, ht₁, hrun⟩ := hrun
    obtain ⟨t₂, pos₂, ht₂, hat⟩ := h.step_any hserves hrounds (valid_of_step ht₁)
    obtain rfl := Option.some.inj (ht₂.symm.trans ht₁)
    exact ih hat hrun

/-- Scans, from any position. -/
theorem PosAt.scan (hserves : Serves L cmp blocks good₂ kept)
    (h : PosAt L cmp blocks good₁ good₂ kept t pos) (hrounds : blocks.length + 1 < rounds)
    {fuel : ℕ} (hfuel : (concat blocks).length < fuel) :
    (iterator L rounds).scanForward fuel t = some (concat blocks) ∧
      (iterator L rounds).scanBackward fuel t = some (concat blocks).reverse := by
  obtain ⟨q, hbetween⟩ := h.between
  constructor
  · obtain ⟨t', ht', hat⟩ := hbetween.seekToFirst_at hserves hrounds
    have hstep : (iterator L rounds).step t .seekToFirst = some t' := ht'
    rw [Iterator.scanForward, hstep, Option.bind_some]
    exact Iterator.collect_next (R := PosAt L cmp blocks good₁ good₂ kept)
      (fun s i hs => hs.next_at hserves hrounds) (fun s pos hs => hs.entry_eq) hat (by omega)
  · obtain ⟨t', ht', hat⟩ := hbetween.seekToLast_at hserves hrounds
    have hstep : (iterator L rounds).step t .seekToLast = some t' := ht'
    rw [place_length_sub_one] at hat
    rw [Iterator.scanBackward, hstep, Option.bind_some,
      Iterator.collect_prev (R := PosAt L cmp blocks good₁ good₂ kept)
        (fun s i hs => hs.prev_at hserves hrounds) (fun s pos hs => hs.entry_eq) hat
        (Nat.le_refl _) hfuel, List.take_length]

end

/-- The block as the iterator sees it: without entries, if it cannot be read. -/
def seen (unreadable : Bytes → Bool) (e : IndexedBlock κ ν) : IndexedBlock κ ν :=
  if unreadable e.handle then { e with entries := [] } else e

/-- The entries that can be read. -/
def readableEntries (unreadable : Bytes → Bool) (blocks : List (IndexedBlock κ ν)) : List (κ × ν) :=
  concat (blocks.filter fun e => !unreadable e.handle)

theorem seen_of_readable {e : IndexedBlock κ ν} (h : unreadable e.handle = false) :
    seen unreadable e = e := by
  rw [seen, h]
  rfl

theorem seen_of_unreadable {e : IndexedBlock κ ν} (h : unreadable e.handle = true) :
    seen unreadable e = { e with entries := [] } := by
  rw [seen, h]
  rfl

theorem handle_seen (e : IndexedBlock κ ν) : (seen unreadable e).handle = e.handle := by
  rw [seen]
  split <;> rfl

theorem indexEntry_seen (blocks : List (IndexedBlock κ ν)) :
    (blocks.map (seen unreadable)).map indexEntry = blocks.map indexEntry := by
  rw [List.map_map]
  refine List.map_congr_left fun e _ => ?_
  rw [Function.comp_apply, seen]
  split <;> rfl

theorem concat_seen (blocks : List (IndexedBlock κ ν)) :
    concat (blocks.map (seen unreadable)) = readableEntries unreadable blocks := by
  induction blocks with
  | nil => rfl
  | cons e blocks ih =>
    rw [readableEntries, concat] at ih ⊢
    rw [concat, List.map_cons, List.map_cons, List.flatten_cons, ih]
    cases hun : unreadable e.handle with
    | true =>
      rw [seen_of_unreadable hun, List.filter_cons_of_neg (by simp [hun])]
      rfl
    | false =>
      rw [seen_of_readable hun, List.filter_cons_of_pos (by simp [hun])]
      rfl

/-- **Unreadable blocks are never passed over in silence.** Whatever has been done: every operation
can be done, scans have all entries of the readable blocks, and if an unreadable block has been
opened, the status is not OK. -/
theorem scan_errors {cmp : κ → κ → Ordering} {blocks : List (IndexedBlock κ ν)} {rounds : ℕ}
    (hrounds : blocks.length + 1 < rounds) {indexIter : σ₁}
    (hindex : L.index.Behaves (fun a k => cmp a.1 k = .lt) (blocks.map indexEntry) indexIter none)
    (hreads : ∀ e ∈ blocks, unreadable e.handle = false →
      ∃ s, L.blockFunction e.handle = some s ∧
        L.data.Behaves (fun a k => cmp a.1 k = .lt) e.entries s none)
    (hfails : ∀ handle, unreadable handle = true →
      ∃ s, L.blockFunction handle = some s ∧ Fails L (fun a k => cmp a.1 k = .lt) s)
    (hfunction : ∀ e ∈ blocks, ∀ e' ∈ blocks, e.handle = e'.handle → e.entries = e'.entries)
    {ops : List (Op κ)}
    (hrun : Cursor.run (iterator L rounds).step (new L indexIter) ops = some t) :
    (∀ op, (op = .next ∨ op = .prev → t.valid = true) →
      ∃ t', (iterator L rounds).step t op = some t') ∧
    (∀ fuel, (readableEntries unreadable blocks).length < fuel →
      (iterator L rounds).scanForward fuel t = some (readableEntries unreadable blocks) ∧
        (iterator L rounds).scanBackward fuel t
          = some (readableEntries unreadable blocks).reverse) ∧
    (Cursor.run (iterator (L.without unreadable) rounds).step (new L indexIter) ops = none →
      (status L t).ok = false) := by
  have hserves : Serves L cmp (blocks.map (seen unreadable)) (fun _ => True) (fun _ => True) := by
    refine ⟨?_, ?_, fun _ _ _ _ => trivial⟩
    · intro e' he'
      obtain ⟨e, he, rfl⟩ := List.mem_map.mp he'
      rw [handle_seen]
      cases hun : unreadable e.handle with
      | true =>
        obtain ⟨s, hs, hfails⟩ := hfails e.handle hun
        rw [seen_of_unreadable hun]
        exact ⟨s, hs, hfails.imp fun _ _ => trivial⟩
      | false =>
        rw [seen_of_readable hun]
        exact hreads e he hun
    · intro x hx y hy heq
      obtain ⟨e, he, rfl⟩ := List.mem_map.mp hx
      obtain ⟨e', he', rfl⟩ := List.mem_map.mp hy
      rw [handle_seen, handle_seen] at heq
      rw [seen, seen, heq]
      split
      · rfl
      · exact hfunction e he e' he' heq
  have hstart : PosAt L cmp (blocks.map (seen unreadable)) (fun _ => True) (fun _ => True)
      (fun _ => True) (new L indexIter) none := by
    refine ⟨rfl, none, trivial, ?_, fun w hw => by cases hw⟩
    rw [indexEntry_seen]
    exact IteratorWrapper.standsAt_update hindex
  have hrounds' : (blocks.map (seen unreadable)).length + 1 < rounds := by
    rw [List.length_map]
    exact hrounds
  obtain ⟨pos, hat⟩ := hstart.run_any hserves hrounds' hrun
  refine ⟨fun op hop => ?_, fun fuel hfuel => ?_, fun hnone => ?_⟩
  · obtain ⟨t', -, ht', -⟩ := hat.step_any hserves hrounds' hop
    exact ⟨t', ht'⟩
  · rw [← concat_seen] at hfuel ⊢
    exact hat.scan hserves hrounds' hfuel
  · have hfail : ErrorsFail L (fun a k => cmp a.1 k = .lt) unreadable := by
      intro handle s hun hs
      obtain ⟨s', hs', hfails⟩ := hfails handle hun
      rw [Option.some.inj (hs.symm.trans hs')]
      exact hfails
    rcases (watched_run hfail rounds ops _ _ hrun).1 with hsame | hbad
    · cases hnone.symm.trans hsame
    · exact hbad.status_ne

/-- Lists as the two levels, where some blocks cannot be read. -/
def failingLevels (cmp : κ → κ → Ordering) (blocks : List (IndexedBlock κ ν))
    (unreadable : Bytes → Bool) :
    Levels (List (κ × Bytes) × Option ℕ) ((List (κ × ν) × Option ℕ) × Status) κ ν where
  index := .ofList fun a k => cmp a.1 k = .lt
  indexStatus := fun _ => .success
  data := {
    step := fun s op =>
      ((Iterator.ofList fun a k => cmp a.1 k = .lt).step s.1 op).map fun c => (c, s.2)
    entry := fun s => (Iterator.ofList fun a k => cmp a.1 k = .lt).entry s.1 }
  dataStatus := Prod.snd
  blockFunction := fun handle =>
    if unreadable handle then some (([], none), .corruption "bad block")
    else (blocks.find? fun e => e.handle = handle).map fun e => ((e.entries, none), .success)

theorem failingLevels_behaves (cmp : κ → κ → Ordering) (blocks : List (IndexedBlock κ ν))
    (unreadable : Bytes → Bool) (entries : List (κ × ν)) (s : Status) :
    (failingLevels cmp blocks unreadable).data.BehavesWith (fun c => c.2 = s)
      (fun a k => cmp a.1 k = .lt) entries ((entries, none), s) none := by
  refine Iterator.behavesWith_of_refines (R := fun c pos => c = ((entries, pos), s)) ?_ ?_ ?_ rfl
  · rintro _ pos op pos' rfl hop
    refine ⟨((entries, pos'), s), ?_, rfl⟩
    simp only [failingLevels, Iterator.ofList, hop, Option.map_some]
  · rintro _ pos rfl
    rfl
  · rintro _ pos rfl
    rfl

/-- The second of three blocks cannot be read, and a scan has gone past it. -/
theorem scan_errors_three :
    let blocks : List (IndexedBlock ℕ ℕ) :=
      [⟨3, [0], [(1, 10)]⟩, ⟨5, [1], [(4, 40)]⟩, ⟨9, [2], [(7, 70)]⟩]
    let L := failingLevels compare blocks fun handle => handle = [1]
    ∃ t, Cursor.run (iterator L 5).step (new L (blocks.map indexEntry, none)) [.seekToFirst, .next]
        = some t ∧
      (iterator L 5).scanForward 3 t = some [(1, 10), (7, 70)] ∧ (status L t).ok = false := by
  intro blocks L
  obtain ⟨t, hrun⟩ : ∃ t, Cursor.run (iterator L 5).step (new L (blocks.map indexEntry, none))
      [.seekToFirst, .next] = some t := ⟨_, rfl⟩
  have hindex : L.index.Behaves (fun a k => compare a.1 k = .lt) (blocks.map indexEntry)
      (blocks.map indexEntry, none) none := Iterator.behaves_ofList _ _ _
  have hreads : ∀ e ∈ blocks, decide (e.handle = [1]) = false →
      ∃ s, L.blockFunction e.handle = some s ∧
        L.data.Behaves (fun a k => compare a.1 k = .lt) e.entries s none := by
    intro e he hun
    simp only [blocks, List.mem_cons, List.not_mem_nil, or_false] at he
    rcases he with rfl | rfl | rfl
    · exact ⟨_, rfl, (failingLevels_behaves _ _ _ _ _).imp fun _ _ => trivial⟩
    · cases hun
    · exact ⟨_, rfl, (failingLevels_behaves _ _ _ _ _).imp fun _ _ => trivial⟩
  have hfails : ∀ handle, decide (handle = [1]) = true →
      ∃ s, L.blockFunction handle = some s ∧ Fails L (fun a k => compare a.1 k = .lt) s := by
    intro handle hun
    refine ⟨(([], none), .corruption "bad block"), if_pos hun, ?_⟩
    refine (failingLevels_behaves _ _ _ _ _).imp fun c hc => ?_
    change c.2.ok = false
    rw [hc]
    rfl
  obtain ⟨-, hscan, hstatus⟩ :=
    scan_errors (show blocks.length + 1 < 5 by decide) hindex hreads hfails (by decide) hrun
  exact ⟨t, hrun, (hscan 3 (by decide)).1, hstatus rfl⟩

end TwoLevelIterator

end Squirrel
