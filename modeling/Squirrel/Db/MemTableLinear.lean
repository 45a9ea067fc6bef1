import Squirrel.Db.MemTableIterator
import Squirrel.Db.SkipListLinear

/-!
# Reading a memtable while it is written

`Add` by one thread beside `Get` and the operations of iterators by any number of others. Each of
these makes one call of the skip list, and then looks at the bytes of the entry that it has got,
which never change. So they are clients of the skip list (`System.wrap`), and as that is
linearizable, so are they.

A reader names the iterator that it uses; `Get` constructs one of its own. What a snapshot sees does
not depend on writes with larger sequence numbers, so such writes do not disturb its reads, whatever
they are doing at the moment.

## Main definitions

* `MemTable.concurrent` — the system
* `MemTable.Perform` — what a memtable is for

## Main results

* `MemTable.concurrent_linearizable` — every history
* `MemTable.snapshot_read` — what a `Get` returns, and when writes beside it make no difference
-/

namespace Squirrel

namespace MemTable

open Std Coding

/-! ### The system -/

/-- The arguments of a call of `Add`. -/
structure Write where
  sequence : ℕ
  type : ValueType
  key : Bytes
  value : Bytes
  deriving DecidableEq

/-- The entry that a call makes. The height that the skip list draws plays no part in it. -/
def Write.entry (w : Write) : Entry := ⟨w.sequence, w.type, w.key, w.value, 1⟩

/-- The calls that can be made. -/
def Write.Admissible (w : Write) : Prop :=
  w.sequence ≤ kMaxSequenceNumber ∧ w.key.length < 2 ^ 32 - 8 ∧ w.value.length < 2 ^ 32 - 8

instance (w : Write) : Decidable w.Admissible := inferInstanceAs (Decidable (_ ∧ _ ∧ _))

theorem Write.Admissible.entry {w : Write} (h : w.Admissible) : w.entry.Admissible :=
  ⟨h.1, h.2.1, h.2.2, le_rfl, show 1 ≤ kMaxHeight by decide⟩

inductive TableOp
  | add (w : Write)
  /-- `Get` for a user key and a sequence number, with `*value` and `*s` before the call. -/
  | get (u : Bytes) (s : ℕ) (value : Bytes) (status : Status)
  | move (op : Cursor.Op Bytes)

/-- What the operations return; for the ones that move an iterator, the key and the value that it
shows then, if it is valid. A failed assertion of `Get` is `none`. -/
inductive TableResult
  | added
  | got (r : Option (Bool × Bytes × Status))
  | shown (entry : Option (Option Bytes × Option Bytes))

/-- `key` and `value` of an iterator at an entry. -/
def shownAt (entry : Bytes) : Option Bytes × Option Bytes :=
  ((getLengthPrefixedSlice entry).map Prod.fst,
    (getLengthPrefixedSlice entry).bind fun p => (getLengthPrefixedSlice p.2).map Prod.fst)

instance : DecidablePred MemTableIterator.SeeksInternalKey
  | .seek k => inferInstanceAs (Decidable (8 ≤ k.length ∧ k.length < 2 ^ 32))
  | .seekToFirst | .seekToLast | .next | .prev => inferInstanceAs (Decidable True)

/-- The call of the skip list that each operation makes, and what it makes of the result. -/
def translation (c : Comparator) :
    Translation Thread (SetOp Bytes) (SetResult Bytes) TableOp TableResult where
  op
    | .writer, .add w =>
      if w.Admissible then (encodeEntry w.sequence w.type w.key w.value).map .insert else none
    | .reader _, .get u s _ _ =>
      if u.length < 2 ^ 32 - 8 then
        (LookupKey.new u s).map fun k => .query (.move (.seek k.memtableKey))
      else none
    | .reader _, .move op =>
      if MemTableIterator.SeeksInternalKey op then some (.query (.move (op.map encodeKey)))
        else none
    | _, _ => none
  result
    | _, .get u s value status, .position entry =>
      .got ((LookupKey.new u s).bind fun k => read c k.userKey entry value status)
    | _, .move _, .position entry => .shown (entry.map shownAt)
    | _, _, _ => .added

/-- One thread that adds, and any number of readers. -/
def concurrent (c : Comparator) :
    System (SkipList.Shared Bytes × (Thread → Option TableOp)) (Event Thread TableOp TableResult) :=
  (SkipList.shared (keyComparator c)).wrap (translation c)

/-! ### What a memtable is for -/

/-- The order of the writes. -/
def Write.compare (c : Comparator) (a b : Write) : Ordering :=
  InternalKeyComparator.compare c a.entry.internalKey b.entry.internalKey

instance (c : Comparator) [TransCmp c.compare] : TransCmp (Write.compare c) :=
  transCmp_comap (InternalKeyComparator.compare c) fun w : Write => w.entry.internalKey

/-- What a read of a snapshot returns when these writes are there. -/
inductive Answers (writes : List Write) (u : Bytes) (s : ℕ) (value : Bytes) (status : Status) :
    Bool × Bytes × Status → Prop
  | none (h : ∀ w ∈ writes, ¬ w.entry.Visible u s) :
    Answers writes u s value status (false, value, status)
  | newest (w : Write) (hmem : w ∈ writes) (hvisible : w.entry.Visible u s)
    (h : ∀ w' ∈ writes, w'.entry.Visible u s →
      w'.sequence < w.sequence ∨ w'.sequence = w.sequence ∧ w'.type.toNat ≤ w.type.toNat) :
    Answers writes u s value status (w.entry.outcome value status)

/-- What the operations do to the writes and to the iterators. The iterator of a `Get` is not used
again. -/
inductive Perform (c : Comparator) :
    SortedSet Write → Thread → TableOp → TableResult → SortedSet Write → Prop
  | add {t : SortedSet Write} {w : Write} (hnew : ∀ a ∈ t.items, a.compare c w ≠ .eq) :
    Perform c t .writer (.add w) .added
      { t with items := SortedSet.insertItem (SortedSet.below (Write.compare c)) t.items w }
  | get {t : SortedSet Write} {i : ℕ} {u : Bytes} {s : ℕ} {value : Bytes} {status : Status}
    {r : Bool × Bytes × Status} (pos : Option Write) (h : Answers t.items u s value status r) :
    Perform c t (.reader i) (.get u s value status) (.got (some r))
      { t with pos := Function.update t.pos i pos }
  | move {t : SortedSet Write} {i : ℕ} {op : Cursor.Op Bytes} {pos : Option Write}
    (h : SortedSet.move (fun w k => InternalKeyComparator.compare c w.entry.internalKey k = .lt)
      (SortedSet.below (Write.compare c)) t.items (t.pos i) op = some pos) :
    Perform c t (.reader i) (.move op)
      (.shown (pos.map fun w => (some w.entry.internalKey, some w.value)))
      { t with pos := Function.update t.pos i pos }

/-! ### Linearizability -/

variable {c : Comparator}

/-- The skip list holds the writes. -/
structure Represents (c : Comparator) (s : SortedSet Bytes) (t : SortedSet Write) : Prop where
  items : s.items = t.items.map fun w => w.entry.bytes
  pos : ∀ i, s.pos i = (t.pos i).map fun w => w.entry.bytes
  mem : ∀ i, ∀ w ∈ t.pos i, w ∈ t.items
  admissible : ∀ w ∈ t.items, w.Admissible
  sorted : t.items.Pairwise fun a b => a.compare c b = .lt

theorem below_bytes {a b : Write} (ha : a.Admissible) (hb : b.Admissible) :
    SortedSet.below (keyComparator c) a.entry.bytes b.entry.bytes
      = SortedSet.below (Write.compare c) a b := by
  rw [SortedSet.below, SortedSet.below, keyComparator_bytes ha.entry.sized hb.entry.sized,
    Write.compare]

/-- An operation of an iterator. -/
theorem Represents.move {s : SortedSet Bytes} {t : SortedSet Write} (h : Represents c s t) (i : ℕ)
    {op : Cursor.Op Bytes} (hop : MemTableIterator.SeeksInternalKey op) :
    SortedSet.move (SortedSet.below (keyComparator c)) (SortedSet.below (keyComparator c)) s.items
        (s.pos i) (op.map encodeKey)
      = (SortedSet.move
          (fun w k => decide (InternalKeyComparator.compare c w.entry.internalKey k = .lt))
          (SortedSet.below (Write.compare c)) t.items (t.pos i) op).map
        (Option.map fun w => w.entry.bytes) := by
  rw [h.items, h.pos i]
  refine SortedSet.move_map _ encodeKey (fun target htarget w hw => ?_) fun a ha b hb => ?_
  · subst htarget
    rw [SortedSet.below, MemTableIterator.keyComparator_encodeKey (h.admissible w hw).entry.sized
      hop.2]
  · have hadm := h.admissible a (h.mem i a ha)
    exact ⟨below_bytes hadm (h.admissible b hb), below_bytes (h.admissible b hb) hadm⟩

/-- An iterator is taken to an item. -/
theorem Represents.setPos {s : SortedSet Bytes} {t : SortedSet Write} (h : Represents c s t) (i : ℕ)
    {pos : Option Write} (hpos : ∀ w ∈ pos, w ∈ t.items) :
    Represents c { s with pos := Function.update s.pos i (pos.map fun w => w.entry.bytes) }
      { t with pos := Function.update t.pos i pos } := by
  refine ⟨h.items, fun j => ?_, fun j => ?_, h.admissible, h.sorted⟩
  · by_cases hj : j = i
    · subst hj
      simp
    · simpa [Function.update_of_ne hj] using h.pos j
  · by_cases hj : j = i
    · subst hj
      simpa using hpos
    · simpa [Function.update_of_ne hj] using h.mem j

theorem shownAt_bytes {w : Write} (hw : w.Admissible) :
    shownAt w.entry.bytes = (some w.entry.internalKey, some w.value) := by
  have hvalue : getLengthPrefixedSlice (encodeVarint32 w.entry.value.length ++ w.entry.value)
      = some (w.entry.value, []) := by
    have h := getLengthPrefixedSlice_encode (Nat.lt_of_lt_of_le hw.2.2 (Nat.sub_le _ _)) []
    rwa [List.append_nil] at h
  simp only [shownAt, hw.entry.sized.getLengthPrefixedSlice_bytes, Option.map_some,
    Option.bind_some, hvalue]
  rfl

theorem translation_add {w : Write} (hw : w.Admissible) :
    (translation c).op .writer (.add w) = some (.insert w.entry.bytes) := by
  have hbytes : encodeEntry w.sequence w.type w.key w.value = some w.entry.bytes :=
    hw.entry.sized.encodeEntry_eq
  simp only [translation, if_pos hw, hbytes, Option.map_some]

variable [TransCmp c.compare]

theorem Represents.insert {s : SortedSet Bytes} {t : SortedSet Write} (h : Represents c s t)
    {w : Write} (hw : w.Admissible) (hnew : ∀ a ∈ t.items, a.compare c w ≠ .eq) :
    Represents c
      { s with
        items := SortedSet.insertItem (SortedSet.below (keyComparator c)) s.items w.entry.bytes }
      { t with items := SortedSet.insertItem (SortedSet.below (Write.compare c)) t.items w } := by
  have hmem : ∀ a ∈ SortedSet.insertItem (SortedSet.below (Write.compare c)) t.items w,
      a.Admissible := by
    intro a ha
    rcases SortedSet.mem_insertItem.mp ha with rfl | ha
    · exact hw
    · exact h.admissible a ha
  refine ⟨?_, h.pos, fun i a ha => SortedSet.mem_insertItem.mpr (.inr (h.mem i a ha)), hmem, ?_⟩
  · simp only
    have hlt : ∀ b ∈ t.items, SortedSet.below (keyComparator c) b.entry.bytes w.entry.bytes
        = SortedSet.below (Write.compare c) b w := fun b hb => below_bytes (h.admissible b hb) hw
    rw [h.items, SortedSet.insertItem_map (fun w : Write => w.entry.bytes) hlt]
  · exact SortedSet.insertItem_sorted hnew h.sorted

variable [LawfulEqCmp c.compare]

/-- **The first write that is not before the seek key answers the read.** -/
theorem answers_of_find {writes : List Write} (hadm : ∀ w ∈ writes, w.Admissible)
    (hsorted : writes.Pairwise fun a b => a.compare c b = .lt) {u : Bytes} {s : ℕ}
    (hs : s ≤ kMaxSequenceNumber) (value : Bytes) (status : Status) :
    ∃ r, read c u
      ((writes.find? fun w => !decide (InternalKeyComparator.compare c w.entry.internalKey
        (encodeInternalKey u s kValueTypeForSeek) = .lt)).map fun w => w.entry.bytes) value status
          = some r ∧
      Answers writes u s value status r := by
  cases hfind : writes.find? fun w => !decide (InternalKeyComparator.compare c w.entry.internalKey
      (encodeInternalKey u s kValueTypeForSeek) = .lt) with
  | none =>
    refine ⟨(false, value, status), rfl, .none ?_⟩
    rintro w hw ⟨hu, hseq⟩
    have hlt := List.find?_eq_none.mp hfind w hw
    simp only [Bool.not_eq_true', decide_eq_false_iff_not, not_not] at hlt
    refine absurd hlt ?_
    rw [← hu]
    exact ((hadm w hw).entry.visible_iff hs).mpr ⟨rfl, hseq⟩
  | some w =>
    obtain ⟨hge, front, back, hsplit, hfront⟩ := List.find?_eq_some_iff_append.mp hfind
    have hw : w ∈ writes := List.mem_of_find?_eq_some hfind
    have hentries : ∀ e ∈ writes.map Write.entry, e.Admissible := by
      intro e he
      obtain ⟨w, hw, rfl⟩ := List.mem_map.mp he
      exact (hadm w hw).entry
    rw [Bool.not_eq_true', decide_eq_false_iff_not] at hge
    obtain ⟨hnewest, hother⟩ :=
      newest_of_least hentries hs (List.mem_map_of_mem hw) hge fun e' he' hge' => by
      obtain ⟨w', hw', rfl⟩ := List.mem_map.mp he'
      rw [hsplit] at hw' hsorted
      rcases List.mem_append.mp hw' with hw' | hw'
      · exact absurd (hfront w' hw') (by simpa using hge')
      · rcases List.mem_cons.mp hw' with rfl | hw'
        · exact .inl rfl
        · exact .inr ((List.pairwise_cons.mp (List.pairwise_append.mp hsorted).2.1).1 w' hw')
    refine ⟨_, read_bytes (hadm w hw).entry u value status, ?_⟩
    by_cases hu : w.entry.key = u
    · rw [if_pos hu]
      have h := hnewest hu
      exact .newest w hw h.visible fun w' hw' hvis =>
        h.largest w'.entry (List.mem_map_of_mem hw') hvis
    · rw [if_neg hu]
      exact .none fun w' hw' => hother hu w'.entry (List.mem_map_of_mem hw')

/-- **An operation does to the writes what its call does to the skip list.** -/
theorem perform_represents {s s₁ : SortedSet Bytes} {t : SortedSet Write} (h : Represents c s t)
    {thread : Thread} {op : SetOp Bytes} {op' : TableOp} {r : SetResult Bytes}
    (hop : (translation c).op thread op' = some op)
    (hperform : SortedSet.Perform (keyComparator c) s thread op r s₁) :
    ∃ t₁, Perform c t thread op' ((translation c).result thread op' r) t₁ ∧ Represents c s₁ t₁ := by
  cases thread with
  | writer =>
    cases op' with
    | get u seq value status => cases hop
    | move op' => cases hop
    | add w =>
      have hw : w.Admissible := by
        simp only [translation, Option.ite_none_right_eq_some] at hop
        exact hop.1
      rw [translation_add hw] at hop
      cases hop
      cases hperform with
      | insert hnew =>
        have hne : ∀ a ∈ t.items, a.compare c w ≠ .eq := by
          intro a ha
          have hne := hnew a.entry.bytes (h.items ▸ List.mem_map_of_mem ha)
          rwa [keyComparator_bytes (h.admissible a ha).entry.sized hw.entry.sized] at hne
        exact ⟨_, .add hne, h.insert hw hne⟩
  | reader i =>
    cases op' with
    | add w => cases hop
    | move op' =>
      simp only [translation, Option.ite_none_right_eq_some] at hop
      obtain ⟨hseeks, hop⟩ := hop
      cases hop
      cases hperform with
      | move hmove =>
        rw [h.move i hseeks, Option.map_eq_some_iff] at hmove
        obtain ⟨pos, hmove, rfl⟩ := hmove
        have hmem : ∀ w ∈ pos, w ∈ t.items := fun w hw => SortedSet.mem_of_move hmove hw
        have hshown : (pos.map fun w => w.entry.bytes).map shownAt
            = pos.map fun w => (some w.entry.internalKey, some w.value) := by
          rw [Option.map_map]
          exact Option.map_congr fun w hw => shownAt_bytes (h.admissible w (hmem w hw))
        refine ⟨_, ?_, h.setPos i hmem⟩
        simp only [translation, hshown]
        exact .move hmove
    | get u seq value status =>
      simp only [translation, Option.ite_none_right_eq_some, Option.map_eq_some_iff] at hop
      obtain ⟨hu, k, hk, hop⟩ := hop
      have hseq : seq ≤ kMaxSequenceNumber := by
        by_contra hnot
        simp [LookupKey.new, packSequenceAndType, hnot] at hk
      have hsize : u.length + 8 < 2 ^ 32 := by omega
      rw [LookupKey.new_eq hsize hseq] at hk
      obtain rfl := Option.some.inj hk
      have huser : LookupKey.userKey
        ⟨encodeVarint32 (u.length + 8) ++ encodeInternalKey u seq kValueTypeForSeek,
          encodeInternalKey u seq kValueTypeForSeek⟩ = u := extractUserKey_encode ..
      have hlen : (encodeInternalKey u seq kValueTypeForSeek).length = u.length + 8 :=
        length_encodeInternalKey ..
      have htarget : encodeVarint32 (u.length + 8) ++ encodeInternalKey u seq kValueTypeForSeek
          = encodeKey (encodeInternalKey u seq kValueTypeForSeek) := by
        rw [encodeKey, putVarint32, hlen, List.nil_append, Nat.mod_eq_of_lt hsize]
      cases hop
      cases hperform with
      | move hmove =>
        have hseeks : MemTableIterator.SeeksInternalKey
            (.seek (encodeInternalKey u seq kValueTypeForSeek)) := ⟨by omega, by omega⟩
        have hsame := h.move i hseeks
        rw [Cursor.Op.map, ← htarget, hmove] at hsame
        obtain ⟨pos, hpos, hbytes⟩ := Option.map_eq_some_iff.mp hsame.symm
        obtain ⟨r, hread, hanswers⟩ :=
          answers_of_find (u := u) h.admissible h.sorted hseq value status
        rw [← Option.some.inj hpos] at hbytes
        subst hbytes
        refine ⟨_, ?_, h.setPos i fun w hw => List.mem_of_find?_eq_some hw⟩
        simp only [translation, LookupKey.new_eq hsize hseq, Option.bind_some, huser, hread]
        exact .get _ hanswers

/-- **Memtables are linearizable.** Every history of `Add` by one thread and of `Get` and the
operations of iterators by others is one of an object in which each of them is one step: `Add` adds
a write, and a `Get` answers with the newest write that its snapshot sees among those that are there
at that moment. -/
theorem concurrent_linearizable {history : List (Event Thread TableOp TableResult)}
    {st : SkipList.Shared Bytes × (Thread → Option TableOp)} (h : (concurrent c).Run history st) :
    ∃ a, (atomic SortedSet.empty (Perform c)).Run history a := by
  obtain ⟨s, hrun, -⟩ := (SkipList.shared_simulation.wrap (translation c)).run h
  have hempty : Represents c SortedSet.empty SortedSet.empty :=
    ⟨rfl, fun _ => rfl, fun _ _ hw => (by cases hw), fun _ hw => absurd hw List.not_mem_nil,
      List.Pairwise.nil⟩
  obtain ⟨a, hrun', -⟩ := (atomic_wrap (translation c) hempty
    fun _ _ _ _ _ _ _ hS hop hperform => perform_represents hS hop hperform).run hrun
  exact ⟨a, hrun'⟩

/-! ### Snapshots -/

/-- The `Add` of the write has returned. -/
def Added (history : List (Event Thread TableOp TableResult)) (w : Write) : Prop :=
  ∃ r, .ret .writer (.add w) r ∈ history

/-- The `Add` of the write has been called. -/
def Begun (history : List (Event Thread TableOp TableResult)) (w : Write) : Prop :=
  .call .writer (.add w) ∈ history

/-- Only writes that the snapshot sees make a difference. -/
theorem Answers.congr {writes writes' : List Write} {u : Bytes} {s : ℕ} {value : Bytes}
    {status : Status} {r : Bool × Bytes × Status} (h : Answers writes u s value status r)
    (hsame : ∀ w, w.sequence ≤ s → (w ∈ writes ↔ w ∈ writes')) :
    Answers writes' u s value status r := by
  cases h with
  | none h => exact .none fun w hw hvis => h w ((hsame w hvis.2).mpr hw) hvis
  | newest w hmem hvisible h =>
    exact .newest w ((hsame w hvisible.2).mp hmem) hvisible fun w' hw' hvis =>
      h w' ((hsame w' hvis.2).mpr hw') hvis

omit [TransCmp c.compare] [LawfulEqCmp c.compare] in
/-- The writes that are there, between what has been added and what has been begun. -/
theorem atomic_writes {history : List (Event Thread TableOp TableResult)}
    {a : Atomic (SortedSet Write) Thread TableOp TableResult}
    (h : (atomic SortedSet.empty (Perform c)).Run history a) :
    (∀ w, Added history w → w ∈ a.object.items) ∧ (∀ w ∈ a.object.items, Begun history w) ∧
      (∀ w, a.phase .writer = .called (.add w) → Begun history w) ∧
      ∀ w r, a.phase .writer = .done (.add w) r → w ∈ a.object.items := by
  have hnone : ∀ {t : Thread} {phase : Thread → Phase TableOp TableResult}
      {p q : Phase TableOp TableResult}, Function.update phase t p .writer = q →
      t = .writer ∧ p = q ∨ t ≠ .writer ∧ phase .writer = q := by
    intro t phase p q heq
    by_cases ht : Thread.writer = t
    · subst ht
      rw [Function.update_self] at heq
      exact .inl ⟨rfl, heq⟩
    · rw [Function.update_of_ne ht] at heq
      exact .inr ⟨Ne.symm ht, heq⟩
  induction h with
  | init =>
    refine ⟨?_, fun w hw => absurd hw List.not_mem_nil, fun w hw => ?_, fun w r hw => ?_⟩
    · rintro w ⟨r, hr⟩
      exact absurd hr List.not_mem_nil
    · cases hw
    · cases hw
  | @step history s s' e hrun hstep ih =>
    obtain ⟨hadded, hbegun, hcalled, hdone⟩ := ih
    have hmono : ∀ {w new}, Begun history w → Begun (history ++ new) w :=
      fun hw => List.mem_append_left _ hw
    cases hstep with
    | call t op hidle =>
      refine ⟨?_, fun w hw => hmono (hbegun w hw), fun w hw => ?_, fun w r hw => ?_⟩
      · rintro w ⟨r, hr⟩
        refine hadded w ⟨r, (List.mem_append.mp hr).resolve_right fun hr => ?_⟩
        cases List.mem_singleton.mp hr
      · rcases hnone hw with ⟨rfl, heq⟩ | ⟨-, heq⟩
        · cases heq
          exact List.mem_append_right _ (List.mem_singleton.mpr rfl)
        · exact hmono (hcalled w heq)
      · rcases hnone hw with ⟨-, heq⟩ | ⟨-, heq⟩
        · cases heq
        · exact hdone w r heq
    | @perform t op r object' hop hperform =>
      simp only [Option.toList_none, List.append_nil]
      have hkeep : ∀ w ∈ s.object.items, w ∈ object'.items := by
        intro w hw
        cases hperform with
        | add hnew => exact SortedSet.mem_insertItem.mpr (.inr hw)
        | get pos hanswers => exact hw
        | move hmove => exact hw
      refine ⟨fun w hw => hkeep w (hadded w hw), fun w hw => ?_, fun w hw => ?_, fun w r' hw => ?_⟩
      · cases hperform with
        | add hnew =>
          rcases SortedSet.mem_insertItem.mp hw with rfl | hw
          · exact hcalled _ hop
          · exact hbegun w hw
        | get pos hanswers => exact hbegun w hw
        | move hmove => exact hbegun w hw
      · rcases hnone hw with ⟨-, heq⟩ | ⟨-, heq⟩
        · cases heq
        · exact hcalled w heq
      · rcases hnone hw with ⟨-, heq⟩ | ⟨-, heq⟩
        · cases heq
          cases hperform with
          | add hnew => exact SortedSet.mem_insertItem.mpr (.inl rfl)
        · exact hkeep w (hdone w r' heq)
    | @ret t op r hphase =>
      refine ⟨?_, fun w hw => hmono (hbegun w hw), fun w hw => ?_, fun w r' hw => ?_⟩
      · rintro w ⟨r', hr⟩
        rcases List.mem_append.mp hr with hr | hr
        · exact hadded w ⟨r', hr⟩
        · cases List.mem_singleton.mp hr
          exact hdone w _ hphase
      · rcases hnone hw with ⟨-, heq⟩ | ⟨-, heq⟩
        · cases heq
        · exact hmono (hcalled w heq)
      · rcases hnone hw with ⟨-, heq⟩ | ⟨-, heq⟩
        · cases heq
        · exact hdone w r' heq

/-- **Snapshot reads beside a writer.** A `Get` that has returned answers for a set of writes that
holds all whose `Add` had returned before it was called, and of the others only such as were called
before it returned. If all of those have sequence numbers that the snapshot does not see, the answer
is the one for the writes whose `Add` had returned. -/
theorem snapshot_read {history pre post : List (Event Thread TableOp TableResult)}
    {st : SkipList.Shared Bytes × (Thread → Option TableOp)} (h : (concurrent c).Run history st)
    {i : ℕ} {u : Bytes} {s : ℕ} {value : Bytes} {status : Status} {r : TableResult}
    (hret : history = pre ++ .ret (.reader i) (.get u s value status) r :: post) :
    ∃ before during answer, pre = before ++ .call (.reader i) (.get u s value status) :: during ∧
      (∀ e ∈ during, e.thread ≠ .reader i) ∧ r = .got (some answer) ∧
      (∃ writes, (∀ w, Added before w → w ∈ writes) ∧ (∀ w ∈ writes, Begun (before ++ during) w) ∧
        Answers writes u s value status answer) ∧
      ((∀ w, Begun (before ++ during) w → Added before w ∨ s < w.sequence) →
        ∀ writes, (∀ w, w ∈ writes ↔ Added before w) → Answers writes u s value status answer) := by
  obtain ⟨a, hrun⟩ := concurrent_linearizable h
  obtain ⟨before, during, since, a', object', rfl, hother, hrun', hperform⟩ :=
    atomic_takesEffect hrun hret
  obtain ⟨hadded, hbegun, -, -⟩ := atomic_writes hrun'
  have hadded' : ∀ w, Added before w → w ∈ a'.object.items := by
    rintro w ⟨r', hr'⟩
    exact hadded w ⟨r', List.mem_append_left _ hr'⟩
  have hbegun' : ∀ w ∈ a'.object.items, Begun (before ++ (during ++ since)) w := by
    intro w hw
    rcases List.mem_append.mp (hbegun w hw) with hw | hw
    · exact List.mem_append_left _ hw
    · rcases List.mem_cons.mp hw with heq | hw
      · cases heq
      · exact List.mem_append_right _ (List.mem_append_left _ hw)
  cases hperform with
  | @get _ _ _ _ _ answer pos hanswers =>
    refine ⟨before, during ++ since, answer, rfl, hother, rfl, ⟨_, hadded', hbegun', hanswers⟩, ?_⟩
    intro hlater writes hwrites
    refine hanswers.congr fun w hw => ⟨fun hmem => ?_, fun hmem => hadded' w ((hwrites w).mp hmem)⟩
    exact (hwrites w).mpr ((hlater w (hbegun' w hmem)).resolve_right (Nat.not_lt.mpr hw))

/-- A write that has been linked and has not returned, and a read of a snapshot from before it. -/
theorem run_get_during_add : ∃ r st,
    (concurrent bytewiseComparator).Run
      ([.call .writer (.add ⟨5, .kTypeValue, [7], [10]⟩), .call (.reader 0)
        (.get [7] 4 [1] .success)]
        ++ [.ret (.reader 0) (.get [7] 4 [1] .success) r]) st := by
  have writer : ∀ {history s list w done doing},
    (concurrent bytewiseComparator).Run history (s, doing) →
      SkipList.WriterStep (keyComparator bytewiseComparator) s.done s.list s.writer list w done →
      SkipList.shows s.writer w = none →
      (concurrent bytewiseComparator).Run history
        ({ s with list := list, writer := w, done := done }, doing) :=
    fun h hstep hshows => h.silent (.silent (hshows ▸ SkipList.SharedStep.writer hstep))
  have reader : ∀ {history s it doing}, (concurrent bytewiseComparator).Run history (s, doing) →
      SkipList.IterStep (keyComparator bytewiseComparator) s.list (.reader 0) (s.iters 0) none it →
      (concurrent bytewiseComparator).Run history
        ({ s with iters := Function.update s.iters 0 it }, doing) :=
    fun h hstep => h.silent (.silent (.reader 0 hstep))
  let w : Write := ⟨5, .kTypeValue, [7], [10]⟩
  let b := w.entry.bytes
  let k : Bytes := [9, 7, 1, 4, 0, 0, 0, 0, 0, 0]
  have h₁ : (concurrent bytewiseComparator).Run [] _ := .init
  have hbegin := @SkipList.SharedStep.writer Bytes _ (keyComparator bytewiseComparator)
    ⟨SkipList.new, .idle, [], fun _ => .idle none⟩ _ _ _ (.begin b (by simp))
  have h₂ := h₁.event (.call (translation_add (by decide)) hbegin)
  have h₃ := writer h₂ (.enter b) rfl
  have h₄ := writer h₃ (.searchDone b _ none none _ 1 rfl rfl (by decide)) rfl
  have h₅ := writer h₄ (.compareLow b 1 _ (by decide)) rfl
  have h₆ := writer h₅ (.alloc b 1 _) rfl
  have h₇ := writer h₆ (.load b 1 _ _ 0 0 none (by decide) rfl rfl) rfl
  have h₈ := writer h₇ (.own b 1 _ _ 0 none) rfl
  have h₉ := writer h₈ (.publish b 1 _ _ 0 0 rfl) rfl
  have h₁₀ := h₉.event (.call (rfl : (translation bytewiseComparator).op (.reader 0)
    (.get [7] 4 [1] .success) = some (.query (.move (.seek k))))
      (.reader 0 (.call none (.move (.seek k)) trivial)))
  have h₁₁ := reader h₁₀ (.height none (.move (.seek k)) trivial)
  have h₁₂ := reader h₁₁ (.forward none (.move (.seek k)) 0 0 1 rfl (by decide +kernel))
  have h₁₃ := reader h₁₂ (.stop none (.move (.seek k)) 1 none rfl (by simp))
  have h₁₄ := h₁₃.event (.ret rfl (.reader 0 (.ret _ (.move (.seek k)) _)))
  exact ⟨_, _, h₁₄⟩

theorem concurrent_linearizable_during : ∃ r a,
    (atomic SortedSet.empty (Perform bytewiseComparator)).Run
      [.call .writer (.add ⟨5, .kTypeValue, [7], [10]⟩), .call (.reader 0)
        (.get [7] 4 [1] .success), .ret (.reader 0) (.get [7] 4 [1] .success) r] a := by
  have htrans : TransCmp bytewiseComparator.compare := bytewiseComparator_lawful.trans
  have heq : LawfulEqCmp bytewiseComparator.compare := inferInstanceAs (LawfulEqCmp Slice.compare)
  obtain ⟨r, st, h⟩ := run_get_during_add
  exact ⟨r, concurrent_linearizable h⟩

/-- The snapshot does not see the write. -/
theorem snapshot_read_before : ∃ answer st,
    (concurrent bytewiseComparator).Run
      [.call .writer (.add ⟨5, .kTypeValue, [7], [10]⟩), .call (.reader 0)
        (.get [7] 4 [1] .success), .ret (.reader 0) (.get [7] 4 [1] .success) (.got (some answer))]
          st ∧
      Answers [] [7] 4 [1] .success answer := by
  have htrans : TransCmp bytewiseComparator.compare := bytewiseComparator_lawful.trans
  have heq : LawfulEqCmp bytewiseComparator.compare := inferInstanceAs (LawfulEqCmp Slice.compare)
  obtain ⟨r, st, h⟩ := run_get_during_add
  obtain ⟨before, during, answer, hpre, -, rfl, -, hsnapshot⟩ := snapshot_read h rfl
  refine ⟨answer, st, h, hsnapshot (fun w hw => .inr ?_) [] fun w => ⟨fun hw => ?_, ?_⟩⟩
  · have hmem : .call .writer (.add w) ∈ before ++ .call (.reader 0) (.get [7] 4 [1] .success)
        :: during :=
      List.mem_append.mpr ((List.mem_append.mp hw).imp_right (List.mem_cons_of_mem _))
    rw [← hpre] at hmem
    obtain rfl : w = ⟨5, .kTypeValue, [7], [10]⟩ := by simpa using hmem
    decide
  · exact absurd hw List.not_mem_nil
  · rintro ⟨r, hr⟩
    have hmem : .ret .writer (.add w) r ∈ before ++ .call (.reader 0) (.get [7] 4 [1] .success)
        :: during :=
      List.mem_append_left _ hr
    rw [← hpre] at hmem
    simp at hmem

end MemTable

end Squirrel
