import Squirrel.Db.SkipListConcurrent
import Squirrel.Db.SkipListRefine
import Squirrel.Lib.Atomic
import Squirrel.Lib.SortedSet

/-!
# Skip lists are linearizable

The writer of `SkipListConcurrent` beside any number of readers, each of which has an `Iterator` of
the list and may also call `Contains`. Every load of a `next_` slot or of `max_height_` is one step.
`Seek`, `SeekToLast`, `Prev` and `Contains` search from the top level down; they differ in what they
go past and in what they make of the end of the search.

What they all have in common is that the last load, on the bottom level, decides: at that moment the
list is in front of them as it is. An `Insert` takes effect when its node is linked at the bottom
level. So the histories of calls and returns are those of a sorted set in which every operation is
one step.

## Main definitions

* `SortedSet.Perform` — what the list is for
* `SkipList.shared` — the system of one writer and any number of readers

## Main results

* `SkipList.shared_simulation` — one step, of the writer or of a reader
* `SkipList.linearizable` — every history
-/

namespace Squirrel

open Std

/-! ### What the list is for -/

inductive Thread
  | writer
  | reader (i : ℕ)
  deriving DecidableEq

/-- What readers ask for. -/
inductive Query (K : Type)
  | contains (key : K)
  | move (op : Cursor.Op K)

inductive SetOp (K : Type)
  | insert (key : K)
  | query (q : Query K)

/-- What an operation returns; for the ones that move an iterator, the key that it shows then. -/
inductive SetResult (K : Type)
  | inserted
  | contains (found : Bool)
  | position (key : Option K)

namespace SortedSet

variable {K : Type} (cmp : K → K → Ordering)

/-- What the operations do. Only the writer inserts. -/
inductive Perform : SortedSet K → Thread → SetOp K → SetResult K → SortedSet K → Prop
  | insert {s : SortedSet K} {key : K} (hnew : ∀ a ∈ s.items, cmp a key ≠ .eq) :
    Perform s .writer (.insert key) .inserted { s with items := insertItem (below cmp) s.items key }
  | contains {s : SortedSet K} (i : ℕ) (key : K) :
    Perform s (.reader i) (.query (.contains key))
      (.contains (s.items.any fun a => cmp key a = .eq)) s
  | move {s : SortedSet K} {i : ℕ} {op : Cursor.Op K} {pos : Option K}
    (h : move (below cmp) (below cmp) s.items (s.pos i) op = some pos) :
    Perform s (.reader i) (.query (.move op)) (.position pos)
      { s with pos := Function.update s.pos i pos }

end SortedSet

namespace SkipList

variable {K : Type} [Inhabited K]

/-! ### Readers -/

section

variable (cmp : K → K → Ordering) (s : SkipList K) (node : Option ℕ)

/-- `Next` and `Prev` assert `Valid()`. -/
def Allowed : Query K → Prop
  | .move .next => node.isSome = true
  | .move .prev => node.isSome = true
  | _ => True

/-- The node whose link at the bottom level is all that the operation loads. -/
def source : Query K → Option ℕ
  | .move .seekToFirst => some 0
  | .move .next => node
  | _ => none

/-- The operations that search. -/
def Searches : Query K → Prop
  | .contains _ => True
  | .move (.seek _) => True
  | .move .seekToLast => True
  | .move .prev => True
  | _ => False

/-- What the search goes past: the condition in the loop of `FindGreaterOrEqual`, `FindLast` or
`FindLessThan`, for a node that is not null. -/
def past : Query K → ℕ → Bool
  | .contains key => before cmp s key
  | .move (.seek target) => before cmp s target
  | .move .prev => fun n => node.any fun m => before cmp s (s.key m) n
  | _ => fun _ => true

/-- What the operation makes of the node `x` at which the search ends, and of the one behind it: the
new `node_`, and what it returns. -/
def finish (x : ℕ) (next : Option ℕ) : Query K → Option ℕ × SetResult K
  | .contains key => (node, .contains (next.any fun n => cmp key (s.key n) = .eq))
  | .move (.seek _) => (next, .position (next.map s.key))
  | .move _ =>
    let node := if x = 0 then none else some x
    (node, .position (node.map s.key))

end

/-- Where a reader is, with the `node_` of its iterator. -/
inductive Iter (K : Type)
  | idle (node : Option ℕ)
  /-- The operation has been called. -/
  | enter (node : Option ℕ) (q : Query K)
  /-- The load of `x->Next(level)`. -/
  | search (node : Option ℕ) (q : Query K) (x level : ℕ)
  /-- The operation is about to return. -/
  | leave (node : Option ℕ) (q : Query K) (r : SetResult K)
  | garbage

/-- A step of a reader. -/
inductive IterStep (cmp : K → K → Ordering) (s : SkipList K) (t : Thread) :
    Iter K → Option (Event Thread (SetOp K) (SetResult K)) → Iter K → Prop
  | call (node : Option ℕ) (q : Query K) (hallowed : Allowed node q) :
    IterStep cmp s t (.idle node) (some (.call t (.query q))) (.enter node q)
  | direct (node : Option ℕ) (q : Query K) (n : ℕ) (next : Option ℕ)
    (hsource : source node q = some n) (hload : s.next n 0 = some next) :
    IterStep cmp s t (.enter node q) none (.leave next q (.position (next.map s.key)))
  | directGarbage (node : Option ℕ) (q : Query K) (n : ℕ) (hsource : source node q = some n)
    (hload : s.next n 0 = none) : IterStep cmp s t (.enter node q) none .garbage
  /-- `GetMaxHeight()`. -/
  | height (node : Option ℕ) (q : Query K) (hsearches : Searches q) :
    IterStep cmp s t (.enter node q) none (.search node q 0 (s.maxHeight - 1))
  | forward (node : Option ℕ) (q : Query K) (x level n : ℕ) (hload : s.next x level = some (some n))
    (hpast : past cmp s node q n = true) :
    IterStep cmp s t (.search node q x level) none (.search node q n level)
  | down (node : Option ℕ) (q : Query K) (x level : ℕ) (next : Option ℕ)
    (hload : s.next x (level + 1) = some next)
    (hstop : ∀ n, next = some n → past cmp s node q n = false) :
    IterStep cmp s t (.search node q x (level + 1)) none (.search node q x level)
  | stop (node : Option ℕ) (q : Query K) (x : ℕ) (next : Option ℕ) (hload : s.next x 0 = some next)
    (hstop : ∀ n, next = some n → past cmp s node q n = false) :
    IterStep cmp s t (.search node q x 0) none
      (.leave (finish cmp s node x next q).1 q (finish cmp s node x next q).2)
  | searchGarbage (node : Option ℕ) (q : Query K) (x level : ℕ) (hload : s.next x level = none) :
    IterStep cmp s t (.search node q x level) none .garbage
  | ret (node : Option ℕ) (q : Query K) (r : SetResult K) :
    IterStep cmp s t (.leave node q r) (some (.ret t (.query q) r)) (.idle node)

/-! ### The system -/

/-- The list, the writer with the keys whose `Insert` is over, and the readers. -/
structure Shared (K : Type) where
  list : SkipList K
  writer : Writer K
  done : List K
  iters : ℕ → Iter K

/-- What a step of the writer shows: the beginning and the end of an `Insert`. -/
def shows : Writer K → Writer K → Option (Event Thread (SetOp K) (SetResult K))
  | .idle, .enter key => some (.call .writer (.insert key))
  | .load key _ _ _ _, .idle => some (.ret .writer (.insert key) .inserted)
  | _, _ => none

inductive SharedStep (cmp : K → K → Ordering) :
    Shared K → Option (Event Thread (SetOp K) (SetResult K)) → Shared K → Prop
  | writer {st : Shared K} {list : SkipList K} {w : Writer K} {done : List K}
    (h : WriterStep cmp st.done st.list st.writer list w done) :
    SharedStep cmp st (shows st.writer w) { st with list := list, writer := w, done := done }
  | reader {st : Shared K} (i : ℕ) {e : Option (Event Thread (SetOp K) (SetResult K))} {it : Iter K}
    (h : IterStep cmp st.list (.reader i) (st.iters i) e it) :
    SharedStep cmp st e { st with iters := Function.update st.iters i it }

/-- One writer and any number of readers on a new list. -/
def shared (cmp : K → K → Ordering) : System (Shared K) (Event Thread (SetOp K) (SetResult K)) where
  init := ⟨new, .idle, [], fun _ => .idle none⟩
  step := SharedStep cmp

/-! ### What a search finds -/

variable {cmp : K → K → Ordering} {s s' : SkipList K} {order order' : List ℕ}
  {linked linked' : ℕ → ℕ}

/-- The bottom level. -/
theorem Levels.bottom (h : Levels cmp s order linked) : Chain (fun x => s.next x 0) 0 order := by
  have hchain := h.chain 0 (by decide)
  rwa [List.filter_eq_self.mpr fun n hn => by simpa using (h.pos n hn).1] at hchain

/-- The nodes are determined by the bottom level. -/
theorem Levels.order_unique (h : Levels cmp s order linked) (h' : Levels cmp s order' linked') :
    order' = order := h'.bottom.unique h.bottom

section Search

variable [TransCmp cmp] {x : ℕ} {next : Option ℕ} {b : ℕ → Bool}

/-- **Where a search ends**: between what it goes past and what it does not. -/
theorem Levels.search_ends (h : Levels cmp s order linked) (hb : Closed cmp s b)
    (hp : Probe order linked b x 0) (hload : s.next x 0 = some next)
    (hstop : ∀ n, next = some n → b n = false) :
    (if x = 0 then none else some x) = (order.filter b).getLast? ∧
      next = order.find? fun n => !b n := by
  obtain rfl := Option.some.inj (hload.symm.trans (h.next_of_probe hp))
  refine ⟨?_, by rw [h.filter_not_past hb hp hstop, List.head?_filter]⟩
  rw [← h.probe_stop hb hp hstop, h.prevOf_zero, ite_getLastD]
  exact fun hmem => h.zero_notMem (List.mem_filter.mp hmem).1

theorem closed_past (s : SkipList K) (node : Option ℕ) (q : Query K) :
    Closed cmp s (past cmp s node q) := by
  cases q with
  | contains key => exact closed_before s key
  | move op =>
    cases op with
    | seek target => exact closed_before s target
    | seekToFirst => exact closed_true s
    | seekToLast => exact closed_true s
    | next => exact closed_true s
    | prev =>
      cases node with
      | none => exact fun x y _ hy => absurd hy (by simp [past])
      | some m => exact closed_before s (s.key m)

/-- The first node behind a node. -/
theorem Levels.next_eq_find (h : Levels cmp s order linked) {n : ℕ} (hn : n ∈ order)
    (hload : s.next n 0 = some next) :
    next = order.find? fun m => cmp (s.key n) (s.key m) = .lt := by
  obtain ⟨pre, post, hsplit, hnext⟩ := h.successor hn
  obtain rfl := Option.some.inj (hload.symm.trans hnext)
  have hsorted := h.sorted
  rw [hsplit] at hsorted
  obtain ⟨-, hback, hcross⟩ := List.pairwise_append.mp hsorted
  have hself : cmp (s.key n) (s.key n) = .eq := ReflCmp.compare_self
  have hfront : pre.find? (fun m => decide (cmp (s.key n) (s.key m) = .lt)) = none := by
    refine List.find?_eq_none.mpr fun m hm => ?_
    simpa using OrientedCmp.not_lt_of_lt (hcross m hm n List.mem_cons_self)
  rw [hsplit, List.find?_append, hfront, Option.none_or, List.find?_cons_of_neg (by simp [hself])]
  cases post with
  | nil => rfl
  | cons m post =>
    rw [List.find?_cons_of_pos
      (by simpa using (List.pairwise_cons.mp hback).1 m List.mem_cons_self)]
    rfl

omit [TransCmp cmp] in
theorem Levels.source_loads (h : Levels cmp s order linked) {node : Option ℕ} {q : Query K} {n : ℕ}
    (hmem : ∀ n, node = some n → n ∈ order) (hsource : source node q = some n) :
    ∃ next, s.next n 0 = some next := by
  have hn : n ∈ 0 :: order := by
    cases q with
    | contains key => cases hsource
    | move op =>
      cases op with
      | seek target => cases hsource
      | seekToLast => cases hsource
      | prev => cases hsource
      | seekToFirst =>
        cases hsource
        exact List.mem_cons_self
      | next => exact List.mem_cons_of_mem 0 (hmem n hsource)
  exact ⟨_, (h.bottom.after hn).next_eq⟩

end Search

/-! ### The simulation -/

/-- The iterator stands at a node of the list, and its key is the position. -/
structure StandsAt (s : SkipList K) (order : List ℕ) (node : Option ℕ) (pos : Option K) : Prop where
  mem : ∀ n, node = some n → n ∈ order
  pos_eq : pos = node.map s.key

/-- Where a writer is, from the outside. -/
def writerPhase : Writer K → Phase (SetOp K) (SetResult K)
  | .idle => .idle
  | .enter key | .search key _ | .compare key _ _ | .fill key _ _ | .raise key _ _
  | .alloc key _ _ => .called (.insert key)
  | .load key _ _ _ i | .own key _ _ _ i _ | .publish key _ _ _ i =>
    if i = 0 then .called (.insert key) else .done (.insert key) .inserted
  | .garbage => .idle

variable (cmp) in
/-- What holds of a reader, and where it is from the outside. -/
def IterInv (s : SkipList K) (order : List ℕ) (linked : ℕ → ℕ) (pos : Option K)
    (phase : Phase (SetOp K) (SetResult K)) : Iter K → Prop
  | .idle node => StandsAt s order node pos ∧ phase = .idle
  | .enter node q => StandsAt s order node pos ∧ phase = .called (.query q) ∧ Allowed node q
  | .search node q x level => StandsAt s order node pos ∧ phase = .called (.query q) ∧
      Allowed node q ∧ Searches q ∧ Probe order linked (past cmp s node q) x level
  | .leave node q r => StandsAt s order node pos ∧ phase = .done (.query q) r
  | .garbage => False

variable (cmp) in
/-- The list is in order, and the sorted set is what it holds. -/
def Linear (st : Shared K) (a : Atomic (SortedSet K) Thread (SetOp K) (SetResult K)) : Prop :=
  ∃ order linked, Levels cmp st.list order linked ∧ Committed st.list order st.done ∧
    WriterInv cmp st.list order linked st.done st.writer ∧ a.object.items = order.map st.list.key ∧
    a.phase .writer = writerPhase st.writer ∧
    ∀ i, IterInv cmp st.list order linked (a.object.pos i) (a.phase (.reader i)) (st.iters i)

theorem Grows.standsAt (h : Grows s s' order order' linked linked') {node : Option ℕ}
    {pos : Option K} (hs : StandsAt s order node pos) : StandsAt s' order' node pos := by
  refine ⟨fun n hn => h.mem n (hs.mem n hn), ?_⟩
  rw [hs.pos_eq]
  exact Option.map_congr fun n hn => (h.key n (hs.mem n hn)).symm

/-- A search stays where it can stand, whatever it goes past. -/
theorem Grows.past (h : Grows s s' order order' linked linked') {node : Option ℕ} {pos : Option K}
    {q : Query K} {x level : ℕ} (hs : StandsAt s order node pos)
    (hp : Probe order linked (past cmp s node q) x level) :
    Probe order' linked' (past cmp s' node q) x level := by
  refine ⟨?_, hp.linked.trans_le (h.linked x hp.mem), fun hx => ?_⟩
  · rcases List.mem_cons.mp hp.mem with rfl | hx
    · exact List.mem_cons_self
    · exact List.mem_cons_of_mem 0 (h.mem x hx)
  · have hkey : s'.key x = s.key x := h.key x ((List.mem_cons.mp hp.mem).resolve_left hx)
    have hpast := hp.past hx
    cases q with
    | contains key => rwa [SkipList.past, before, hkey]
    | move op =>
      cases op with
      | seek target => rwa [SkipList.past, before, hkey]
      | seekToFirst => rfl
      | seekToLast => rfl
      | next => rfl
      | prev =>
        cases node with
        | none => exact absurd hpast (by simp [SkipList.past])
        | some m =>
          simp only [SkipList.past, Option.any_some, before] at hpast ⊢
          rwa [hkey, h.key m (hs.mem m rfl)]

/-- Readers do not notice a step of the writer. -/
theorem Grows.iterInv (h : Grows s s' order order' linked linked') {pos : Option K}
    {phase : Phase (SetOp K) (SetResult K)} {it : Iter K}
    (hi : IterInv cmp s order linked pos phase it) :
    IterInv cmp s' order' linked' pos phase it := by
  cases it with
  | idle node => exact ⟨h.standsAt hi.1, hi.2⟩
  | enter node q => exact ⟨h.standsAt hi.1, hi.2⟩
  | search node q x level =>
    obtain ⟨hs, hphase, hallowed, hsearches, hp⟩ := hi
    exact ⟨h.standsAt hs, hphase, hallowed, hsearches, h.past hs hp⟩
  | leave node q r => exact ⟨h.standsAt hi.1, hi.2⟩
  | garbage => exact hi

variable [TransCmp cmp]

/-- **The last load of a reader** does to its iterator what the operation does to that of the sorted
set. -/
theorem finish_perform (h : Levels cmp s order linked) {a : SortedSet K}
    (hkeys : a.items = order.map s.key) {i : ℕ} {node : Option ℕ} {q : Query K}
    (hs : StandsAt s order node (a.pos i)) (hallowed : Allowed node q) (hsearches : Searches q)
    {x : ℕ} {next : Option ℕ} (hp : Probe order linked (past cmp s node q) x 0)
    (hload : s.next x 0 = some next) (hstop : ∀ n, next = some n → past cmp s node q n = false) :
    ∃ a', SortedSet.Perform cmp a (.reader i) (.query q) (finish cmp s node x next q).2 a' ∧
      a'.items = a.items ∧ (∀ j, j ≠ i → a'.pos j = a.pos j) ∧
      StandsAt s order (finish cmp s node x next q).1 (a'.pos i) := by
  obtain ⟨hx, hnext⟩ := h.search_ends (closed_past s node q) hp hload hstop
  have hmove : ∀ {op : Cursor.Op K} {r : Option ℕ}, (∀ n, r = some n → n ∈ order) →
      SortedSet.move (SortedSet.below cmp) (SortedSet.below cmp) a.items (a.pos i) op
        = some (r.map s.key) →
      ∃ a', SortedSet.Perform cmp a (.reader i) (.query (.move op)) (.position (r.map s.key)) a' ∧
        a'.items = a.items ∧ (∀ j, j ≠ i → a'.pos j = a.pos j) ∧ StandsAt s order r (a'.pos i) := by
    intro op r hr hop
    exact ⟨_, .move hop, rfl, fun j hj => Function.update_of_ne hj _ _, hr, Function.update_self ..⟩
  have hfilter : ∀ k, a.items.filter (fun b => SortedSet.below cmp b k)
      = (order.filter (before cmp s k)).map s.key := fun k => by
    rw [hkeys, List.filter_map]
    rfl
  have hlast : ∀ n, (order.filter (past cmp s node q)).getLast? = some n → n ∈ order := fun n hn =>
    (List.mem_filter.mp (List.mem_of_getLast? hn)).1
  cases q with
  | contains key =>
    refine ⟨a, ?_, rfl, fun _ _ => rfl, hs⟩
    have hany : (next.any fun n => decide (cmp key (s.key n) = .eq))
        = a.items.any fun b => decide (cmp key b = .eq) := by
      obtain ⟨found, hfound, hiff⟩ := h.contains_eq key
      obtain ⟨prev, hfind, -⟩ := h.findGreaterOrEqual_eq key
      have hfound' : (next.any fun n => decide (cmp key (s.key n) = .eq)) = found := by
        have hnext' : next = order.find? fun n => !before cmp s key n := hnext
        rw [contains, hfind, ← hnext'] at hfound
        cases next with
        | none => exact Option.some.inj hfound
        | some n => exact Option.some.inj hfound
      rw [hfound', hkeys, List.any_map, Bool.eq_iff_iff, hiff]
      simp
    rw [finish, hany]
    exact .contains i key
  | move op =>
    cases op with
    | seek target =>
      refine hmove (fun n hn => ?_) ?_
      · exact List.mem_of_find?_eq_some (hnext.symm.trans hn)
      · rw [SortedSet.move, hkeys, List.find?_map, hnext]
        rfl
    | seekToFirst => exact hsearches.elim
    | next => exact hsearches.elim
    | seekToLast =>
      simp only [finish, hx]
      refine hmove hlast ?_
      rw [SortedSet.move, hkeys, List.getLast?_map]
      simp [past]
    | prev =>
      simp only [finish, hx]
      refine hmove hlast ?_
      obtain ⟨m, rfl⟩ := Option.isSome_iff_exists.mp hallowed
      rw [SortedSet.move, hs.pos_eq, Option.map_some, Option.map_some, hfilter, List.getLast?_map]
      rfl

/-- The only load of `SeekToFirst` and `Next`. -/
theorem direct_perform (h : Levels cmp s order linked) {a : SortedSet K}
    (hkeys : a.items = order.map s.key) {i : ℕ} {node : Option ℕ} {q : Query K}
    (hs : StandsAt s order node (a.pos i)) {n : ℕ} {next : Option ℕ}
    (hsource : source node q = some n) (hload : s.next n 0 = some next) :
    ∃ a', SortedSet.Perform cmp a (.reader i) (.query q) (.position (next.map s.key)) a' ∧
      a'.items = a.items ∧ (∀ j, j ≠ i → a'.pos j = a.pos j) ∧
        StandsAt s order next (a'.pos i) := by
  have hmove : ∀ {op : Cursor.Op K}, (∀ m, next = some m → m ∈ order) →
      SortedSet.move (SortedSet.below cmp) (SortedSet.below cmp) a.items (a.pos i) op
        = some (next.map s.key) →
      ∃ a', SortedSet.Perform cmp a (.reader i) (.query (.move op))
        (.position (next.map s.key)) a' ∧
        a'.items = a.items ∧ (∀ j, j ≠ i → a'.pos j = a.pos j) ∧
          StandsAt s order next (a'.pos i) := by
    intro op hr hop
    exact ⟨_, .move hop, rfl, fun j hj => Function.update_of_ne hj _ _, hr, Function.update_self ..⟩
  cases q with
  | contains key => cases hsource
  | move op =>
    cases op with
    | seek target => cases hsource
    | seekToLast => cases hsource
    | prev => cases hsource
    | seekToFirst =>
      cases hsource
      have hhead : next = order.head? := Option.some.inj (hload.symm.trans h.bottom.next_eq)
      refine hmove (fun m hm => List.mem_of_mem_head? (hhead.symm.trans hm)) ?_
      rw [SortedSet.move, hkeys, List.head?_map, hhead]
    | next =>
      obtain rfl : node = some n := hsource
      have hfind := h.next_eq_find (hs.mem n rfl) hload
      refine hmove (fun m hm => List.mem_of_find?_eq_some (hfind.symm.trans hm)) ?_
      rw [SortedSet.move, hs.pos_eq, Option.map_some, Option.map_some, hkeys, List.find?_map, hfind]
      rfl

variable (cmp) in
/-- What a step of the writer does to its phase and to the nodes. -/
inductive Effect (w w' : Writer K) (order order' : List ℕ) (s s' : SkipList K) : Prop
  | silent (hshows : shows w w' = none) (hphase : writerPhase w' = writerPhase w)
    (horder : order' = order)
  | call (key : K) (hshows : shows w w' = some (.call .writer (.insert key)))
    (hphase : writerPhase w = .idle) (hphase' : writerPhase w' = .called (.insert key))
    (horder : order' = order)
  | link (key : K) (x : ℕ) (hshows : shows w w' = none)
    (hphase : writerPhase w = .called (.insert key))
    (hphase' : writerPhase w' = .done (.insert key) .inserted)
    (hnew : ∀ n ∈ order, cmp (s.key n) key ≠ .eq) (hkey : s'.key x = key)
    (horder : order' = order.filter (before cmp s key) ++ x :: order.filter fun n =>
      !before cmp s key n)
  | ret (key : K) (hshows : shows w w' = some (.ret .writer (.insert key) .inserted))
    (hphase : writerPhase w = .done (.insert key) .inserted) (hphase' : writerPhase w' = .idle)
    (horder : order' = order)

/-- **An `Insert` takes effect at the bottom level.** -/
theorem writerStep_effect (h : Levels cmp s order linked) {done done' : List K} {w w' : Writer K}
    (hw : WriterInv cmp s order linked done w) (hstep : WriterStep cmp done s w s' w' done')
    (h' : Levels cmp s' order' linked') : Effect cmp w w' order order' s s' := by
  cases hstep with
  | begin key hnew => exact .call key rfl rfl rfl (h.order_unique h')
  | enter key => exact .silent rfl rfl (h.order_unique h')
  | searchOn key st st' next hload hturn => exact .silent rfl rfl (h.order_unique h')
  | searchDone key st next r prev height hload hturn hheight =>
    exact .silent rfl rfl (h.order_unique h')
  | searchGarbage key st hload => exact absurd (hload.symm.trans (h.next_of_probe hw.2.1)) (by simp)
  | compareLow key height prev hle => exact .silent rfl rfl (h.order_unique h')
  | compareHigh key height prev hlt => exact .silent rfl rfl (h.order_unique h')
  | fill key height prev => exact .silent rfl rfl (h.order_unique h')
  | raise key height prev =>
    obtain ⟨-, hheight, -, hlt⟩ := hw
    exact .silent rfl rfl ((h.raise hlt.le hheight.2).order_unique h')
  | alloc key height prev => exact .silent rfl rfl ((h.newNode key height).order_unique h')
  | load key height prev x i p next hi hp hload => exact .silent rfl rfl (h.order_unique h')
  | loadGarbage key height prev x i hi hp =>
    obtain ⟨v, hv⟩ := hw.1.load hi
    exact absurd (hv.symm.trans (hp _ (hw.1.prev_eq i hi))) (by simp)
  | own key height prev x i next =>
    obtain ⟨hlink, hi, -⟩ := hw
    exact .silent rfl rfl ((hlink.storeOwn hi next).1.levels.order_unique h')
  | publish key height prev x i p hp =>
    obtain ⟨hlink, hi, -, hnext⟩ := hw
    obtain rfl := Option.some.inj (hp.symm.trans (hlink.prev_eq i hi))
    obtain ⟨order'', linked'', hlink', -, horder⟩ := hlink.publish hi hnext
    have hsame := hlink'.levels.order_unique h'
    rw [horder] at hsame
    by_cases hi0 : i = 0
    · subst hi0
      rw [if_pos rfl] at hsame
      exact .link key x rfl rfl rfl (hlink.fresh rfl).2.1 (by rw [key_setNext]; exact hlink.key_eq)
        hsame
    · rw [if_neg hi0] at hsame
      refine .silent rfl ?_ hsame
      rw [writerPhase, writerPhase, if_neg hi0, if_neg (Nat.succ_ne_zero i)]
  | finish key height prev x i hi =>
    obtain ⟨-, hpos, -⟩ := hw
    refine .ret key rfl ?_ rfl (h.order_unique h')
    rw [writerPhase, if_neg (by omega)]

/-- A step of the writer is one of the sorted set, or does not show. -/
theorem Linear.writerStep {st : Shared K} {a : Atomic (SortedSet K) Thread (SetOp K) (SetResult K)}
    (hl : Linear cmp st a) {list : SkipList K} {w : Writer K} {done : List K}
    (hw : WriterStep cmp st.done st.list st.writer list w done) :
    shows st.writer w = none ∧ Linear cmp { st with list := list, writer := w, done := done } a ∨
      ∃ a', (atomic SortedSet.empty (SortedSet.Perform cmp)).step a (shows st.writer w) a' ∧
        Linear cmp { st with list := list, writer := w, done := done } a' := by
  obtain ⟨order, linked, hlevels, hdone, hwriter, hkeys, hphase, hiters⟩ := hl
  obtain ⟨order', linked', hlevels', hgrows, hdone', hwriter'⟩ :=
    writerStep_inv hlevels hdone hwriter hw
  have hiters' := fun i => hgrows.iterInv (hiters i)
  have hold : ∀ p : ℕ → Bool, (order.filter p).map list.key = (order.filter p).map st.list.key :=
    fun p => List.map_congr_left fun n hn => hgrows.key n (List.mem_filter.mp hn).1
  have hall : order.map list.key = order.map st.list.key :=
    List.map_congr_left fun n hn => hgrows.key n hn
  rcases writerStep_effect hlevels hwriter hw hlevels' with
    ⟨hshows, hsame, rfl⟩ | ⟨key, hshows, hidle, hcalled, rfl⟩ |
    ⟨key, x, hshows, hcalled, hover, hnew, hkey, horder⟩ | ⟨key, hshows, hover, hidle, rfl⟩
  · exact .inl ⟨hshows, order', linked', hlevels', hdone', hwriter', hkeys.trans hall.symm,
      hphase.trans hsame.symm, hiters'⟩
  · rw [hshows]
    refine .inr ⟨_, atomic_call (hphase.trans hidle), order', linked', hlevels', hdone',
      hwriter', hkeys.trans hall.symm, ?_, fun i => ?_⟩
    · simp only [hcalled, Function.update_self]
    · simpa using hiters' i
  · have hperform : SortedSet.Perform cmp a.object .writer (.insert key) .inserted _ :=
      .insert fun b hb => by
        rw [hkeys] at hb
        obtain ⟨n, hn, rfl⟩ := List.mem_map.mp hb
        exact hnew n hn
    rw [hshows]
    refine .inr ⟨_, atomic_perform (hphase.trans hcalled) hperform, order', linked', hlevels',
      hdone', hwriter', ?_, ?_, fun i => ?_⟩
    · simp only [SortedSet.insertItem]
      rw [hkeys, List.filter_map, List.filter_map, horder, List.map_append, List.map_cons, hkey,
        hold, hold]
      rfl
    · simp only [hover, Function.update_self]
    · simpa using hiters' i
  · rw [hshows]
    refine .inr ⟨_, atomic_ret (hphase.trans hover), order', linked', hlevels', hdone', hwriter',
      hkeys.trans hall.symm, ?_, fun i => ?_⟩
    · simp only [hidle, Function.update_self]
    · simpa using hiters' i

omit [TransCmp cmp] in
/-- A reader and its place in the sorted set move on together. -/
theorem linear_update {st : Shared K} {a : Atomic (SortedSet K) Thread (SetOp K) (SetResult K)}
    (hlevels : Levels cmp st.list order linked) (hdone : Committed st.list order st.done)
    (hwriter : WriterInv cmp st.list order linked st.done st.writer)
    (hkeys : a.object.items = order.map st.list.key)
    (hphase : a.phase .writer = writerPhase st.writer) (hiters : ∀ i,
      IterInv cmp st.list order linked (a.object.pos i) (a.phase (.reader i)) (st.iters i))
    {i : ℕ} {a' : SortedSet K} {phase : Phase (SetOp K) (SetResult K)} {it : Iter K}
    (hkeys' : a'.items = a.object.items) (hpos : ∀ j, j ≠ i → a'.pos j = a.object.pos j)
    (hinv : IterInv cmp st.list order linked (a'.pos i) phase it) :
    Linear cmp { st with iters := Function.update st.iters i it }
      ⟨a', Function.update a.phase (.reader i) phase⟩ := by
  refine ⟨order, linked, hlevels, hdone, hwriter, hkeys'.trans hkeys, ?_, fun j => ?_⟩
  · simpa using hphase
  · by_cases hj : j = i
    · subst hj
      simpa using hinv
    · have hne : Thread.reader j ≠ .reader i := fun heq => hj (Thread.reader.inj heq)
      simpa [Function.update_of_ne hj, Function.update_of_ne hne, hpos j hj] using hiters j

/-- A step of a reader is one of the sorted set, or does not show. -/
theorem Linear.readerStep {st : Shared K} {a : Atomic (SortedSet K) Thread (SetOp K) (SetResult K)}
    (hl : Linear cmp st a) {i : ℕ} {e : Option (Event Thread (SetOp K) (SetResult K))} {it : Iter K}
    (hr : IterStep cmp st.list (.reader i) (st.iters i) e it) :
    e = none ∧ Linear cmp { st with iters := Function.update st.iters i it } a ∨
      ∃ a', (atomic SortedSet.empty (SortedSet.Perform cmp)).step a e a' ∧
        Linear cmp { st with iters := Function.update st.iters i it } a' := by
  obtain ⟨order, linked, hlevels, hdone, hwriter, hkeys, hphase, hiters⟩ := hl
  have hone := hiters i
  have hall : ∀ {a' : SortedSet K} {phase : Phase (SetOp K) (SetResult K)} {it : Iter K},
      a'.items = a.object.items → (∀ j, j ≠ i → a'.pos j = a.object.pos j) →
      IterInv cmp st.list order linked (a'.pos i) phase it →
      Linear cmp { st with iters := Function.update st.iters i it }
        ⟨a', Function.update a.phase (.reader i) phase⟩ :=
    linear_update hlevels hdone hwriter hkeys hphase hiters
  have hquiet : ∀ {it : Iter K},
      IterInv cmp st.list order linked (a.object.pos i) (a.phase (.reader i)) it →
      Linear cmp { st with iters := Function.update st.iters i it } a := by
    intro it hinv
    have hsame : Linear cmp { st with iters := Function.update st.iters i it }
        ⟨a.object, Function.update a.phase (.reader i) (a.phase (.reader i))⟩ :=
      hall rfl (fun _ _ => rfl) hinv
    rwa [Function.update_eq_self] at hsame
  generalize hit : st.iters i = it₀ at hr hone
  cases hr with
  | call node q hallowed =>
    exact .inr ⟨_, atomic_call hone.2, hall rfl (fun _ _ => rfl) ⟨hone.1, rfl, hallowed⟩⟩
  | direct node q n next hsource hload =>
    obtain ⟨hs, hcalled, -⟩ := hone
    obtain ⟨a', hperform, hkeys', hpos, hs'⟩ := direct_perform hlevels hkeys hs hsource hload
    exact .inr ⟨_, atomic_perform hcalled hperform, hall hkeys' hpos ⟨hs', rfl⟩⟩
  | directGarbage node q n hsource hload =>
    obtain ⟨hs, -, -⟩ := hone
    obtain ⟨next, hnext⟩ := hlevels.source_loads hs.mem hsource
    exact absurd (hload.symm.trans hnext) (by simp)
  | height node q hsearches =>
    obtain ⟨hs, hcalled, hallowed⟩ := hone
    have hmax := hlevels.maxHeight
    exact .inl ⟨rfl, hquiet ⟨hs, hcalled, hallowed, hsearches, hlevels.probe_zero _ (by omega)⟩⟩
  | forward node q x level n hload hpast =>
    obtain ⟨hs, hcalled, hallowed, hsearches, hp⟩ := hone
    have hhead := Option.some.inj ((hlevels.next_of_probe hp).symm.trans hload)
    exact .inl ⟨rfl, hquiet ⟨hs, hcalled, hallowed, hsearches,
      (hlevels.probe_forward hp hhead hpast).1⟩⟩
  | down node q x level next hload hstop =>
    obtain ⟨hs, hcalled, hallowed, hsearches, hp⟩ := hone
    exact .inl ⟨rfl, hquiet ⟨hs, hcalled, hallowed, hsearches, Levels.probe_down hp⟩⟩
  | stop node q x next hload hstop =>
    obtain ⟨hs, hcalled, hallowed, hsearches, hp⟩ := hone
    obtain ⟨a', hperform, hkeys', hpos, hs'⟩ :=
      finish_perform hlevels hkeys hs hallowed hsearches hp hload hstop
    exact .inr ⟨_, atomic_perform hcalled hperform, hall hkeys' hpos ⟨hs', rfl⟩⟩
  | searchGarbage node q x level hload =>
    exact absurd (hload.symm.trans (hlevels.next_of_probe hone.2.2.2.2)) (by simp)
  | ret node q r =>
    exact .inr ⟨_, atomic_ret hone.2, hall rfl (fun _ _ => rfl) ⟨hone.1, rfl⟩⟩

/-- **Every step is one of the sorted set, or does not show.** -/
theorem shared_simulation :
    System.Simulation (shared cmp) (atomic SortedSet.empty (SortedSet.Perform cmp))
      (Linear cmp) where
  init := ⟨[], fun _ => kMaxHeight, levels_new, fun _ hk => absurd hk List.not_mem_nil,
    fun _ hn => absurd hn List.not_mem_nil, rfl, rfl, fun _ =>
      ⟨⟨fun _ hn => (by cases hn), rfl⟩, rfl⟩⟩
  step := by
    intro st e st' a hl hstep
    cases hstep with
    | writer hw => exact hl.writerStep hw
    | reader i hr => exact hl.readerStep hr

/-- **Skip lists are linearizable.** Every history of calls and returns, of `Insert` by the writer
and of `Contains` and the operations of iterators by the readers, is one of a sorted set in which
each operation is one step between its call and its return. No thread ever loads a slot that is not
initialised. -/
theorem linearizable {history : List (Event Thread (SetOp K) (SetResult K))} {st : Shared K}
    (h : (shared cmp).Run history st) :
    (∃ a, (atomic SortedSet.empty (SortedSet.Perform cmp)).Run history a) ∧ st.writer ≠ .garbage ∧
      ∀ i, st.iters i ≠ .garbage := by
  obtain ⟨a, hrun, order, linked, -, -, hwriter, -, -, hiters⟩ := shared_simulation.run h
  refine ⟨⟨a, hrun⟩, fun heq => ?_, fun i heq => ?_⟩
  · rw [heq] at hwriter
    exact hwriter
  · have hi := hiters i
    rw [heq] at hi
    exact hi

/-- An iterator finds the key of an `Insert` that has not returned. -/
theorem linearizable_during :
    ∃ a, (atomic SortedSet.empty (SortedSet.Perform (compare : ℕ → ℕ → Ordering))).Run
      [.call .writer (.insert 5), .call (.reader 0) (.query (.move .seekToLast)),
        .ret (.reader 0) (.query (.move .seekToLast)) (.position (some 5))] a := by
  have h₁ : (shared (compare : ℕ → ℕ → Ordering)).Run _ _ := .init
  have h₂ := h₁.step (.writer (.begin 5 (by simp [shared])))
  have h₃ := h₂.step (.writer (.enter 5))
  have h₄ := h₃.step (.writer (.searchDone 5 _ none none _ 1 rfl rfl (by decide)))
  have h₅ := h₄.step (.writer (.compareLow 5 1 _ (by decide)))
  have h₆ := h₅.step (.writer (.alloc 5 1 _))
  have h₇ := h₆.step (.writer (.load 5 1 _ _ 0 0 none (by decide) rfl rfl))
  have h₈ := h₇.step (.writer (.own 5 1 _ _ 0 none))
  have h₉ := h₈.step (.writer (.publish 5 1 _ _ 0 0 rfl))
  have h₁₀ := h₉.step (.reader 0 (.call none (.move .seekToLast) trivial))
  have h₁₁ := h₁₀.step (.reader 0 (.height none (.move .seekToLast) trivial))
  have h₁₂ := h₁₁.step (.reader 0 (.forward none (.move .seekToLast) 0 0 1 rfl rfl))
  have h₁₃ := h₁₂.step (.reader 0 (.stop none (.move .seekToLast) 1 none rfl (by simp)))
  have h₁₄ := h₁₃.step (.reader 0 (.ret _ (.move .seekToLast) _))
  exact (linearizable h₁₄).1

end SkipList

end Squirrel
