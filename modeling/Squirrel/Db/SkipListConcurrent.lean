import Squirrel.Db.SkipListInsert

/-!
# Readers beside a writer

One writer executes `Insert` after `Insert`; any number of readers execute `FindGreaterOrEqual` and
then `Next(0)`, with no lock. Every load and every store of a `next_` slot or of `max_height_` is
one step, and the steps interleave in any way. A thread that loads a slot which is not initialised
goes to `garbage`.

The states carry two ghost values: the keys whose `Insert` is over, and for each reader the ones
that were over when it started. A reader's search is a `Probe` in the list as it is at each moment;
as nodes are only ever added and linked at more levels, a probe stays a probe, and committed nodes
stay.

## Main results

* `step_inv` — every step preserves the invariant, one case for each kind of step
* `reader_reachable` — what readers see, in every reachable state
-/

namespace Squirrel

namespace SkipList

open Std

variable {K : Type} [Inhabited K]

/-! ### The model -/

/-- Where the writer is in `Insert`: each state names the access that comes next. -/
inductive Writer (K : Type)
  | idle
  /-- `GetMaxHeight()` at the start of `FindGreaterOrEqual`. -/
  | enter (key : K)
  /-- The load of `x->Next(level)` in `FindGreaterOrEqual`. -/
  | search (key : K) (st : Search)
  /-- `GetMaxHeight()` in the comparison with the height drawn. -/
  | compare (key : K) (height : ℕ) (prev : ℕ → Option ℕ)
  /-- `GetMaxHeight()` at the start of the loop that fills `prev`. -/
  | fill (key : K) (height : ℕ) (prev : ℕ → Option ℕ)
  /-- The store to `max_height_`. -/
  | raise (key : K) (height : ℕ) (prev : ℕ → Option ℕ)
  /-- `NewNode`. -/
  | alloc (key : K) (height : ℕ) (prev : ℕ → Option ℕ)
  /-- The load of `prev[i]->NoBarrier_Next(i)`, or the end of the loop. -/
  | load (key : K) (height : ℕ) (prev : ℕ → Option ℕ) (x i : ℕ)
  /-- `x->NoBarrier_SetNext(i, next)`. -/
  | own (key : K) (height : ℕ) (prev : ℕ → Option ℕ) (x i : ℕ) (next : Option ℕ)
  /-- `prev[i]->SetNext(i, x)`. -/
  | publish (key : K) (height : ℕ) (prev : ℕ → Option ℕ) (x i : ℕ)
  | garbage

/-- Where a reader is. `since` holds the keys whose `Insert` was over when it started. -/
inductive Reader (K : Type)
  | idle
  /-- `GetMaxHeight()` at the start of `FindGreaterOrEqual`. -/
  | enter (target : K) (since : List K)
  /-- The load of `x->Next(level)` in `FindGreaterOrEqual`. -/
  | search (target : K) (since : List K) (x level : ℕ)
  /-- `FindGreaterOrEqual` has returned, and `Next(0)` has been called any number of times: the
  nodes visited so far, and the result of the last call. -/
  | found (target : K) (since : List K) (visited : List ℕ) (cur : Option ℕ)
  | garbage

structure State (K : Type) where
  list : SkipList K
  writer : Writer K
  /-- The keys whose `Insert` is over. -/
  done : List K
  readers : ℕ → Reader K

def State.init : State K := ⟨new, .idle, [], fun _ => .idle⟩

/-- A step of the writer, from a list and a program point. `Insert` may be called for a key that
equals no key in the list; the height is drawn after the search. -/
inductive WriterStep (cmp : K → K → Ordering) (done : List K) (s : SkipList K) :
    Writer K → SkipList K → Writer K → List K → Prop
  | begin (key : K) (hnew : ∀ k ∈ done, cmp k key ≠ .eq) :
    WriterStep cmp done s .idle s (.enter key) done
  | enter (key : K) :
    WriterStep cmp done s (.enter key) s (.search key ⟨0, s.maxHeight - 1, fun _ => none⟩) done
  | searchOn (key : K) (st st' : Search) (next : Option ℕ)
    (hload : s.next st.x st.level = some next) (hturn : turn cmp s key st next = .inl st') :
    WriterStep cmp done s (.search key st) s (.search key st') done
  | searchDone (key : K) (st : Search) (next r : Option ℕ) (prev : ℕ → Option ℕ) (height : ℕ)
    (hload : s.next st.x st.level = some next) (hturn : turn cmp s key st next = .inr (r, prev))
    (hheight : 1 ≤ height ∧ height ≤ kMaxHeight) :
    WriterStep cmp done s (.search key st) s (.compare key height prev) done
  | searchGarbage (key : K) (st : Search) (hload : s.next st.x st.level = none) :
    WriterStep cmp done s (.search key st) s .garbage done
  | compareLow (key : K) (height : ℕ) (prev : ℕ → Option ℕ) (h : height ≤ s.maxHeight) :
    WriterStep cmp done s (.compare key height prev) s (.alloc key height prev) done
  | compareHigh (key : K) (height : ℕ) (prev : ℕ → Option ℕ) (h : s.maxHeight < height) :
    WriterStep cmp done s (.compare key height prev) s (.fill key height prev) done
  | fill (key : K) (height : ℕ) (prev : ℕ → Option ℕ) :
    WriterStep cmp done s (.fill key height prev) s
      (.raise key height (fillPrev prev s.maxHeight height)) done
  | raise (key : K) (height : ℕ) (prev : ℕ → Option ℕ) :
    WriterStep cmp done s (.raise key height prev) { s with maxHeight := height }
      (.alloc key height prev) done
  | alloc (key : K) (height : ℕ) (prev : ℕ → Option ℕ) :
    WriterStep cmp done s (.alloc key height prev) (s.newNode key height).2
      (.load key height prev (s.newNode key height).1 0) done
  | load (key : K) (height : ℕ) (prev : ℕ → Option ℕ) (x i p : ℕ) (next : Option ℕ)
    (hi : i < height) (hp : prev i = some p) (hload : s.next p i = some next) :
    WriterStep cmp done s (.load key height prev x i) s (.own key height prev x i next) done
  | loadGarbage (key : K) (height : ℕ) (prev : ℕ → Option ℕ) (x i : ℕ) (hi : i < height)
    (hp : ∀ p, prev i = some p → s.next p i = none) :
    WriterStep cmp done s (.load key height prev x i) s .garbage done
  | own (key : K) (height : ℕ) (prev : ℕ → Option ℕ) (x i : ℕ) (next : Option ℕ) :
    WriterStep cmp done s (.own key height prev x i next) (s.setNext x i next)
      (.publish key height prev x i) done
  | publish (key : K) (height : ℕ) (prev : ℕ → Option ℕ) (x i p : ℕ) (hp : prev i = some p) :
    WriterStep cmp done s (.publish key height prev x i) (s.setNext p i (some x))
      (.load key height prev x (i + 1)) done
  | finish (key : K) (height : ℕ) (prev : ℕ → Option ℕ) (x i : ℕ) (hi : height ≤ i) :
    WriterStep cmp done s (.load key height prev x i) s .idle (key :: done)

/-- A step of a reader. -/
inductive ReaderStep (cmp : K → K → Ordering) (done : List K) (s : SkipList K) :
    Reader K → Reader K → Prop
  | start (target : K) : ReaderStep cmp done s .idle (.enter target done)
  | enter (target : K) (since : List K) :
    ReaderStep cmp done s (.enter target since) (.search target since 0 (s.maxHeight - 1))
  | searchOn (target : K) (since : List K) (x level : ℕ) (next : Option ℕ) (st : Search)
    (hload : s.next x level = some next)
    (hturn : turn cmp s target ⟨x, level, fun _ => none⟩ next = .inl st) :
    ReaderStep cmp done s (.search target since x level) (.search target since st.x st.level)
  | searchDone (target : K) (since : List K) (x level : ℕ) (next r : Option ℕ)
    (prev : ℕ → Option ℕ) (hload : s.next x level = some next)
    (hturn : turn cmp s target ⟨x, level, fun _ => none⟩ next = .inr (r, prev)) :
    ReaderStep cmp done s (.search target since x level) (.found target since r.toList r)
  | searchGarbage (target : K) (since : List K) (x level : ℕ) (hload : s.next x level = none) :
    ReaderStep cmp done s (.search target since x level) .garbage
  | next (target : K) (since : List K) (visited : List ℕ) (n : ℕ) (next : Option ℕ)
    (hload : s.next n 0 = some next) :
    ReaderStep cmp done s (.found target since visited (some n))
      (.found target since (visited ++ next.toList) next)
  | nextGarbage (target : K) (since : List K) (visited : List ℕ) (n : ℕ)
    (hload : s.next n 0 = none) :
    ReaderStep cmp done s (.found target since visited (some n)) .garbage
  | rest (target : K) (since : List K) (visited : List ℕ) (cur : Option ℕ) :
    ReaderStep cmp done s (.found target since visited cur) .idle

/-- A step of the system: of the writer, or of one reader. -/
inductive Step (cmp : K → K → Ordering) : State K → State K → Prop
  | writer {s : State K} {list : SkipList K} {w : Writer K} {done : List K}
    (h : WriterStep cmp s.done s.list s.writer list w done) :
    Step cmp s { s with list := list, writer := w, done := done }
  | reader {s : State K} (i : ℕ) {r : Reader K}
    (h : ReaderStep cmp s.done s.list (s.readers i) r) :
    Step cmp s { s with readers := Function.update s.readers i r }

/-- The states of any interleaving. -/
inductive Reachable (cmp : K → K → Ordering) : State K → Prop
  | init : Reachable cmp .init
  | step {s s' : State K} (h : Reachable cmp s) (hstep : Step cmp s s') : Reachable cmp s'

/-! ### The invariant -/

variable {cmp : K → K → Ordering} {s s' : SkipList K} {order order' : List ℕ}
  {linked linked' : ℕ → ℕ}

/-- The keys are keys of nodes in the list. -/
def Committed (s : SkipList K) (order : List ℕ) (keys : List K) : Prop :=
  ∀ k ∈ keys, ∃ n ∈ order, s.key n = k

variable (cmp) in
/-- Between two calls, or before the new node is in the list: all nodes are committed, and none
equals the key. -/
def Fresh (s : SkipList K) (order : List ℕ) (done : List K) (key : K) : Prop :=
  ∀ n ∈ order, s.key n ∈ done ∧ cmp (s.key n) key ≠ .eq

variable (cmp) in
/-- The entries of `prev` from level `lo` on, below level `hi`, are right. -/
def PrevFilled (s : SkipList K) (order : List ℕ) (linked : ℕ → ℕ) (key : K) (prev : ℕ → Option ℕ)
    (lo hi : ℕ) : Prop :=
  ∀ j, lo ≤ j → j < hi → prev j = some (prevOf order linked (before cmp s key) j)

variable (cmp) in
/-- What holds at each program point of the writer. -/
def WriterInv (s : SkipList K) (order : List ℕ) (linked : ℕ → ℕ) (done : List K) : Writer K → Prop
  | .idle => ∀ n ∈ order, s.key n ∈ done
  | .enter key => Fresh cmp s order done key
  | .search key st => Fresh cmp s order done key ∧
      Probe order linked (before cmp s key) st.x st.level ∧ st.level < s.maxHeight ∧
      PrevFilled cmp s order linked key st.prev (st.level + 1) s.maxHeight
  | .compare key height prev => Fresh cmp s order done key ∧ (1 ≤ height ∧ height ≤ kMaxHeight) ∧
      PrevFilled cmp s order linked key prev 0 s.maxHeight
  | .fill key height prev => Fresh cmp s order done key ∧ (1 ≤ height ∧ height ≤ kMaxHeight) ∧
      PrevFilled cmp s order linked key prev 0 s.maxHeight ∧ s.maxHeight < height
  | .raise key height prev => Fresh cmp s order done key ∧ (1 ≤ height ∧ height ≤ kMaxHeight) ∧
      PrevFilled cmp s order linked key prev 0 height ∧ s.maxHeight < height
  | .alloc key height prev => Fresh cmp s order done key ∧ (1 ≤ height ∧ height ≤ s.maxHeight) ∧
      PrevFilled cmp s order linked key prev 0 height
  | .load key height prev x i => Linking cmp s order linked x key height prev i ∧ 0 < height ∧
      ∀ n ∈ order, n ≠ x → s.key n ∈ done
  | .own key height prev x i next => Linking cmp s order linked x key height prev i ∧ i < height ∧
      (∀ n ∈ order, n ≠ x → s.key n ∈ done) ∧
      s.next (prevOf order linked (before cmp s key) i) i = some next
  | .publish key height prev x i => Linking cmp s order linked x key height prev i ∧ i < height ∧
      (∀ n ∈ order, n ≠ x → s.key n ∈ done) ∧
      s.next x i = s.next (prevOf order linked (before cmp s key) i) i
  | .garbage => False

variable (cmp) in
/-- What holds at each program point of a reader. -/
def ReaderInv (s : SkipList K) (order : List ℕ) (linked : ℕ → ℕ) : Reader K → Prop
  | .idle => True
  | .enter _ since => Committed s order since
  | .search target since x level => Committed s order since ∧
      Probe order linked (before cmp s target) x level
  | .found target since visited cur => Committed s order since ∧ (∀ n ∈ visited, n ∈ order) ∧
      visited.Pairwise (fun a b => cmp (s.key a) (s.key b) = .lt) ∧
      (∀ n ∈ visited, cmp (s.key n) target ≠ .lt) ∧
        (∀ n, cur = some n → visited.getLast? = some n) ∧
      ∀ k ∈ since, cmp k target ≠ .lt →
        (∃ n ∈ visited, s.key n = k) ∨ ∃ n, cur = some n ∧ cmp (s.key n) k = .lt
  | .garbage => False

variable (cmp) in
def Inv (st : State K) : Prop :=
  ∃ order linked, Levels cmp st.list order linked ∧ Committed st.list order st.done ∧
    WriterInv cmp st.list order linked st.done st.writer ∧
    ∀ i, ReaderInv cmp st.list order linked (st.readers i)

/-! ### What the writer never takes back -/

/-- Nodes stay in the list, with their keys, and are only linked at more levels. -/
structure Grows (s s' : SkipList K) (order order' : List ℕ) (linked linked' : ℕ → ℕ) : Prop where
  key : ∀ n ∈ order, s'.key n = s.key n
  mem : ∀ n ∈ order, n ∈ order'
  linked : ∀ n ∈ 0 :: order, linked n ≤ linked' n

theorem Grows.committed (h : Grows s s' order order' linked linked') {keys : List K}
    (hc : Committed s order keys) : Committed s' order' keys := by
  intro k hk
  obtain ⟨n, hn, rfl⟩ := hc k hk
  exact ⟨n, h.mem n hn, h.key n hn⟩

/-- A search stays where it can stand. -/
theorem Grows.probe (h : Grows s s' order order' linked linked') {k : K} {x ℓ : ℕ}
    (hp : Probe order linked (before cmp s k) x ℓ) :
    Probe order' linked' (before cmp s' k) x ℓ := by
  refine ⟨?_, hp.linked.trans_le (h.linked x hp.mem), fun hx => ?_⟩
  · rcases List.mem_cons.mp hp.mem with rfl | hx
    · exact List.mem_cons_self
    · exact List.mem_cons_of_mem 0 (h.mem x hx)
  · have hmem : x ∈ order := (List.mem_cons.mp hp.mem).resolve_left hx
    rw [before, h.key x hmem]
    exact hp.past hx

/-- **What a reader has seen stays true** while the writer goes on. -/
theorem Grows.readerInv (h : Grows s s' order order' linked linked') {r : Reader K}
    (hr : ReaderInv cmp s order linked r) : ReaderInv cmp s' order' linked' r := by
  cases r with
  | idle => trivial
  | enter target since => exact h.committed hr
  | search target since x level => exact ⟨h.committed hr.1, h.probe hr.2⟩
  | found target since visited cur =>
    obtain ⟨hc, hsub, hsorted, hge, hcur, hseen⟩ := hr
    refine ⟨h.committed hc, fun n hn => h.mem n (hsub n hn), ?_, fun n hn => ?_, hcur, ?_⟩
    · refine hsorted.imp_of_mem fun {a b} ha hb hab => ?_
      rw [h.key a (hsub a ha), h.key b (hsub b hb)]
      exact hab
    · rw [h.key n (hsub n hn)]
      exact hge n hn
    · intro k hk hkt
      rcases hseen k hk hkt with ⟨n, hn, hkey⟩ | ⟨n, hn, hlt⟩
      · exact Or.inl ⟨n, hn, (h.key n (hsub n hn)).trans hkey⟩
      · refine Or.inr ⟨n, hn, ?_⟩
        rw [h.key n (hsub n (List.mem_of_getLast? (hcur n hn)))]
        exact hlt
  | garbage => exact hr

theorem grows_refl (s : SkipList K) (order : List ℕ) (linked : ℕ → ℕ) :
    Grows s s order order linked linked :=
  ⟨fun _ _ => rfl, fun _ hn => hn, fun _ _ => le_rfl⟩

/-! ### Readers -/

/-- On the bottom level a node points to its successor. -/
theorem Levels.successor (h : Levels cmp s order linked) {n : ℕ} (hn : n ∈ order) :
    ∃ pre post, order = pre ++ n :: post ∧ s.next n 0 = some post.head? := by
  obtain ⟨pre, hpre⟩ := exists_eq_append_after hn
  have hne : (0 : ℕ) ≠ n := fun heq => h.zero_notMem (heq ▸ hn)
  have hchain := h.chain_of_mem (List.mem_cons_of_mem 0 hn) (h.pos n hn).1
  rw [after_cons_of_ne hne, List.filter_eq_self.mpr fun m hm => by
    simpa using (h.pos m (after_subset m hm)).1] at hchain
  exact ⟨pre, after n order, hpre, hchain.next_eq⟩

variable [TransCmp cmp]

/-- A round of a reader's search. -/
theorem reader_searchOn (h : Levels cmp s order linked) {target : K} {since : List K} {x level : ℕ}
    {next : Option ℕ} {st : Search}
    (hr : ReaderInv cmp s order linked (.search target since x level))
    (hload : s.next x level = some next)
    (hturn : turn cmp s target ⟨x, level, fun _ => none⟩ next = .inl st) :
    ReaderInv cmp s order linked (.search target since st.x st.level) := by
  obtain ⟨hc, hp⟩ := hr
  rcases h.turn_cases ⟨x, level, fun _ => none⟩ hp hload with
    ⟨n, hturn', hp', -⟩ | ⟨-, ⟨hℓ, hturn'⟩ | ⟨hℓ, hturn'⟩⟩
  · cases hturn.symm.trans hturn'
    exact ⟨hc, hp'⟩
  · cases hturn.symm.trans hturn'
    exact ⟨hc, Levels.probe_down hp⟩
  · exact absurd (hturn.symm.trans hturn') (by simp)

omit [TransCmp cmp] in
/-- A node that is not before the target is the first such node, or behind it. -/
theorem Levels.find?_cases (h : Levels cmp s order linked) {target : K} {m : ℕ} (hm : m ∈ order)
    (hge : cmp (s.key m) target ≠ .lt) :
    ∃ n, order.find? (fun n => !before cmp s target n) = some n ∧
      (m = n ∨ cmp (s.key n) (s.key m) = .lt) := by
  cases hres : order.find? fun n => !before cmp s target n with
  | none =>
    have hnone := List.find?_eq_none.mp hres m hm
    simp [before, hge] at hnone
  | some n =>
    obtain ⟨-, pre, post, hsplit, hpre⟩ := List.find?_eq_some_iff_append.mp hres
    refine ⟨n, rfl, ?_⟩
    rw [hsplit] at hm
    rcases List.mem_append.mp hm with hm | hm
    · have hb := hpre m hm
      simp [before, hge] at hb
    · rcases List.mem_cons.mp hm with rfl | hm
      · exact Or.inl rfl
      · have hsorted := h.sorted
        rw [hsplit] at hsorted
        exact Or.inr ((List.pairwise_cons.mp (List.pairwise_append.mp hsorted).2.1).1 m hm)

/-- The end of a reader's search: it is at the first node that is not before the target. -/
theorem reader_searchDone (h : Levels cmp s order linked) {target : K} {since : List K}
    {x level : ℕ} {next r : Option ℕ} {prev : ℕ → Option ℕ}
    (hr : ReaderInv cmp s order linked (.search target since x level))
    (hload : s.next x level = some next)
    (hturn : turn cmp s target ⟨x, level, fun _ => none⟩ next = .inr (r, prev)) :
    ReaderInv cmp s order linked (.found target since r.toList r) := by
  obtain ⟨hc, hp⟩ := hr
  rcases h.turn_cases ⟨x, level, fun _ => none⟩ hp hload with
    ⟨n, hturn', -⟩ | ⟨-, ⟨hℓ, hturn'⟩ | ⟨hℓ, hturn'⟩⟩
  · exact absurd (hturn.symm.trans hturn') (by simp)
  · exact absurd (hturn.symm.trans hturn') (by simp)
  · cases hturn.symm.trans hturn'
    have hmem : ∀ n ∈ (order.find? fun n => !before cmp s target n).toList,
        order.find? (fun n => !before cmp s target n) = some n := fun n hn => by
      simpa using hn
    refine ⟨hc, fun n hn => List.mem_of_find?_eq_some (hmem n hn), ?_, fun n hn => ?_,
      fun n hn => by rw [hn]; rfl, fun k hk hkt => ?_⟩
    · cases order.find? fun n => !before cmp s target n with
      | none => exact List.Pairwise.nil
      | some n => exact List.pairwise_singleton _ n
    · have hn' := List.find?_some (hmem n hn)
      simpa [before] using hn'
    · obtain ⟨m, hm, rfl⟩ := hc k hk
      obtain ⟨n, hres, rfl | hlt⟩ := h.find?_cases hm hkt
      · exact Or.inl ⟨m, by simp [hres], rfl⟩
      · exact Or.inr ⟨n, hres, hlt⟩

/-- A node with a greater key than `n` is the successor of `n` or behind that. -/
theorem Levels.successor_cases (h : Levels cmp s order linked) {pre post : List ℕ} {n q : ℕ}
    (hsplit : order = pre ++ n :: post) (hq : q ∈ order) (hlt : cmp (s.key n) (s.key q) = .lt) :
    ∃ m, post.head? = some m ∧ (q = m ∨ cmp (s.key m) (s.key q) = .lt) := by
  have hsorted := h.sorted
  rw [hsplit] at hsorted hq
  obtain ⟨-, hback, hcross⟩ := List.pairwise_append.mp hsorted
  have hpost : q ∈ post := by
    rcases List.mem_append.mp hq with hq | hq
    · exact absurd hlt (OrientedCmp.not_lt_of_lt (hcross q hq n List.mem_cons_self))
    · refine (List.mem_cons.mp hq).resolve_left fun heq => ?_
      have hself : cmp (s.key n) (s.key n) = .eq := ReflCmp.compare_self
      rw [heq, hself] at hlt
      exact absurd hlt (by simp)
  cases post with
  | nil => exact absurd hpost List.not_mem_nil
  | cons m post =>
    refine ⟨m, rfl, ?_⟩
    rcases List.mem_cons.mp hpost with rfl | hq
    · exact Or.inl rfl
    · exact Or.inr ((List.pairwise_cons.mp (List.pairwise_cons.mp hback).2).1 q hq)

/-- A call of `Next(0)`: the scan goes on to the next node. -/
theorem reader_next (h : Levels cmp s order linked) {target : K} {since : List K} {visited : List ℕ}
    {n : ℕ} {next : Option ℕ}
    (hr : ReaderInv cmp s order linked (.found target since visited (some n)))
    (hload : s.next n 0 = some next) :
    ReaderInv cmp s order linked (.found target since (visited ++ next.toList) next) := by
  obtain ⟨hc, hsub, hsorted, hge, hcur, hseen⟩ := hr
  obtain ⟨front, rfl⟩ := List.getLast?_eq_some_iff.mp (hcur n rfl)
  obtain ⟨pre, post, hsplit, hnext⟩ := h.successor (hsub n (by simp))
  obtain rfl := Option.some.inj (hload.symm.trans hnext)
  have hbehind : ∀ m ∈ post.head?.toList, m ∈ post ∧ cmp (s.key n) (s.key m) = .lt := by
    intro m hm
    have hpair := h.sorted
    rw [hsplit] at hpair
    have hpost : m ∈ post := List.mem_of_mem_head? (by simpa using hm)
    exact ⟨hpost, (List.pairwise_cons.mp (List.pairwise_append.mp hpair).2.1).1 m hpost⟩
  refine ⟨hc, fun m hm => ?_, ?_, fun m hm => ?_, fun m hm => by rw [hm]; simp, fun k hk hkt => ?_⟩
  · rcases List.mem_append.mp hm with hm | hm
    · exact hsub m hm
    · rw [hsplit]
      exact List.mem_append_right _ (List.mem_cons_of_mem n (hbehind m hm).1)
  · refine List.pairwise_append.mpr ⟨hsorted, ?_, fun a ha m hm => ?_⟩
    · cases post.head? with
      | none => exact List.Pairwise.nil
      | some m => exact List.pairwise_singleton _ m
    · rcases List.mem_append.mp ha with ha | ha
      · exact TransCmp.lt_trans
          ((List.pairwise_append.mp hsorted).2.2 a ha n List.mem_cons_self) (hbehind m hm).2
      · rw [List.mem_singleton.mp ha]
        exact (hbehind m hm).2
  · rcases List.mem_append.mp hm with hm | hm
    · exact hge m hm
    · intro hlt
      exact hge n (by simp) (TransCmp.lt_trans (hbehind m hm).2 hlt)
  · rcases hseen k hk hkt with ⟨m, hm, hkey⟩ | ⟨m, hm, hlt⟩
    · exact Or.inl ⟨m, List.mem_append_left _ hm, hkey⟩
    · -- The key is behind `n`, so it is at the new node or behind it.
      cases hm
      obtain ⟨q, hq, rfl⟩ := hc k hk
      obtain ⟨m, hhead, rfl | hlt'⟩ := h.successor_cases hsplit hq hlt
      · exact Or.inl ⟨q, by simp [hhead], rfl⟩
      · exact Or.inr ⟨m, hhead, hlt'⟩

/-- A step of a reader: it never loads a slot that is not initialised, and what it finds is
right. -/
theorem readerStep_inv (h : Levels cmp s order linked) {done : List K}
    (hdone : Committed s order done) {r r' : Reader K} (hr : ReaderInv cmp s order linked r)
    (hstep : ReaderStep cmp done s r r') : ReaderInv cmp s order linked r' := by
  cases hstep with
  | start target => exact hdone
  | enter target since =>
    have hmax := h.maxHeight
    exact ⟨hr, h.probe_zero _ (by omega)⟩
  | searchOn target since x level next st hload hturn => exact reader_searchOn h hr hload hturn
  | searchDone target since x level next r prev hload hturn =>
    exact reader_searchDone h hr hload hturn
  | searchGarbage target since x level hload =>
    exact absurd (hload.symm.trans (h.next_of_probe hr.2)) (by simp)
  | next target since visited n next hload => exact reader_next h hr hload
  | nextGarbage target since visited n hload =>
    obtain ⟨hc, hsub, -, -, hcur, -⟩ := hr
    have hn : n ∈ order := hsub n (List.mem_of_getLast? (hcur n rfl))
    have hchain := h.chain_of_mem (List.mem_cons_of_mem 0 hn) (h.pos n hn).1
    exact absurd (hload.symm.trans hchain.next_eq) (by simp)
  | rest target since visited cur => trivial

/-! ### The writer -/

/-- A round of the writer's search. -/
theorem writer_searchOn (h : Levels cmp s order linked) {done : List K} {key : K} {st st' : Search}
    {next : Option ℕ} (hw : WriterInv cmp s order linked done (.search key st))
    (hload : s.next st.x st.level = some next) (hturn : turn cmp s key st next = .inl st') :
    WriterInv cmp s order linked done (.search key st') := by
  obtain ⟨hfresh, hp, hlevel, hprev⟩ := hw
  rcases h.turn_cases st hp hload with ⟨n, hturn', hp', -⟩ | ⟨hx, ⟨hℓ, hturn'⟩ | ⟨hℓ, hturn'⟩⟩
  · cases hturn.symm.trans hturn'
    exact ⟨hfresh, hp', hlevel, hprev⟩
  · cases hturn.symm.trans hturn'
    refine ⟨hfresh, Levels.probe_down hp, by simp only; omega, fun j hlo hhi => ?_⟩
    simp only at hlo ⊢
    rcases Nat.lt_or_ge st.level j with hlt | hge
    · rw [Function.update_of_ne (Nat.ne_of_gt hlt)]
      exact hprev j hlt hhi
    · obtain rfl : j = st.level := by omega
      rw [Function.update_self, hx]
  · exact absurd (hturn.symm.trans hturn') (by simp)

/-- The end of the writer's search: `prev` is filled up to the height of the list. -/
theorem writer_searchDone (h : Levels cmp s order linked) {done : List K} {key : K} {st : Search}
    {next r : Option ℕ} {prev : ℕ → Option ℕ} {height : ℕ}
    (hw : WriterInv cmp s order linked done (.search key st))
    (hload : s.next st.x st.level = some next) (hturn : turn cmp s key st next = .inr (r, prev))
    (hheight : 1 ≤ height ∧ height ≤ kMaxHeight) :
    WriterInv cmp s order linked done (.compare key height prev) := by
  obtain ⟨hfresh, hp, hlevel, hprev⟩ := hw
  rcases h.turn_cases st hp hload with ⟨n, hturn', -⟩ | ⟨hx, ⟨hℓ, hturn'⟩ | ⟨hℓ, hturn'⟩⟩
  · exact absurd (hturn.symm.trans hturn') (by simp)
  · exact absurd (hturn.symm.trans hturn') (by simp)
  · cases hturn.symm.trans hturn'
    refine ⟨hfresh, hheight, fun j _ hhi => ?_⟩
    rw [hℓ] at hx ⊢
    rcases Nat.eq_zero_or_pos j with rfl | hpos
    · rw [Function.update_self, hx]
    · rw [Function.update_of_ne (Nat.ne_of_gt hpos)]
      exact hprev j (by omega) hhi

omit [TransCmp cmp] in
/-- Above the height of the list, `head_` is in front of every key. -/
theorem writer_fill (h : Levels cmp s order linked) {key : K} {height : ℕ} {prev : ℕ → Option ℕ}
    (hprev : PrevFilled cmp s order linked key prev 0 s.maxHeight) :
    PrevFilled cmp s order linked key (fillPrev prev s.maxHeight height) 0 height := by
  intro j _ hj
  rw [fillPrev]
  split
  · next hc =>
    have hnone : (order.filter (before cmp s key)).filter (fun n => j < linked n) = [] := by
      refine List.filter_eq_nil_iff.mpr fun n hn => ?_
      have := (h.pos n (List.mem_filter.mp hn).1).2
      simp only [decide_eq_true_eq]
      omega
    rw [prevOf, hnone, List.getLastD_nil]
  · exact hprev j (Nat.zero_le j) (by omega)

omit [TransCmp cmp] in
/-- The new node is allocated, and not in the list yet. -/
theorem writer_alloc (h : Levels cmp s order linked) {done : List K} {key : K} {height : ℕ}
    {prev : ℕ → Option ℕ} (hfresh : Fresh cmp s order done key)
    (hheight : 1 ≤ height ∧ height ≤ s.maxHeight)
    (hprev : PrevFilled cmp s order linked key prev 0 height) :
    Linking cmp (s.newNode key height).2 order linked s.nodes.length key height prev 0 := by
  have hsize := h.size
  have hlen : (s.newNode key height).2.nodes.length = s.nodes.length + 1 := by
    simp [SkipList.newNode]
  have hnew : (s.newNode key height).2.node s.nodes.length = ⟨key, List.replicate height none⟩ :=
    node_newNode_self s key height
  have hold : ∀ n ∈ order, (s.newNode key height).2.key n = s.key n := fun n hn => by
    rw [SkipList.key, node_newNode s key height (h.alloc n hn).2, SkipList.key]
  refine ⟨h.newNode key height, ⟨by omega, by omega⟩, by rw [SkipList.key, hnew], ?_, hheight.2,
    fun j hj => ?_, fun _ => ⟨fun hmem => ?_, fun n hn => ?_, by omega⟩, fun hc => absurd rfl hc⟩
  · rw [SkipList.height, hnew, List.length_replicate]
  · have hbefore : order.filter (before cmp (s.newNode key height).2 key)
        = order.filter (before cmp s key) :=
      List.filter_congr fun n hn => by rw [before, before, hold n hn]
    rw [prevOf, hbefore, ← prevOf]
    exact hprev j (Nat.zero_le j) hj
  · exact absurd (h.alloc _ hmem).2 (Nat.lt_irrefl _)
  · rw [hold n hn]
    exact (hfresh n hn).2

omit [TransCmp cmp] in
/-- Allocating a node changes nothing in the list. -/
theorem grows_newNode (h : Levels cmp s order linked) (key : K) (height : ℕ) :
    Grows s (s.newNode key height).2 order order linked linked := by
  refine ⟨fun n hn => ?_, fun _ hn => hn, fun _ _ => le_rfl⟩
  rw [SkipList.key, node_newNode s key height (h.alloc n hn).2, SkipList.key]

/-- Linking the new node at level `i` puts it into the list, if `i` is the bottom level, and adds
nothing else. -/
theorem writer_publish (h : Levels cmp s order linked) {x i height : ℕ} {key : K}
    {prev : ℕ → Option ℕ} (hlink : Linking cmp s order linked x key height prev i) (hi : i < height)
    (hnext : s.next x i = s.next (prevOf order linked (before cmp s key) i) i) :
    ∃ order' linked',
      Linking cmp (s.setNext (prevOf order linked (before cmp s key) i) i (some x)) order' linked' x
        key height prev (i + 1) ∧
      Grows s (s.setNext (prevOf order linked (before cmp s key) i) i (some x)) order order' linked
        linked' ∧
      ∀ n ∈ order', n ∈ order ∨ n = x := by
  obtain ⟨order', linked', hlink', rfl, horder⟩ := hlink.publish hi hnext
  have hmem : ∀ n, n ∈ order' ↔ n ∈ order ∨ i = 0 ∧ n = x := by
    intro n
    rw [horder]
    split
    · next hi0 =>
      conv_rhs => rw [h.order_eq (closed_before s key)]
      rw [List.mem_append, List.mem_cons, List.mem_append]
      tauto
    · next hi0 => exact ⟨Or.inl, fun hn => hn.resolve_right fun hc => hi0 hc.1⟩
  refine ⟨order', _, hlink', ⟨fun n _ => key_setNext s _ i _ n,
    fun n hn => (hmem n).mpr (Or.inl hn), fun n hn => ?_⟩, fun n hn =>
      ((hmem n).mp hn).imp_right And.right⟩
  by_cases hnx : n = x
  · subst hnx
    rw [Function.update_self]
    rcases Nat.eq_zero_or_pos i with hi0 | hpos
    · have hn0 : n ≠ 0 := Nat.pos_iff_ne_zero.mp hlink.alloc.1
      exact absurd ((List.mem_cons.mp hn).resolve_left hn0) (hlink.fresh hi0).1
    · rw [(hlink.done (Nat.pos_iff_ne_zero.mp hpos)).2]
      exact Nat.le_succ i
  · rw [Function.update_of_ne hnx]

omit [TransCmp cmp] in
/-- With the end of `Insert`, the key of its node is one of those that are done. -/
theorem writer_finish {x : ℕ} {key : K} {done : List K} (hx : x ∈ order) (hkey : s.key x = key)
    (hdone : Committed s order done) (hkeys : ∀ n ∈ order, n ≠ x → s.key n ∈ done) :
    Committed s order (key :: done) ∧ ∀ n ∈ order, s.key n ∈ key :: done := by
  constructor
  · intro k hk
    rcases List.mem_cons.mp hk with rfl | hk
    · exact ⟨x, hx, hkey⟩
    · exact hdone k hk
  · intro n hn
    by_cases hnx : n = x
    · rw [hnx, hkey]
      exact List.mem_cons_self
    · exact List.mem_cons_of_mem key (hkeys n hn hnx)

/-- **A step of the writer** keeps the levels, only adds to them, and takes the writer from one
program point's condition to the next one's. -/
theorem writerStep_inv (h : Levels cmp s order linked) {done done' : List K} {w w' : Writer K}
    (hdone : Committed s order done) (hw : WriterInv cmp s order linked done w)
    (hstep : WriterStep cmp done s w s' w' done') :
    ∃ order' linked', Levels cmp s' order' linked' ∧ Grows s s' order order' linked linked' ∧
      Committed s' order' done' ∧ WriterInv cmp s' order' linked' done' w' := by
  have hsame : Grows s s order order linked linked := grows_refl s order linked
  cases hstep with
  | begin key hnew =>
    exact ⟨order, linked, h, hsame, hdone, fun n hn => ⟨hw n hn, hnew _ (hw n hn)⟩⟩
  | enter key =>
    have hmax := h.maxHeight
    have hlevel : s.maxHeight - 1 < s.maxHeight := by omega
    refine ⟨order, linked, h, hsame, hdone, hw, h.probe_zero _ (hlevel.trans_le hmax.2), hlevel, ?_⟩
    intro j hlo hhi
    simp only at hlo
    omega
  | searchOn key st st' next hload hturn =>
    exact ⟨order, linked, h, hsame, hdone, writer_searchOn h hw hload hturn⟩
  | searchDone key st next r prev height hload hturn hheight =>
    exact ⟨order, linked, h, hsame, hdone, writer_searchDone h hw hload hturn hheight⟩
  | searchGarbage key st hload =>
    exact absurd (hload.symm.trans (h.next_of_probe hw.2.1)) (by simp)
  | compareLow key height prev hle =>
    obtain ⟨hfresh, hheight, hprev⟩ := hw
    exact ⟨order, linked, h, hsame, hdone, hfresh, ⟨hheight.1, hle⟩,
      fun j hlo hhi => hprev j hlo (hhi.trans_le hle)⟩
  | compareHigh key height prev hlt =>
    obtain ⟨hfresh, hheight, hprev⟩ := hw
    exact ⟨order, linked, h, hsame, hdone, hfresh, hheight, hprev, hlt⟩
  | fill key height prev =>
    obtain ⟨hfresh, hheight, hprev, hlt⟩ := hw
    exact ⟨order, linked, h, hsame, hdone, hfresh, hheight, writer_fill h hprev, hlt⟩
  | raise key height prev =>
    obtain ⟨hfresh, hheight, hprev, hlt⟩ := hw
    exact ⟨order, linked, h.raise hlt.le hheight.2,
      ⟨fun _ _ => rfl, fun _ hn => hn, fun _ _ => le_rfl⟩, hdone, hfresh, ⟨hheight.1, le_rfl⟩,
      hprev⟩
  | alloc key height prev =>
    obtain ⟨hfresh, hheight, hprev⟩ := hw
    have hgrows := grows_newNode h key height
    refine ⟨order, linked, h.newNode key height, hgrows, hgrows.committed hdone,
      writer_alloc h hfresh hheight hprev, hheight.1, fun n hn _ => ?_⟩
    rw [hgrows.key n hn]
    exact (hfresh n hn).1
  | load key height prev x i p next hi hp hload =>
    obtain ⟨hlink, hpos, hkeys⟩ := hw
    obtain rfl := Option.some.inj (hp.symm.trans (hlink.prev_eq i hi))
    exact ⟨order, linked, h, hsame, hdone, hlink, hi, hkeys, hload⟩
  | loadGarbage key height prev x i hi hp =>
    obtain ⟨hlink, -⟩ := hw
    obtain ⟨v, hv⟩ := hlink.load hi
    exact absurd (hv.symm.trans (hp _ (hlink.prev_eq i hi))) (by simp)
  | own key height prev x i next =>
    obtain ⟨hlink, hi, hkeys, hnext⟩ := hw
    obtain ⟨hown, hx⟩ := hlink.storeOwn hi next
    have hgrows : Grows s (s.setNext x i next) order order linked linked :=
      ⟨fun n _ => key_setNext s x i next n, fun _ hn => hn, fun _ _ => le_rfl⟩
    refine ⟨order, linked, hown.levels, hgrows, hgrows.committed hdone, hown, hi, ?_, ?_⟩
    · simpa using hkeys
    · rw [hx, before_setNext, next_setNext hlink.alloc.2 (by rw [hlink.height_eq]; exact hi)]
      split
      · rfl
      · exact hnext.symm
  | publish key height prev x i p hp =>
    obtain ⟨hlink, hi, hkeys, hnext⟩ := hw
    obtain rfl := Option.some.inj (hp.symm.trans (hlink.prev_eq i hi))
    obtain ⟨order', linked', hlink', hgrows, hmem⟩ := writer_publish h hlink hi hnext
    refine ⟨order', linked', hlink'.levels, hgrows, hgrows.committed hdone, hlink', by omega,
      fun n hn hnx => ?_⟩
    rw [key_setNext]
    exact hkeys n ((hmem n hn).resolve_right hnx) hnx
  | finish key height prev x i hi =>
    obtain ⟨hlink, hpos, hkeys⟩ := hw
    obtain ⟨hx, -⟩ := hlink.done (by omega)
    obtain ⟨hdone', hkeys'⟩ := writer_finish hx hlink.key_eq hdone hkeys
    exact ⟨order, linked, h, hsame, hdone', hkeys'⟩

/-! ### All interleavings -/

omit [TransCmp cmp] in
theorem inv_init : Inv cmp (State.init : State K) :=
  ⟨[], fun _ => kMaxHeight, levels_new, fun _ hk => absurd hk List.not_mem_nil,
    fun _ hn => absurd hn List.not_mem_nil, fun _ => trivial⟩

/-- **Every step preserves the invariant.** -/
theorem step_inv {st st' : State K} (h : Inv cmp st) (hstep : Step cmp st st') : Inv cmp st' := by
  obtain ⟨order, linked, hlevels, hdone, hwriter, hreaders⟩ := h
  cases hstep with
  | writer hw =>
    obtain ⟨order', linked', hlevels', hgrows, hdone', hwriter'⟩ :=
      writerStep_inv hlevels hdone hwriter hw
    exact ⟨order', linked', hlevels', hdone', hwriter', fun i => hgrows.readerInv (hreaders i)⟩
  | reader i hr =>
    refine ⟨order, linked, hlevels, hdone, hwriter, fun j => ?_⟩
    by_cases hj : j = i
    · subst hj
      simp only [Function.update_self]
      exact readerStep_inv hlevels hdone (hreaders j) hr
    · simp only [Function.update_of_ne hj]
      exact hreaders j

theorem reachable_inv {st : State K} (h : Reachable cmp st) : Inv cmp st := by
  induction h with
  | init => exact inv_init
  | step _ hstep ih => exact step_inv ih hstep

/-- **Readers never miss committed keys.** In every state of every interleaving: no reader has
loaded a slot that was not initialised. A `FindGreaterOrEqual` that has returned `r` has `key(r) >=
target`, and no key from `target` on and before `key(r)` (none from `target` on, if `r` is null) was
committed before the reader started. A scan is strictly increasing from `target` on, and has visited
every key from `target` on that was committed before it started, up to where it is; all of them at
its end. -/
theorem reader_reachable {st : State K} (h : Reachable cmp st) (i : ℕ) :
    st.readers i ≠ .garbage ∧
      (∀ target since r, st.readers i = .found target since r.toList r →
        (∀ n, r = some n → cmp (st.list.key n) target ≠ .lt) ∧
        ∀ k ∈ since, cmp k target ≠ .lt → ∃ n, r = some n ∧ cmp k (st.list.key n) ≠ .lt) ∧
      ∀ target since visited cur, st.readers i = .found target since visited cur →
        (visited.map st.list.key).Pairwise (fun a b => cmp a b = .lt) ∧
        (∀ k ∈ visited.map st.list.key, cmp k target ≠ .lt) ∧
        (∀ n, cur = some n → visited.getLast? = some n) ∧
        ∀ k ∈ since, cmp k target ≠ .lt →
          k ∈ visited.map st.list.key ∨ ∃ n, cur = some n ∧ cmp (st.list.key n) k = .lt := by
  obtain ⟨order, linked, -, -, -, hreaders⟩ := reachable_inv h
  have hr := hreaders i
  refine ⟨fun hc => ?_, fun target since r hfound => ?_, fun target since visited cur hfound => ?_⟩
  · rw [hc] at hr
    exact hr
  · rw [hfound] at hr
    obtain ⟨-, -, -, hge, -, hseen⟩ := hr
    refine ⟨fun n hn => hge n (by simp [hn]), fun k hk hkt => ?_⟩
    rcases hseen k hk hkt with ⟨n, hn, rfl⟩ | ⟨n, hn, hlt⟩
    · have hself : cmp (st.list.key n) (st.list.key n) = .eq := ReflCmp.compare_self
      exact ⟨n, by simpa using hn, by rw [hself]; simp⟩
    · exact ⟨n, hn, OrientedCmp.not_lt_of_lt hlt⟩
  · rw [hfound] at hr
    obtain ⟨-, -, hsorted, hge, hcur, hseen⟩ := hr
    refine ⟨List.pairwise_map.mpr hsorted, fun k hk => ?_, hcur, fun k hk hkt => ?_⟩
    · obtain ⟨n, hn, rfl⟩ := List.mem_map.mp hk
      exact hge n hn
    · rcases hseen k hk hkt with ⟨n, hn, rfl⟩ | hlt
      · exact Or.inl (List.mem_map.mpr ⟨n, hn, rfl⟩)
      · exact Or.inr hlt

/-- After one `Insert`, a reader that looks for a smaller key finds it. -/
theorem reader_reachable_one : ∃ st : State ℕ, Reachable compare st ∧
    st.readers 0 = .found 3 [5] [1] (some 1) ∧ st.readers 0 ≠ .garbage := by
  have h₁ : Reachable compare (State.init : State ℕ) := .init
  have h₂ := h₁.step (.writer (.begin 5 (by simp [State.init])))
  have h₃ := h₂.step (.writer (.enter 5))
  have h₄ := h₃.step (.writer (.searchDone 5 _ none none _ 1 rfl rfl (by decide)))
  have h₅ := h₄.step (.writer (.compareLow 5 1 _ (by decide)))
  have h₆ := h₅.step (.writer (.alloc 5 1 _))
  have h₇ := h₆.step (.writer (.load 5 1 _ _ 0 0 none (by decide) rfl rfl))
  have h₈ := h₇.step (.writer (.own 5 1 _ _ 0 none))
  have h₉ := h₈.step (.writer (.publish 5 1 _ _ 0 0 rfl))
  have h₁₀ := h₉.step (.writer (.finish 5 1 _ _ 1 (by decide)))
  have h₁₁ := h₁₀.step (.reader 0 (.start 3))
  have h₁₂ := h₁₁.step (.reader 0 (.enter 3 [5]))
  have h₁₃ := h₁₂.step (.reader 0 (.searchDone 3 [5] 0 0 (some 1) (some 1) _ rfl rfl))
  exact ⟨_, h₁₃, rfl, (reader_reachable h₁₃ 0).1⟩

end SkipList

end Squirrel
