import Mathlib.Logic.Function.Basic
import Mathlib.Data.List.Basic

/-!
# Background work

`PosixEnv::Schedule`, called by any number of threads, and the background thread, which the first
call starts. A mutex protects the queue; the background thread waits for work on a condition
variable.

A step is one statement of one thread, so the mutex and the condition variable are objects of the
model: `Wait` lets go of the mutex and blocks in one step, `Signal` wakes one of the threads that
are blocked, a blocked thread may also wake up for no reason, and a thread that has woken up needs
the mutex again. `Schedule` signals before it has put its item into the queue. No wake-up is lost by
that, because the mutex is held from the test of the queue to the end.

The work itself may call `Schedule`. The thread does not hold the mutex then, and its call is one
more caller.

## Main results

* `Inv.step` — what one step of any thread preserves
* `neither_lost_nor_repeated` — in every reachable state there is at most one background thread, it
  has taken the items in the order in which they have been scheduled, and it does not sleep on work
-/

namespace Squirrel

namespace Schedule

variable {ι W : Type}

/-- Where a call of `Schedule` is; `w` is its work item. -/
inductive Call (W : Type)
  /-- The thread makes no call. -/
  | idle
  /-- In front of `Lock`. -/
  | lock (w : W)
  /-- In front of the test of `started_background_thread_`. From here on the call has the mutex. -/
  | start (w : W)
  /-- `started_background_thread_` has been set: in front of the construction of the thread. -/
  | create (w : W)
  /-- In front of the test of the queue, and of `Signal`. -/
  | signal (w : W)
  /-- In front of `emplace`. -/
  | emplace (w : W)
  /-- In front of `Unlock`. -/
  | unlock

/-- Where a background thread is. -/
inductive Thread (W : Type)
  /-- In front of `Lock`. -/
  | lock
  /-- In front of the test of the loop. -/
  | check
  /-- The queue was empty: in front of `Wait`. -/
  | wait
  /-- Blocked in `Wait`, and not signalled. -/
  | waiting
  /-- In `Wait`, in front of taking the mutex again. -/
  | woken
  /-- The queue was not empty: in front of `front` and `pop`. -/
  | front
  /-- In front of `Unlock`, with the item. -/
  | unlock (w : W)
  /-- The call of the function. -/
  | run (w : W)

/-- A thread that may have the mutex. -/
inductive Owner (ι : Type)
  | caller (i : ι)
  | background (n : ℕ)

/-- The calls by their threads, the background threads that have been started, and what they share.
What has been run and what has been scheduled is recorded for the statements. -/
structure State (ι W : Type) where
  calls : ι → Call W
  background : List (Thread W)
  mutex : Option (Owner ι)
  started : Bool
  queue : List W
  ran : List W
  scheduled : List W

namespace State

def init : State ι W := ⟨fun _ => .idle, [], none, false, [], [], []⟩

def setThread (s : State ι W) (n : ℕ) (t : Thread W) : State ι W :=
  { s with background := s.background.set n t }

variable [DecidableEq ι]

def setCall (s : State ι W) (i : ι) (c : Call W) : State ι W :=
  { s with calls := Function.update s.calls i c }

section Fields

variable (s : State ι W) (n : ℕ) (t : Thread W) (i j : ι) (c : Call W)

omit [DecidableEq ι] in
@[simp, grind =] theorem setThread_calls : (s.setThread n t).calls i = s.calls i := rfl

omit [DecidableEq ι] in
@[simp, grind =] theorem setThread_background :
    (s.setThread n t).background = s.background.set n t := rfl

omit [DecidableEq ι] in
@[simp, grind =] theorem setThread_mutex : (s.setThread n t).mutex = s.mutex := rfl

omit [DecidableEq ι] in
@[simp, grind =] theorem setThread_started : (s.setThread n t).started = s.started := rfl

omit [DecidableEq ι] in
@[simp, grind =] theorem setThread_queue : (s.setThread n t).queue = s.queue := rfl

omit [DecidableEq ι] in
@[simp, grind =] theorem setThread_ran : (s.setThread n t).ran = s.ran := rfl

omit [DecidableEq ι] in
@[simp, grind =] theorem setThread_scheduled : (s.setThread n t).scheduled = s.scheduled := rfl

@[simp, grind =] theorem setCall_calls : (s.setCall i c).calls j = if j = i then c else s.calls j :=
  Function.update_apply ..

@[simp, grind =] theorem setCall_background : (s.setCall i c).background = s.background := rfl

@[simp, grind =] theorem setCall_mutex : (s.setCall i c).mutex = s.mutex := rfl

@[simp, grind =] theorem setCall_started : (s.setCall i c).started = s.started := rfl

@[simp, grind =] theorem setCall_queue : (s.setCall i c).queue = s.queue := rfl

@[simp, grind =] theorem setCall_ran : (s.setCall i c).ran = s.ran := rfl

@[simp, grind =] theorem setCall_scheduled : (s.setCall i c).scheduled = s.scheduled := rfl

end Fields

end State

variable [DecidableEq ι]

/-- One step of one thread. -/
inductive Step : State ι W → State ι W → Prop
  | called {s i} (w : W) : s.calls i = .idle → Step s (s.setCall i (.lock w))
  | locked {s i w} : s.calls i = .lock w → s.mutex = none →
    Step s { s.setCall i (.start w) with mutex := some (.caller i) }
  | unstarted {s i w} : s.calls i = .start w → s.started = false →
    Step s { s.setCall i (.create w) with started := true }
  | started {s i w} : s.calls i = .start w → s.started = true → Step s (s.setCall i (.signal w))
  | created {s i w} : s.calls i = .create w →
    Step s { s.setCall i (.signal w) with background := s.background ++ [.lock] }
  | nonempty {s i w} : s.calls i = .signal w → s.queue ≠ [] → Step s (s.setCall i (.emplace w))
  | signalled {s i w} {n : ℕ} : s.calls i = .signal w → s.queue = [] →
    s.background[n]? = some .waiting → Step s ((s.setCall i (.emplace w)).setThread n .woken)
  | unheard {s i w} : s.calls i = .signal w → s.queue = [] → .waiting ∉ s.background →
    Step s (s.setCall i (.emplace w))
  | emplaced {s i w} : s.calls i = .emplace w →
    Step s { s.setCall i .unlock with queue := s.queue ++ [w], scheduled := s.scheduled ++ [w] }
  | unlocked {s i} : s.calls i = .unlock → Step s { s.setCall i .idle with mutex := none }
  | threadLocked {s} {n : ℕ} : s.background[n]? = some .lock → s.mutex = none →
    Step s { s.setThread n .check with mutex := some (.background n) }
  | empty {s} {n : ℕ} : s.background[n]? = some .check → s.queue = [] → Step s (s.setThread n .wait)
  | waited {s} {n : ℕ} : s.background[n]? = some .wait →
    Step s { s.setThread n .waiting with mutex := none }
  | spurious {s} {n : ℕ} : s.background[n]? = some .waiting → Step s (s.setThread n .woken)
  | relocked {s} {n : ℕ} : s.background[n]? = some .woken → s.mutex = none →
    Step s { s.setThread n .check with mutex := some (.background n) }
  | work {s} {n : ℕ} : s.background[n]? = some .check → s.queue ≠ [] → Step s (s.setThread n .front)
  | popped {s} {n : ℕ} {w : W} {rest : List W} : s.background[n]? = some .front →
    s.queue = w :: rest → Step s { s.setThread n (.unlock w) with queue := rest }
  | threadUnlocked {s} {n : ℕ} {w : W} : s.background[n]? = some (.unlock w) →
    Step s { s.setThread n (.run w) with mutex := none }
  | returned {s} {n : ℕ} {w : W} : s.background[n]? = some (.run w) →
    Step s { s.setThread n .lock with ran := s.ran ++ [w] }

/-- The states that are reached, whichever thread makes the next step. -/
inductive Reachable : State ι W → Prop
  | init : Reachable .init
  | step {s s' : State ι W} : Reachable s → Step s s' → Reachable s'

/-! ### The invariant -/

/-- The call has the mutex. -/
def Call.locking : Call W → Bool
  | .idle => false
  | .lock _ => false
  | _ => true

/-- The thread has the mutex. -/
def Thread.locking : Thread W → Bool
  | .check => true
  | .wait => true
  | .front => true
  | .unlock _ => true
  | _ => false

/-- The item that the thread has taken. -/
def Thread.taken : Thread W → List W
  | .unlock w => [w]
  | .run w => [w]
  | _ => []

/-- Mutual exclusion. -/
structure Locking (s : State ι W) : Prop where
  call : ∀ i, (s.calls i).locking = true ↔ s.mutex = some (.caller i)
  thread : ∀ n t, s.background[n]? = some t → (t.locking = true ↔ s.mutex = some (.background n))

theorem Locking.step {s s' : State ι W} (hs : Locking s) (h : Step s s') : Locking s' := by
  obtain ⟨hcall, hthread⟩ := hs
  cases h <;> constructor <;> grind [Call.locking, Thread.locking]

omit [DecidableEq ι] in
/-- At most one call has the mutex. -/
theorem Locking.call_unique {s : State ι W} (hs : Locking s) {i j : ι}
    (hi : (s.calls i).locking = true) (hj : (s.calls j).locking = true) : i = j := by
  have hmutex := (hs.call i).mp hi
  rw [(hs.call j).mp hj] at hmutex
  cases hmutex
  rfl

omit [DecidableEq ι] in
/-- While a call has the mutex, no background thread does. -/
theorem Locking.not_mem {s : State ι W} (hs : Locking s) {i : ι} {t : Thread W}
    (hi : (s.calls i).locking = true) (ht : t.locking = true) : t ∉ s.background := by
  intro hmem
  obtain ⟨n, hn⟩ := List.mem_iff_getElem?.mp hmem
  have hmutex := (hs.thread n t hn).mp ht
  rw [(hs.call i).mp hi] at hmutex
  cases hmutex

/-- The background thread exists from the first call on. -/
structure Started (s : State ι W) : Prop where
  one : s.background.length ≤ 1
  unstarted : s.started = false → s.background.length = 0
  create : ∀ i w, s.calls i = .create w → s.started = true ∧ s.background.length = 0
  started : s.started = true → s.background.length = 1 ∨ ∃ i w, s.calls i = .create w
  ready : ∀ i w, s.calls i = .signal w ∨ s.calls i = .emplace w → s.background.length = 1
  served : s.queue ≠ [] → s.background.length = 1

omit [DecidableEq ι] in
theorem eq_singleton {s : State ι W} (hone : s.background.length ≤ 1) {n : ℕ} {t : Thread W}
    (h : s.background[n]? = some t) : n = 0 ∧ s.background = [t] := by
  obtain ⟨hlt, rfl⟩ := List.getElem?_eq_some_iff.mp h
  obtain rfl : n = 0 := by omega
  refine ⟨rfl, List.ext_getElem ?_ ?_⟩
  · rw [List.length_singleton]
    omega
  · intro m hm hm'
    obtain rfl : m = 0 := by omega
    rfl

/-- A step that neither sets the flag nor starts the thread, as far as these are concerned. -/
structure Step.Quiet (s s' : State ι W) : Prop where
  length : s'.background.length = s.background.length
  started : s'.started = s.started
  create : ∀ i w, s'.calls i = .create w ↔ s.calls i = .create w
  ready : ∀ i w, s'.calls i = .signal w ∨ s'.calls i = .emplace w →
    s.calls i = .signal w ∨ s.calls i = .emplace w ∨ s.calls i = .start w ∧ s.started = true
  queue : s'.queue ≠ [] → s.queue ≠ [] ∨ ∃ i w, s.calls i = .emplace w

theorem Step.start_cases {s s' : State ι W} (h : Step s s') :
    (∃ i w, s.calls i = .start w ∧ s.started = false ∧
      s' = { s.setCall i (.create w) with started := true }) ∨
    (∃ i w, s.calls i = .create w ∧
      s' = { s.setCall i (.signal w) with background := s.background ++ [.lock] }) ∨
    Step.Quiet s s' := by
  cases h
  case unstarted i w hpc hflag => exact .inl ⟨i, w, hpc, hflag, rfl⟩
  case created i w hpc => exact .inr (.inl ⟨i, w, hpc, rfl⟩)
  case emplaced i w hpc =>
    refine .inr (.inr ⟨rfl, rfl, ?_, ?_, fun _ => .inr ⟨i, w, hpc⟩⟩)
    · intro j w'
      by_cases hji : j = i <;> simp [hji, hpc]
    · intro j w'
      by_cases hji : j = i
      · simp [hji]
      · simp only [State.setCall_calls, if_neg hji]
        tauto
  all_goals
    refine .inr (.inr ⟨?_, rfl, ?_, ?_, ?_⟩) <;> grind

theorem Started.step {s s' : State ι W} (hl : Locking s) (hs : Started s) (h : Step s s') :
    Started s' := by
  obtain ⟨hone, hunstarted, hcreate, hstarted, hready, hserved⟩ := hs
  rcases h.start_cases with ⟨i, w, hpc, hflag, rfl⟩ | ⟨i, w, hpc, rfl⟩ | hquiet
  · -- The flag is set. No other call has the mutex, so none is about to signal.
    have hnone := hunstarted hflag
    refine ⟨hone, by rintro ⟨⟩, fun j w' _ => ⟨rfl, hnone⟩, fun _ => .inr ⟨i, w, by simp⟩, ?_, ?_⟩
    · intro j w' hj
      have hji : j ≠ i := by
        rintro rfl
        simp at hj
      rw [State.setCall_calls, if_neg hji] at hj
      exact hready j w' hj
    · exact hserved
  · -- The thread is created.
    obtain ⟨hflag, hnone⟩ := hcreate i w hpc
    have hlength : (s.background ++ [Thread.lock]).length = 1 := by simp [hnone]
    refine ⟨Nat.le_of_eq hlength, ?_, ?_, fun _ => .inl hlength, fun _ _ _ => hlength, fun _ =>
      hlength⟩
    · intro hunset
      exact absurd (hflag.symm.trans hunset) (by decide)
    · intro j w' hj
      have hji : j ≠ i := by
        rintro rfl
        simp at hj
      rw [State.setCall_calls, if_neg hji] at hj
      exact absurd (hl.call_unique (by rw [hj]; rfl) (by rw [hpc]; rfl)) hji
  · have hlength := hquiet.length
    refine ⟨hlength ▸ hone, ?_, ?_, ?_, ?_, ?_⟩
    · intro hunset
      rw [hlength, hunstarted (hquiet.started ▸ hunset)]
    · intro j w hj
      rw [hquiet.started, hlength]
      exact hcreate j w ((hquiet.create j w).mp hj)
    · intro hset
      rcases hstarted (hquiet.started ▸ hset) with hlen | ⟨j, w, hj⟩
      · exact .inl (hlength.trans hlen)
      · exact .inr ⟨j, w, (hquiet.create j w).mpr hj⟩
    · intro j w hj
      rw [hlength]
      rcases hquiet.ready j w hj with hj | hj | ⟨hj, hset⟩
      · exact hready j w (.inl hj)
      · exact hready j w (.inr hj)
      · -- No other call is creating the thread, so the thread exists.
        refine (hstarted hset).resolve_right ?_
        rintro ⟨j', w', hj'⟩
        obtain rfl := hl.call_unique (i := j) (by rw [hj]; rfl) (by rw [hj']; rfl)
        rw [hj] at hj'
        cases hj'
    · intro hqueue
      rw [hlength]
      rcases hquiet.queue hqueue with hqueue | ⟨j, w, hj⟩
      · exact hserved hqueue
      · exact hready j w (.inr hj)

/-- What sleeps has been sent to sleep by an empty queue. -/
structure Awake (s : State ι W) : Prop where
  wait : .wait ∈ s.background ∨ .waiting ∈ s.background → s.queue = []
  signalled : ∀ i w, s.calls i = .emplace w → .waiting ∉ s.background
  front : .front ∈ s.background → s.queue ≠ []

omit [DecidableEq ι] in
theorem mem_setThread {s : State ι W} (hone : s.background.length ≤ 1) {n : ℕ} {t : Thread W}
    (h : s.background[n]? = some t) {t' u : Thread W} :
    u ∈ (s.setThread n t').background ↔ u = t' := by
  obtain ⟨rfl, hbg⟩ := eq_singleton hone h
  simp [hbg]

theorem Awake.step {s s' : State ι W} (hl : Locking s) (hst : Started s) (hs : Awake s)
    (h : Step s s') :
    Awake s' := by
  obtain ⟨hwait, hsignalled, hfront⟩ := hs
  cases h
  case signalled i w n hpc hqueue hn =>
    -- The only thread has been woken up.
    have hmem : ∀ u, u ∈ ((s.setCall i (.emplace w)).setThread n .woken).background ↔ u = .woken :=
      fun u => mem_setThread (s := s.setCall i (.emplace w)) hst.one hn
    constructor <;> grind
  case emplaced i w hpc =>
    -- Nothing waits, and nothing is about to: it would have the mutex.
    have hnone : .waiting ∉ s.background := hsignalled i w hpc
    have habout : .wait ∉ s.background := hl.not_mem (i := i) (by rw [hpc]; rfl) rfl
    constructor <;> grind [List.append_eq_nil_iff]
  case threadLocked n hn _ | empty n hn _ | waited n hn | spurious n hn | relocked n hn _ |
      work n hn _ | popped n _ _ hn _ | threadUnlocked n _ hn | returned n _ hn =>
    have hmem := @mem_setThread ι W s hst.one n _ hn
    have hlocks := hl.thread n _ hn
    have hcall := hl.call
    constructor <;> grind [Call.locking, Thread.locking]
  all_goals constructor <;> grind

theorem order_step {s s' : State ι W} (hone : s.background.length ≤ 1)
    (hs : s.ran ++ s.background.flatMap Thread.taken ++ s.queue = s.scheduled) (h : Step s s') :
    s'.ran ++ s'.background.flatMap Thread.taken ++ s'.queue = s'.scheduled := by
  cases h
  case signalled n _ _ hn | threadLocked n hn _ | empty n hn _ | waited n hn | spurious n hn |
      relocked n hn _ | work n hn _ | popped n _ _ hn _ | threadUnlocked n _ hn | returned n _ hn =>
    obtain ⟨rfl, hbg⟩ := eq_singleton hone hn
    simp_all [Thread.taken]
  case emplaced =>
    rw [← hs]
    simp
  all_goals simp_all [Thread.taken]

/-- What is true between any two steps. -/
structure Inv (s : State ι W) : Prop where
  locking : Locking s
  started : Started s
  awake : Awake s
  order : s.ran ++ s.background.flatMap Thread.taken ++ s.queue = s.scheduled

omit [DecidableEq ι] in
theorem inv_init : Inv (State.init : State ι W) where
  locking := ⟨fun _ => by simp [State.init, Call.locking], fun _ _ h => by simp [State.init] at h⟩
  started := by constructor <;> simp [State.init]
  awake := by constructor <;> simp [State.init]
  order := rfl

/-- A step of any thread keeps the invariant. -/
theorem Inv.step {s s' : State ι W} (hs : Inv s) (h : Step s s') : Inv s' where
  locking := hs.locking.step h
  started := hs.started.step hs.locking h
  awake := hs.awake.step hs.locking hs.started h
  order := order_step hs.started.one hs.order h

theorem Reachable.inv {s : State ι W} (h : Reachable s) : Inv s := by
  induction h with
  | init => exact inv_init
  | step _ hstep ih => exact ih.step hstep

/-- **Background work is neither lost nor repeated**: at most one background thread exists; what has
been run, what has been taken and what is in the queue is what has been scheduled, in order; no
thread sleeps in `Wait` while there is work; the queue is not empty where its front is read; and
where there is work there is a thread. -/
theorem neither_lost_nor_repeated {s : State ι W} (h : Reachable s) :
    s.background.length ≤ 1 ∧
      s.ran ++ s.background.flatMap Thread.taken ++ s.queue = s.scheduled ∧
      (.waiting ∈ s.background → s.queue = []) ∧
      (.front ∈ s.background → s.queue ≠ []) ∧
      (s.queue ≠ [] → s.background ≠ []) := by
  obtain ⟨-, hstarted, hawake, horder⟩ := h.inv
  refine ⟨hstarted.one, horder, fun hmem => hawake.wait (.inr hmem), hawake.front,
    fun hqueue hnil => ?_⟩
  have hlength := hstarted.served hqueue
  rw [hnil] at hlength
  cases hlength

/-- The first item has been run, and the second one has woken the thread up. -/
theorem neither_lost_nor_repeated_woken :
    ∃ s : State Unit ℕ, Reachable s ∧ s.background = [.woken] ∧ s.queue = [2] ∧
      s.ran ++ s.background.flatMap Thread.taken ++ s.queue = [1, 2] := by
  have hinit : Reachable (State.init : State Unit ℕ) := .init
  have hlocked := (hinit.step (.called (i := ()) 1 rfl)).step (.locked (i := ()) rfl rfl)
  have hstarted := (hlocked.step (.unstarted (i := ()) rfl rfl)).step (.created (i := ()) rfl)
  have hpushed := (hstarted.step (.unheard (i := ()) rfl rfl (by simp [State.init]))).step
    (.emplaced (i := ()) rfl)
  have hunlocked := hpushed.step (.unlocked (i := ()) rfl)
  have htaken := ((hunlocked.step (.threadLocked (n := 0) rfl rfl)).step
    (.work (n := 0) rfl (by simp [State.init]))).step (.popped (n := 0) rfl rfl)
  have hran := (htaken.step (.threadUnlocked (n := 0) rfl)).step (.returned (n := 0) rfl)
  have hasleep := ((hran.step (.threadLocked (n := 0) rfl rfl)).step (.empty (n := 0) rfl rfl)).step
    (.waited (n := 0) rfl)
  have hagain := (hasleep.step (.called (i := ()) 2 rfl)).step (.locked (i := ()) rfl rfl)
  have hwoken :=
    (hagain.step (.started (i := ()) rfl rfl)).step (.signalled (i := ()) (n := 0) rfl rfl rfl)
  have hend := hwoken.step (.emplaced (i := ()) rfl)
  exact ⟨_, hend, rfl, rfl, (neither_lost_nor_repeated hend).2.1⟩

end Schedule

end Squirrel
