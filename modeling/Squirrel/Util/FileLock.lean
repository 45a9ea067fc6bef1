import Mathlib.Logic.Function.Basic
import Squirrel.Lib.LittleEndian

/-!
# File locks

`PosixEnv::LockFile` and `PosixEnv::UnlockFile` on one file, by any number of processes. A process
makes its calls one after another; between processes, every operation on the lock table and every
system call is one step.

Exclusion is split between two mechanisms. Between processes it rests on the kernel's record lock,
which belongs to a process and not to a descriptor: a process that locks again what it has locked
succeeds, and closing *any* descriptor of the file drops the lock. Within a process it rests on the
lock table, `locks_`.

The second mechanism undoes the first. A process that calls `LockFile` on a file it has already
locked opens a second descriptor, finds the file in its table, closes the descriptor and returns an
error; the close has dropped the lock (`lock_lost`). As long as no process does that, the locks
exclude each other.

## Main results

* `Inv.step` — what one step preserves
* `outstanding_subsingleton` — along any run in which no process calls `LockFile` on a file in its
  own table, at most one lock is outstanding
-/

namespace Squirrel

namespace FileLock

/-- Where a process is: between two calls, or in front of an operation of the current call. -/
inductive Pc
  | idle
  /-- `LockFile`, the descriptor is open: in front of `locks_.Insert`. -/
  | insert (fd : ℕ)
  /-- `LockFile`: in front of `LockOrUnlock(fd, true)`. -/
  | setLock (fd : ℕ)
  /-- `LockFile`, the file is in the table already: in front of `close`. -/
  | closeHeld (fd : ℕ)
  /-- `LockFile`, another process has the lock: in front of `close`. -/
  | closeDenied (fd : ℕ)
  /-- `LockFile`, another process has the lock: in front of `locks_.Remove`. -/
  | removeDenied
  /-- `UnlockFile`: in front of `locks_.Remove`. -/
  | remove (fd : ℕ)
  /-- `UnlockFile`: in front of `close`. -/
  | close (fd : ℕ)
  deriving DecidableEq, Repr

structure Process where
  pc : Pc
  /-- The file is in `locked_files_`. -/
  locked : Bool
  /-- The open descriptors of the file. -/
  fds : List ℕ
  /-- The outstanding locks, by their descriptors: returned with `OK` and not unlocked. -/
  held : List ℕ
  deriving DecidableEq, Repr

/-- All processes, and the kernel's record lock on the file. -/
structure State (P : Type) where
  process : P → Process
  /-- The process that has the record lock. -/
  owner : Option P

/-- The steps of the processes. Which descriptor `open` returns, if any, is up to the kernel. -/
inductive Action (P : Type)
  /-- `LockFile` is called and makes its first system call, `open`. -/
  | lockFile (p : P) (fd : Option ℕ)
  /-- `UnlockFile` is called and makes its first system call, `LockOrUnlock(fd, false)`. -/
  | unlockFile (p : P) (fd : ℕ)
  /-- The process goes on with its call. -/
  | proceed (p : P)
  deriving DecidableEq, Repr

namespace State

variable {P : Type}

def init : State P := ⟨fun _ => ⟨.idle, false, [], []⟩, none⟩

variable [DecidableEq P]

def setProcess (s : State P) (p : P) (x : Process) : State P :=
  { s with process := Function.update s.process p x }

/-- The record lock once process `p` has given up its locks on the file. -/
def released (s : State P) (p : P) : Option P := if s.owner = some p then none else s.owner

/-- `close`: the descriptor is gone, and so are all record locks of the process on the file. -/
def closeFd (s : State P) (p : P) (fd : ℕ) (pc : Pc) : State P :=
  { s.setProcess p { s.process p with pc := pc, fds := (s.process p).fds.erase fd } with
    owner := s.released p }

/-- The rest of a call, one operation at a time. -/
def proceed (s : State P) (p : P) : Option (State P) :=
  let x := s.process p
  match x.pc with
  | .idle => none
  | .insert fd =>
    if x.locked then some (s.setProcess p { x with pc := .closeHeld fd })
    else some (s.setProcess p { x with pc := .setLock fd, locked := true })
  | .setLock fd =>
    -- `F_SETLK` fails if another process has the lock.
    if s.owner = none ∨ s.owner = some p then
      some { s.setProcess p { x with pc := .idle, held := fd :: x.held } with owner := some p }
    else some (s.setProcess p { x with pc := .closeDenied fd })
  | .closeHeld fd => some (s.closeFd p fd .idle)
  | .closeDenied fd => some (s.closeFd p fd .removeDenied)
  | .removeDenied => some (s.setProcess p { x with pc := .idle, locked := false })
  | .remove fd => some (s.setProcess p { x with pc := .close fd, locked := false })
  | .close fd => some (s.closeFd p fd .idle)

def step (s : State P) : Action P → Option (State P)
  | .lockFile p none => if (s.process p).pc = .idle then some s else none
  | .lockFile p (some fd) =>
    let x := s.process p
    if x.pc = .idle ∧ fd ∉ x.fds then
      some (s.setProcess p { x with pc := .insert fd, fds := fd :: x.fds })
    else none
  | .unlockFile p fd =>
    let x := s.process p
    if x.pc = .idle ∧ fd ∈ x.held then
      some { s.setProcess p { x with pc := .remove fd, held := x.held.erase fd } with
        owner := s.released p }
    else none
  | .proceed p => s.proceed p

/-- A run of steps. -/
def run (s : State P) : List (Action P) → Option (State P)
  | [] => some s
  | a :: as => (s.step a).bind fun s' => s'.run as

/-- At most one lock is outstanding, over all processes. -/
def Exclusive (s : State P) : Prop :=
  ∀ p q fd fd', fd ∈ (s.process p).held → fd' ∈ (s.process q).held → p = q ∧ fd = fd' ∧
    (s.process p).held.length = 1

/-- The step is not a call of `LockFile` on a file that the process has in its own table. -/
def Admits (s : State P) : Action P → Prop
  | .lockFile p _ => (s.process p).locked = false
  | _ => True

/-- The states that runs reach in which no process locks a file it has already locked. -/
inductive Reachable : State P → Prop
  | init : Reachable init
  | step {s s' : State P} {a : Action P} :
    Reachable s → s.Admits a → s.step a = some s' → Reachable s'

end State

/-! ### The invariant -/

/-- A process is in order: at every point of a call, what its table says and what the kernel says
agree with the locks it has outstanding. -/
def Process.Good (x : Process) (owns : Prop) : Prop :=
  match x.pc with
  | .idle => x.held = [] ∧ x.locked = false ∧ ¬ owns ∨ ∃ fd, x.held = [fd] ∧ x.locked = true ∧ owns
  | .insert _ | .close _ => x.held = [] ∧ x.locked = false ∧ ¬ owns
  | .setLock _ | .closeDenied _ | .removeDenied | .remove _ =>
    x.held = [] ∧ x.locked = true ∧ ¬ owns
  | .closeHeld _ => False

/-- A process in order has at most one lock outstanding, and then it has the record lock. -/
theorem Process.Good.held {x : Process} {owns : Prop} (h : x.Good owns) {fd : ℕ}
    (hfd : fd ∈ x.held) : x.held = [fd] ∧ owns := by
  rw [Process.Good] at h
  split at h
  · rcases h with ⟨hnil, -⟩ | ⟨fd', heq, -, howns⟩
    · exact absurd (hnil ▸ hfd) List.not_mem_nil
    · rw [heq, List.mem_singleton] at hfd
      exact ⟨by rw [heq, hfd], howns⟩
  all_goals first
    | exact absurd (h.1 ▸ hfd) List.not_mem_nil
    | exact h.elim

namespace State

variable {P : Type}

/-- Every process is in order. -/
def Inv (s : State P) : Prop := ∀ p, (s.process p).Good (s.owner = some p)

theorem inv_init : (init : State P).Inv := fun _ => Or.inl ⟨rfl, rfl, by rintro ⟨⟩⟩

theorem Inv.exclusive {s : State P} (h : s.Inv) : s.Exclusive := by
  intro p q fd fd' hp hq
  obtain ⟨heq, howns⟩ := (h p).held hp
  obtain ⟨heq', howns'⟩ := (h q).held hq
  obtain rfl : p = q := Option.some.inj (howns.symm.trans howns')
  rw [heq] at heq'
  exact ⟨rfl, (List.cons.inj heq').1, by rw [heq]; rfl⟩

variable [DecidableEq P] {s : State P} {p : P}

/-- A step of one process leaves the others in order, if they keep the record lock or do not get
it. -/
theorem Inv.update (h : s.Inv) {x : Process} {owner : Option P} (hp : x.Good (owner = some p))
    (howner : ∀ q, q ≠ p → (owner = some q ↔ s.owner = some q)) :
    Inv { s.setProcess p x with owner := owner } := by
  intro q
  by_cases hq : q = p
  · subst hq
    change (Function.update s.process q x q).Good _
    rw [Function.update_self]
    exact hp
  · change (Function.update s.process p x q).Good _
    rw [Function.update_of_ne hq]
    exact propext (howner q hq) ▸ h q

theorem Inv.setProcess (h : s.Inv) {x : Process} (hp : x.Good (s.owner = some p)) :
    (s.setProcess p x).Inv :=
  h.update hp fun _ _ => Iff.rfl

theorem released_ne (s : State P) (p : P) : s.released p ≠ some p := by
  rw [released]
  split
  · rintro ⟨⟩
  · next h => exact h

theorem released_iff (s : State P) {p q : P} (hq : q ≠ p) :
    s.released p = some q ↔ s.owner = some q := by
  rw [released]
  split
  · next h =>
    rw [h]
    constructor
    · rintro ⟨⟩
    · intro heq
      exact absurd (Option.some.inj heq).symm hq
  · rfl

/-- **The rest of a call keeps all processes in order.** -/
theorem Inv.proceed (h : s.Inv) {s' : State P} (hs : s.proceed p = some s') : s'.Inv := by
  have hp := h p
  simp only [State.proceed] at hs
  rw [Process.Good] at hp
  cases hpc : (s.process p).pc with
  | idle =>
    rw [hpc] at hs
    cases hs
  | insert fd =>
    rw [hpc] at hs hp
    obtain ⟨hheld, hlocked, howner⟩ := hp
    simp only [hlocked] at hs
    cases hs
    exact h.setProcess ⟨hheld, rfl, howner⟩
  | setLock fd =>
    rw [hpc] at hs hp
    obtain ⟨hheld, hlocked, howner⟩ := hp
    simp only at hs
    split at hs
    · next hfree =>
      cases hs
      refine h.update (Or.inr ⟨fd, by rw [hheld], hlocked, rfl⟩) fun q hq => ?_
      constructor
      · intro heq
        exact absurd (Option.some.inj heq).symm hq
      · intro heq
        rcases hfree with hnone | hself
        · cases hnone.symm.trans heq
        · exact absurd hself howner
    · cases hs
      exact h.setProcess ⟨hheld, hlocked, howner⟩
  | closeHeld fd =>
    rw [hpc] at hp
    exact hp.elim
  | closeDenied fd =>
    rw [hpc] at hs hp
    obtain ⟨hheld, hlocked, -⟩ := hp
    cases hs
    exact h.update ⟨hheld, hlocked, s.released_ne p⟩ fun q hq => s.released_iff hq
  | removeDenied =>
    rw [hpc] at hs hp
    obtain ⟨hheld, -, howner⟩ := hp
    cases hs
    exact h.setProcess (Or.inl ⟨hheld, rfl, howner⟩)
  | remove fd =>
    rw [hpc] at hs hp
    obtain ⟨hheld, -, howner⟩ := hp
    cases hs
    exact h.setProcess ⟨hheld, rfl, howner⟩
  | close fd =>
    rw [hpc] at hs hp
    obtain ⟨hheld, hlocked, -⟩ := hp
    cases hs
    exact h.update (Or.inl ⟨hheld, hlocked, s.released_ne p⟩) fun q hq => s.released_iff hq

/-- **One step keeps all processes in order**, unless a process locks a file it has already
locked. -/
theorem Inv.step (h : s.Inv) {a : Action P} (ha : s.Admits a) {s' : State P}
    (hs : s.step a = some s') : s'.Inv := by
  cases a with
  | proceed p => exact h.proceed hs
  | lockFile p fd =>
    have hp := h p
    rw [Process.Good] at hp
    cases fd with
    | none =>
      simp only [State.step] at hs
      split at hs
      · cases hs
        exact h
      · cases hs
    | some fd =>
      simp only [State.step] at hs
      split at hs
      · next hidle =>
        cases hs
        rw [hidle.1] at hp
        rcases hp with ⟨hheld, hlocked, howner⟩ | ⟨fd', -, hlocked, -⟩
        · exact h.setProcess ⟨hheld, hlocked, howner⟩
        · exact absurd (Eq.symm ha |>.trans hlocked) Bool.false_ne_true
      · cases hs
  | unlockFile p fd =>
    have hp := h p
    rw [Process.Good] at hp
    simp only [State.step] at hs
    split at hs
    · next hidle =>
      cases hs
      rw [hidle.1] at hp
      rcases hp with ⟨hheld, -⟩ | ⟨fd', hheld, hlocked, -⟩
      · exact absurd (hheld ▸ hidle.2) List.not_mem_nil
      · have hmem := hidle.2
        rw [hheld, List.mem_singleton] at hmem
        subst hmem
        refine h.update ⟨?_, hlocked, s.released_ne p⟩ fun q hq => s.released_iff hq
        change (s.process p).held.erase fd = []
        rw [hheld, List.erase_cons_head]
    · cases hs

/-- **Mutual exclusion.** In every state that is reached without a process calling `LockFile` on a
file that it has in its own lock table, at most one lock is outstanding. -/
theorem outstanding_subsingleton {s : State P} (h : s.Reachable) : s.Exclusive := by
  refine Inv.exclusive ?_
  induction h with
  | init => exact inv_init
  | step _ ha hs ih => exact ih.step ha hs

/-- Process 0 locks the file. -/
theorem exclusive_after_lock :
    ∃ s, (init : State ℕ).run [.lockFile 0 (some 3), .proceed 0, .proceed 0] = some s ∧
      (s.process 0).held = [3] ∧ s.Exclusive := by
  refine ⟨_, rfl, rfl, outstanding_subsingleton ?_⟩
  have h₁ := Reachable.step (a := .lockFile (0 : ℕ) (some 3)) .init rfl rfl
  have h₂ := Reachable.step (a := .proceed 0) h₁ trivial rfl
  exact Reachable.step (a := .proceed 0) h₂ trivial rfl

/-- **A lock lost.** Process 0 locks the file, and tries to lock it again. The second call fails, as
it should, but closes a descriptor of the file; now process 1 can lock the file, too. -/
theorem lock_lost :
    ∃ s, (init : State ℕ).run [.lockFile 0 (some 3), .proceed 0, .proceed 0,
        .lockFile 0 (some 4), .proceed 0, .proceed 0,
        .lockFile 1 (some 3), .proceed 1, .proceed 1] = some s ∧
      3 ∈ (s.process 0).held ∧ 3 ∈ (s.process 1).held ∧ ¬ s.Exclusive := by
  refine ⟨_, rfl, List.mem_cons_self, List.mem_cons_self, fun h => ?_⟩
  have heq := (h 0 1 3 3 List.mem_cons_self List.mem_cons_self).1
  exact absurd heq (by decide)

end State

end FileLock

end Squirrel
