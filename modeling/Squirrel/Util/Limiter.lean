import Mathlib.Algebra.BigOperators.Group.Finset.Basic
import Mathlib.Algebra.Order.BigOperators.Group.Finset
import Mathlib.Data.Fintype.BigOperators
import Mathlib.Data.Fintype.Card
import Mathlib.Data.List.Count
import Squirrel.Util.Env

/-!
# Limits on resources

A `Limiter` counts how many mappings or descriptors may still be acquired. Each of its atomic
operations is one step; between the two of a refused `Acquire` the counter is one too low, and so it
may be below zero.

In the POSIX environment any number of threads open and destroy files, all system calls may fail,
and the steps of different threads come in any order. Two facts about a single step carry
everything: it keeps the sum of the counter and of what threads and files hold, and it does not add
to what is held unless the counter was positive (`Step.keeps`, `Step.grows`).

In the Windows environment one exit of `NewRandomAccessFile` does not give back what has been
acquired. Each failure of `GetFileSizeEx` behind a successful `Acquire` costs one mapping for good,
and nothing else does.

## Main results

* `PosixFiles.limits_hold` — the limits hold for every interleaving
* `WindowsFiles.balanced_iff` — which runs leak, in the Windows environment
-/

namespace Squirrel

/-- A `Limiter`. -/
structure Limiter where
  acquiresAllowed : ℤ
  deriving DecidableEq

namespace Limiter

def fetchSub (l : Limiter) : Limiter := ⟨l.acquiresAllowed - 1⟩

def fetchAdd (l : Limiter) : Limiter := ⟨l.acquiresAllowed + 1⟩

/-- `Acquire`, where no other thread comes between its two operations. -/
def acquire (l : Limiter) : Bool × Limiter :=
  if 0 < l.acquiresAllowed then (true, l.fetchSub) else (false, l.fetchSub.fetchAdd)

/-- `Release`. -/
def release (l : Limiter) : Limiter := l.fetchAdd

end Limiter

/-! ### The POSIX environment -/

namespace PosixFiles

/-- The two limiters of a `PosixEnv`. -/
inductive Kind
  | mmap
  | fd
  deriving DecidableEq

/-- A file that has been returned: a `PosixMmapReadableFile`, or a `PosixRandomAccessFile` with or
without a permanent descriptor. -/
inductive File
  | mapped
  | permanent
  | temporary
  deriving DecidableEq

/-- The file that holds an acquisition of the limiter. -/
def Kind.file : Kind → File
  | mmap => .mapped
  | fd => .permanent

/-- Where a thread is: between two calls, or in front of an operation of the current call. -/
inductive Pc
  | idle
  /-- `NewRandomAccessFile`, the file is open: in front of the `fetch_sub` of `mmap_limiter_`. -/
  | acquireMmap
  /-- The `Acquire` has to be undone: in front of its `fetch_add`. -/
  | undoMmap
  /-- The constructor of `PosixRandomAccessFile`: in front of the `fetch_sub` of `fd_limiter_`. -/
  | acquireFd
  /-- The `Acquire` has to be undone: in front of its `fetch_add`. -/
  | undoFd
  /-- There is no permanent descriptor: in front of `close`. -/
  | closeTemporary
  /-- A mapping has been acquired: in front of `GetFileSize`. -/
  | getFileSize
  | mmap
  /-- There is a `PosixMmapReadableFile`: in front of `close`. -/
  | closeMapped
  /-- There is an error: in front of `close`. -/
  | closeFailed
  /-- There is an error: in front of `mmap_limiter_.Release()`. -/
  | releaseFailed
  /-- The destructor of a `PosixMmapReadableFile`: in front of `munmap`. -/
  | munmap
  /-- In front of `mmap_limiter_->Release()`. -/
  | releaseMmap
  /-- The destructor of a `PosixRandomAccessFile` with a permanent descriptor: in front of
  `close`. -/
  | closePermanent
  /-- In front of `fd_limiter_->Release()`. -/
  | releaseFd
  deriving DecidableEq

/-- What the threads share: the limiters, and the files that have been returned and not
destroyed. -/
structure Shared where
  mmapLimiter : Limiter
  fdLimiter : Limiter
  files : List File

/-- One step of one thread. -/
inductive Step : Pc → Shared → Pc → Shared → Prop
  | openFailed (sh : Shared) : Step .idle sh .idle sh
  | opened (sh : Shared) : Step .idle sh .acquireMmap sh
  | mmapAcquired (sh : Shared) : 0 < sh.mmapLimiter.acquiresAllowed →
    Step .acquireMmap sh .getFileSize { sh with mmapLimiter := sh.mmapLimiter.fetchSub }
  | mmapRefused (sh : Shared) : ¬ 0 < sh.mmapLimiter.acquiresAllowed →
    Step .acquireMmap sh .undoMmap { sh with mmapLimiter := sh.mmapLimiter.fetchSub }
  | mmapUndone (sh : Shared) :
    Step .undoMmap sh .acquireFd { sh with mmapLimiter := sh.mmapLimiter.fetchAdd }
  | fdAcquired (sh : Shared) : 0 < sh.fdLimiter.acquiresAllowed →
    Step .acquireFd sh .idle
      { sh with fdLimiter := sh.fdLimiter.fetchSub, files := .permanent :: sh.files }
  | fdRefused (sh : Shared) : ¬ 0 < sh.fdLimiter.acquiresAllowed →
    Step .acquireFd sh .undoFd { sh with fdLimiter := sh.fdLimiter.fetchSub }
  | fdUndone (sh : Shared) :
    Step .undoFd sh .closeTemporary { sh with fdLimiter := sh.fdLimiter.fetchAdd }
  | temporaryClosed (sh : Shared) :
    Step .closeTemporary sh .idle { sh with files := .temporary :: sh.files }
  | sizeKnown (sh : Shared) : Step .getFileSize sh .mmap sh
  | sizeFailed (sh : Shared) : Step .getFileSize sh .closeFailed sh
  | mapped (sh : Shared) : Step .mmap sh .closeMapped sh
  | mapFailed (sh : Shared) : Step .mmap sh .closeFailed sh
  | mappedClosed (sh : Shared) : Step .closeMapped sh .idle { sh with files := .mapped :: sh.files }
  | failedClosed (sh : Shared) : Step .closeFailed sh .releaseFailed sh
  | failedReleased (sh : Shared) :
    Step .releaseFailed sh .idle { sh with mmapLimiter := sh.mmapLimiter.release }
  | destroyMapped (sh : Shared) : .mapped ∈ sh.files →
    Step .idle sh .munmap { sh with files := sh.files.erase .mapped }
  | unmapped (sh : Shared) : Step .munmap sh .releaseMmap sh
  | mmapReleased (sh : Shared) :
    Step .releaseMmap sh .idle { sh with mmapLimiter := sh.mmapLimiter.release }
  | destroyPermanent (sh : Shared) : .permanent ∈ sh.files →
    Step .idle sh .closePermanent { sh with files := sh.files.erase .permanent }
  | permanentClosed (sh : Shared) : Step .closePermanent sh .releaseFd sh
  | fdReleased (sh : Shared) :
    Step .releaseFd sh .idle { sh with fdLimiter := sh.fdLimiter.release }
  | destroyTemporary (sh : Shared) : .temporary ∈ sh.files →
    Step .idle sh .idle { sh with files := sh.files.erase .temporary }

/-- All threads, and what they share. -/
structure State (ι : Type) where
  pc : ι → Pc
  shared : Shared

/-- The environment with its limits, before any call. -/
def State.init (ι : Type) (limit : Kind → ℕ) : State ι :=
  ⟨fun _ => .idle, ⟨⟨limit .mmap⟩, ⟨limit .fd⟩, []⟩⟩

/-- The states that are reached, whichever thread makes the next step. -/
inductive Reachable {ι : Type} [DecidableEq ι] (limit : Kind → ℕ) : State ι → Prop
  | init : Reachable limit (.init ι limit)
  | step {s : State ι} {i : ι} {pc : Pc} {shared : Shared} :
    Reachable limit s → Step (s.pc i) s.shared pc shared →
    Reachable limit ⟨Function.update s.pc i pc, shared⟩

/-! ### What is held -/

/-- The limiter of a kind. -/
def Shared.limiter (sh : Shared) : Kind → Limiter
  | .mmap => sh.mmapLimiter
  | .fd => sh.fdLimiter

/-- The thread has an object that has not been returned, or is being destroyed. -/
def Pc.object : Pc → Kind → ℕ
  | .closeMapped, .mmap => 1
  | .munmap, .mmap => 1
  | .releaseMmap, .mmap => 1
  | .closePermanent, .fd => 1
  | .releaseFd, .fd => 1
  | _, _ => 0

/-- The thread has acquired something that no file holds. -/
def Pc.acquired (pc : Pc) (k : Kind) : ℕ :=
  match pc, k with
  | .getFileSize, .mmap => 1
  | .mmap, .mmap => 1
  | .closeFailed, .mmap => 1
  | .releaseFailed, .mmap => 1
  | pc, k => pc.object k

/-- The thread has lowered the counter and not acquired anything. -/
def Pc.undoing : Pc → Kind → ℕ
  | .undoMmap, .mmap => 1
  | .undoFd, .fd => 1
  | _, _ => 0

/-- The files that hold an acquisition. -/
def Shared.holders (sh : Shared) (k : Kind) : ℕ := sh.files.count k.file

variable {pc pc' : Pc} {sh sh' : Shared} {k : Kind}

theorem count_erase_add {f g : File} {files : List File} (h : f ∈ files) :
    (files.erase f).count g + (if f = g then 1 else 0) = files.count g := by
  rw [List.count_erase]
  by_cases hfg : f = g
  · subst hfg
    have : 0 < files.count f := List.count_pos_iff.mpr h
    simp only [beq_self_eq_true, if_true]
    omega
  · simp [hfg]

/-- A step keeps the sum of the counter and of what is held. -/
theorem Step.keeps (h : Step pc sh pc' sh') (k : Kind) :
    (sh'.limiter k).acquiresAllowed + (sh'.holders k + pc'.acquired k + pc'.undoing k : ℕ)
      = (sh.limiter k).acquiresAllowed + (sh.holders k + pc.acquired k + pc.undoing k : ℕ) := by
  cases h
  case destroyMapped hmem | destroyPermanent hmem | destroyTemporary hmem =>
    have herase := count_erase_add (g := k.file) hmem
    cases k <;>
      simp_all [Shared.limiter, Shared.holders, Pc.acquired, Pc.object, Pc.undoing, Kind.file]
  all_goals
    cases k <;>
      simp [Shared.limiter, Shared.holders, Pc.acquired, Pc.object, Pc.undoing, Kind.file,
        Limiter.fetchSub, Limiter.fetchAdd, Limiter.release] <;> omega

/-- What is held does not grow, unless the counter was positive. -/
theorem Step.grows (h : Step pc sh pc' sh') (k : Kind) :
    sh'.holders k + pc'.acquired k ≤ sh.holders k + pc.acquired k ∨
      0 < (sh.limiter k).acquiresAllowed ∧
        sh'.holders k + pc'.acquired k ≤ sh.holders k + pc.acquired k + 1 := by
  cases h
  case destroyMapped hmem | destroyPermanent hmem | destroyTemporary hmem =>
    have herase := count_erase_add (g := k.file) hmem
    cases k <;>
      simp_all [Shared.holders, Pc.acquired, Pc.object, Kind.file]
  all_goals
    cases k <;>
      simp_all [Shared.limiter, Shared.holders, Pc.acquired, Pc.object, Kind.file]

/-! ### All threads -/

section Threads

variable {ι : Type} [Fintype ι] {limit : Kind → ℕ} {s : State ι}

theorem sum_update [DecidableEq ι] (f : Pc → ℕ) (pcs : ι → Pc) (i : ι) (pc : Pc) :
    ∑ j, f (Function.update pcs i pc j) + f (pcs i) = ∑ j, f (pcs j) + f pc := by
  rw [← Finset.add_sum_erase _ _ (Finset.mem_univ i),
    ← Finset.add_sum_erase _ (fun j => f (pcs j)) (Finset.mem_univ i)]
  have hrest : ∑ j ∈ Finset.univ.erase i, f (Function.update pcs i pc j)
      = ∑ j ∈ Finset.univ.erase i, f (pcs j) := by
    refine Finset.sum_congr rfl fun j hj => ?_
    rw [Function.update_of_ne (Finset.ne_of_mem_erase hj)]
  rw [hrest, Function.update_self]
  omega

/-- What is true between any two steps. -/
structure Inv (limit : Kind → ℕ) (s : State ι) : Prop where
  balance : ∀ k, (s.shared.limiter k).acquiresAllowed
    + (s.shared.holders k + ∑ i, (s.pc i).acquired k + ∑ i, (s.pc i).undoing k : ℕ) = limit k
  bounded : ∀ k, s.shared.holders k + ∑ i, (s.pc i).acquired k ≤ limit k

theorem inv_init (limit : Kind → ℕ) : Inv limit (.init ι limit) := by
  constructor <;> rintro ⟨⟩ <;>
    simp [State.init, Shared.limiter, Shared.holders, Pc.acquired, Pc.object, Pc.undoing]

variable [DecidableEq ι]

/-- A step of any thread keeps the invariant. -/
theorem Inv.step (hs : Inv limit s) {i : ι} (h : Step (s.pc i) s.shared pc' sh') :
    Inv limit ⟨Function.update s.pc i pc', sh'⟩ := by
  have hacquired := fun k => sum_update (Pc.acquired · k) s.pc i pc'
  have hundoing := fun k => sum_update (Pc.undoing · k) s.pc i pc'
  constructor <;> intro k <;> have hbalance := hs.balance k <;> have hbounded := hs.bounded k <;>
    specialize hacquired k <;> specialize hundoing k <;>
    dsimp only at hacquired hundoing ⊢
  case balance =>
    have hkeeps := h.keeps k
    omega
  case bounded =>
    rcases h.grows k with hle | ⟨hpos, hle⟩
    · omega
    · -- The counter was positive, so less than the limit was held.
      omega

theorem Reachable.inv (h : Reachable limit s) : Inv limit s := by
  induction h with
  | init => exact inv_init limit
  | step _ hstep ih => exact ih.step hstep

theorem Pc.object_le_acquired (pc : Pc) (k : Kind) : pc.object k ≤ pc.acquired k := by
  cases pc <;> cases k <;> decide

theorem Pc.undoing_le_one (pc : Pc) (k : Kind) : pc.undoing k ≤ 1 := by
  cases pc <;> cases k <;> decide

/-- **The limits hold for every interleaving**: there are never more objects that hold a mapping, or
a permanent descriptor, than the limit allows; when no call is in progress, the counter is the limit
less the files that hold an acquisition; and the counter never leaves the range between the limit
and minus the number of threads. -/
theorem limits_hold (h : Reachable limit s) (k : Kind) :
    s.shared.holders k + ∑ i, (s.pc i).object k ≤ limit k ∧
      ((∀ i, s.pc i = .idle) →
        (s.shared.limiter k).acquiresAllowed = (limit k : ℤ) - s.shared.holders k) ∧
      -(Fintype.card ι : ℤ) ≤ (s.shared.limiter k).acquiresAllowed ∧
      (s.shared.limiter k).acquiresAllowed ≤ limit k := by
  have hbalance := h.inv.balance k
  have hbounded := h.inv.bounded k
  have hobject : ∑ i, (s.pc i).object k ≤ ∑ i, (s.pc i).acquired k :=
    Finset.sum_le_sum fun i _ => (s.pc i).object_le_acquired k
  have hundoing : ∑ i, (s.pc i).undoing k ≤ Fintype.card ι := by
    calc ∑ i, (s.pc i).undoing k ≤ ∑ _i : ι, 1 :=
          Finset.sum_le_sum fun i _ => (s.pc i).undoing_le_one k
      _ = Fintype.card ι := by simp
  refine ⟨by omega, fun hidle => ?_, by omega, by omega⟩
  have hnone : ∑ i, (s.pc i).acquired k = 0 ∧ ∑ i, (s.pc i).undoing k = 0 := by
    simp [hidle, Pc.acquired, Pc.object, Pc.undoing]
  omega

/-- One mapping is allowed. It is in use when a second thread has lowered the counter to `-1`. -/
theorem limits_hold_refused :
    ∃ s : State (Fin 2), Reachable (fun _ => 1) s ∧ s.pc 1 = .undoMmap ∧
      s.shared = ⟨⟨-1⟩, ⟨1⟩, [.mapped]⟩ ∧
      s.shared.holders .mmap + ∑ i, (s.pc i).object .mmap ≤ 1 := by
  have hinit : Reachable (ι := Fin 2) (fun _ => 1) _ := .init
  have hopened := hinit.step (i := 0) (.opened _)
  have hacquired := hopened.step (i := 0) (.mmapAcquired _ (by decide))
  have hsize := hacquired.step (i := 0) (.sizeKnown _)
  have hmapped := hsize.step (i := 0) (.mapped _)
  have hclosed := hmapped.step (i := 0) (.mappedClosed _)
  have hother := hclosed.step (i := 1) (.opened _)
  have hrefused := hother.step (i := 1) (.mmapRefused _ (by decide))
  exact ⟨_, hrefused, rfl, rfl, (limits_hold hrefused .mmap).1⟩

end Threads

end PosixFiles

/-! ### The Windows environment -/

namespace WindowsFiles

/-- A file that has been returned: a `WindowsMmapReadableFile` with the length of its region, or a
`WindowsRandomAccessFile`. -/
inductive File
  | mapped (filename : String) (length : ℕ)
  | random (filename : String)
  deriving DecidableEq

def File.isMapped : File → Bool
  | .mapped _ _ => true
  | .random _ => false

/-- What the system answers in one call of `NewRandomAccessFile`. -/
structure System where
  createFileA : Except WindowsErrorCode Unit
  getFileSizeEx : Except WindowsErrorCode ℕ
  createFileMappingA : Except WindowsErrorCode Unit
  mapViewOfFile : Except WindowsErrorCode Unit

/-- `NewRandomAccessFile`: the status, `*result`, and the limiter afterwards. -/
def newRandomAccessFile (limiter : Limiter) (fname : String) (sys : System) :
    Status × Option File × Limiter :=
  match sys.createFileA with
  | .error e => (windowsError fname e, none, limiter)
  | .ok () =>
    match limiter.acquire with
    | (false, limiter) => (.success, some (.random fname), limiter)
    | (true, limiter) =>
      match sys.getFileSizeEx with
      -- This exit does not call `Release()`.
      | .error e => (windowsError fname e, none, limiter)
      | .ok size =>
        match (do sys.createFileMappingA; sys.mapViewOfFile) with
        | .ok () => (.success, some (.mapped fname size), limiter)
        | .error e =>
          let s := windowsError fname e
          (s, none, if s.ok then limiter else limiter.release)

/-- The destructor of a file. -/
def File.destroy (f : File) (limiter : Limiter) : Limiter :=
  if f.isMapped then limiter.release else limiter

/-- The limiter, and the files that have been returned and not destroyed. -/
structure State where
  limiter : Limiter
  files : List File
  deriving DecidableEq

/-- What a program does: it opens a file, or destroys the file at a place among the live ones. -/
inductive Call
  | newRandomAccessFile (fname : String) (sys : System)
  | destroy (place : ℕ)

namespace State

def init (limit : ℤ) : State := ⟨⟨limit⟩, []⟩

def step (s : State) : Call → State
  | .newRandomAccessFile fname sys =>
    let (_, result, limiter) := WindowsFiles.newRandomAccessFile s.limiter fname sys
    ⟨limiter, result.toList ++ s.files⟩
  | .destroy place =>
    match s.files[place]? with
    | some f => ⟨f.destroy s.limiter, s.files.eraseIdx place⟩
    | none => s

def run (s : State) (calls : List Call) : State := calls.foldl step s

/-- The counter is the limit less the files that have a mapping. -/
def Balanced (limit : ℤ) (s : State) : Prop :=
  s.limiter.acquiresAllowed = limit - s.files.countP File.isMapped

instance (limit : ℤ) (s : State) : Decidable (s.Balanced limit) :=
  inferInstanceAs (Decidable (_ = _))

/-- The call acquires a mapping, and then `GetFileSizeEx` fails. -/
def leaks (s : State) : Call → Bool
  | .newRandomAccessFile _ sys =>
    sys.createFileA.isOk && 0 < s.limiter.acquiresAllowed && !sys.getFileSizeEx.isOk
  | .destroy _ => false

/-- What is left to acquire and what has been acquired. -/
def total (s : State) : ℤ := s.limiter.acquiresAllowed + s.files.countP File.isMapped

theorem balanced_iff_total {limit : ℤ} {s : State} : s.Balanced limit ↔ s.total = limit := by
  rw [Balanced, total]
  omega

theorem total_open (s : State) (fname : String) (sys : System) :
    (s.step (.newRandomAccessFile fname sys)).total
      = s.total - if s.leaks (.newRandomAccessFile fname sys) then 1 else 0 := by
  obtain ⟨create, size, mapping, view⟩ := sys
  rcases create with e | ⟨⟨⟩⟩
  case error => simp [step, newRandomAccessFile, total, leaks, Except.isOk, Except.toBool]
  case ok =>
    by_cases hpos : 0 < s.limiter.acquiresAllowed
    · -- A mapping is acquired: every exit but one gives it back, or to a file.
      rcases size with e | size <;> rcases mapping with e | ⟨⟨⟩⟩ <;> rcases view with e | ⟨⟨⟩⟩ <;>
        simp [step, newRandomAccessFile, total, leaks, Except.isOk, Except.toBool, Limiter.acquire,
          hpos, Limiter.fetchSub, Limiter.release, Limiter.fetchAdd, List.countP_cons,
          File.isMapped, bind, Except.bind] <;>
        omega
    · simp [step, newRandomAccessFile, total, leaks, Limiter.acquire, hpos, Limiter.fetchSub,
        Limiter.fetchAdd, File.isMapped]

theorem total_destroy (s : State) (place : ℕ) : (s.step (.destroy place)).total = s.total := by
  cases hfile : s.files[place]? with
  | none => simp [step, hfile]
  | some f =>
    obtain ⟨hlt, rfl⟩ := List.getElem?_eq_some_iff.mp hfile
    have hcount := (List.getElem_cons_eraseIdx_perm hlt).countP_eq File.isMapped
    simp only [step, hfile, total, File.destroy]
    cases hmapped : s.files[place].isMapped <;>
      simp only [hmapped, List.countP_cons, Limiter.release, Limiter.fetchAdd, Bool.false_eq_true,
        if_true, if_false] at hcount ⊢ <;>
      omega

theorem run_append (s : State) (before : List Call) (c : Call) :
    s.run (before ++ [c]) = (s.run before).step c := by
  simp [run]

/-- A call that leaks costs one mapping, and no other call does. -/
theorem total_step (s : State) (c : Call) :
    (s.step c).total = s.total - if s.leaks c then 1 else 0 := by
  cases c with
  | newRandomAccessFile fname sys => exact s.total_open fname sys
  | destroy place => simpa [leaks] using s.total_destroy place

end State

/-- **Which runs leak**: the counter is the limit less the live mappings after every call of a run,
if and only if in no call of the run `GetFileSizeEx` fails behind a mapping that has been
acquired. -/
theorem balanced_iff (limit : ℤ) (calls : List Call) :
    (∀ before, before <+: calls → (State.run (.init limit) before).Balanced limit) ↔
      ∀ before c, before ++ [c] <+: calls → (State.run (.init limit) before).leaks c = false := by
  constructor
  · intro hbalanced before c hpre
    have hbefore :=
      State.balanced_iff_total.mp (hbalanced before ((List.prefix_append _ _).trans hpre))
    have hafter := State.balanced_iff_total.mp (hbalanced _ hpre)
    rw [State.run_append, State.total_step] at hafter
    by_contra hleaks
    rw [if_pos (by simpa using hleaks)] at hafter
    omega
  · intro hnone before
    induction before using List.reverseRecOn with
    | nil => exact fun _ => by simp [State.run, State.init, State.Balanced]
    | append_singleton before c ih =>
      intro hpre
      have hbefore := State.balanced_iff_total.mp (ih ((List.prefix_append _ _).trans hpre))
      rw [State.balanced_iff_total, State.run_append, State.total_step, hnone before c hpre]
      simpa using hbefore

/-- One mapping is allowed. It is lost when `GetFileSizeEx` fails, and there is no file. -/
theorem not_balanced_leak :
    ¬ (State.run (.init 1)
        [.newRandomAccessFile "f" ⟨.ok (), .error ⟨6, "The handle is invalid."⟩, .ok (),
          .ok ()⟩]).Balanced 1 := by
  decide

end WindowsFiles

end Squirrel
