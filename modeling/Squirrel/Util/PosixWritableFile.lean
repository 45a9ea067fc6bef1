import Squirrel.Util.Env

/-!
# Buffered writing

A `PosixWritableFile` collects what is appended in a buffer. When that is full it is written to the
descriptor, and what does not fit into it then is written directly. A call of `write` may be
interrupted, and then it is repeated; it may write a part of what it is given; or it fails. The
environment is the list of what these calls will do.

As long as none has failed, what has been written and what is in the buffer are together what has
been appended. After a failure the buffer is given up, so what is appended then follows a gap.

## Main definitions

* `PosixWritableFile.append`, `PosixWritableFile.flush`, `PosixWritableFile.sync`,
  `PosixWritableFile.close`

## Main results

* `PosixWritableFile.run_writes` — what has been written after any calls
* `PosixWritableFile.not_run_writes` — what a failure leaves out
-/

namespace Squirrel

/-- `errno`: its number, and what `strerror` says of it. -/
structure Errno where
  number : ℕ
  text : String
  deriving DecidableEq

/-- `ENOENT`. -/
def ENOENT : ℕ := 2

/-- `PosixError`. -/
def posixError (context : String) (e : Errno) : Status :=
  if e.number = ENOENT then .ofParts .kNotFound context e.text else .ioError context e.text

@[simp] theorem ok_posixError (context : String) (e : Errno) :
    (posixError context e).ok = false := by
  rw [posixError]
  split <;> rfl

namespace EnvPosix

/-- `Dirname`. -/
def dirname (filename : String) : String :=
  let chars := filename.toList
  if '/' ∈ chars then String.ofList (chars.take (chars.length - 1 - chars.reverse.idxOf '/'))
    else "."

/-- `Basename`. -/
def basename (filename : String) : String :=
  String.ofList (filename.toList.reverse.takeWhile (· ≠ '/')).reverse

/-- `IsManifest`. -/
def isManifest (filename : String) : Bool := "MANIFEST".toList.isPrefixOf (basename filename).toList

end EnvPosix

/-- What a call of `write` does: it is interrupted, it writes `n + 1` bytes or all if these are
fewer, or it fails. -/
inductive WriteResult
  | interrupted
  | wrote (n : ℕ)
  | failed (e : Errno)
  deriving DecidableEq

/-- `kWritableFileBufferSize`. -/
def kWritableFileBufferSize : ℕ := 65536

/-- A `PosixWritableFile`. Its descriptor is what has been written to it. -/
structure PosixWritableFile where
  filename : String
  dirname : String
  isManifest : Bool
  buf : Bytes
  pos : ℕ
  written : Bytes

namespace PosixWritableFile

/-! ### The members -/

/-- The constructor. Nothing is known of the bytes in the buffer. -/
def new (filename : String) (buf : Bytes) : PosixWritableFile :=
  ⟨filename, EnvPosix.dirname filename, EnvPosix.isManifest filename, buf, 0, []⟩

@[simp] theorem isManifest_new (filename : String) (buf : Bytes) :
    (new filename buf).isManifest = EnvPosix.isManifest filename := rfl

/-- What a call returns, with the results of `write` that it has not come to. It does not return if
it would come to more. -/
abbrev Outcome := Option (Status × PosixWritableFile × List WriteResult)

/-- `WriteUnbuffered`. -/
def writeUnbuffered (f : PosixWritableFile) (data : Bytes) : List WriteResult → Outcome
  | [] => if data = [] then some (.success, f, []) else none
  | result :: results =>
    if data = [] then some (.success, f, result :: results)
    else
      match result with
      -- retry
      | .interrupted => f.writeUnbuffered data results
      | .failed e => some (posixError f.filename e, f, results)
      | .wrote n =>
        { f with written := f.written ++ data.take (n + 1) }.writeUnbuffered (data.drop (n + 1))
        results

/-- `FlushBuffer`. -/
def flushBuffer (f : PosixWritableFile) (results : List WriteResult) : Outcome :=
  if f.pos ≤ f.buf.length then do
    let (status, f, results) ← f.writeUnbuffered (f.buf.take f.pos) results
    some (status, { f with pos := 0 }, results)
  else none

/-- `Append`. -/
def append (f : PosixWritableFile) (data : Bytes) (results : List WriteResult) : Outcome := do
  let copySize := min data.length (kWritableFileBufferSize - f.pos)
  let buf ← memcpy f.buf f.pos (data.take copySize)
  let writeData := data.drop copySize
  let f := { f with buf, pos := f.pos + copySize }
  if writeData = [] then some (.success, f, results)
  else
    let (status, f, results) ← f.flushBuffer results
    if ¬ status.ok then some (status, f, results)
    else if writeData.length < kWritableFileBufferSize then
      let buf ← memcpy f.buf 0 writeData
      some (.success, { f with buf, pos := writeData.length }, results)
    else f.writeUnbuffered writeData results

/-- `Flush`. -/
def flush (f : PosixWritableFile) (results : List WriteResult) : Outcome := f.flushBuffer results

/-- The status of a system call that may have failed. -/
def statusOf (context : String) : Option Errno → Status
  | none => .success
  | some e => posixError context e

/-- What the system calls in `SyncFd` do: whether there is `F_FULLFSYNC` and it succeeds, and why
`fdatasync` or `fsync` fails. -/
structure FsyncCalls where
  fullfsync : Bool
  fsync : Option Errno

/-- What the system calls apart from `write` do in `Sync`. -/
structure SyncCalls where
  openDir : Option Errno
  syncDir : FsyncCalls
  closeDir : Option Errno
  syncFile : FsyncCalls

/-- `SyncFd`. -/
def syncFd (path : String) (calls : FsyncCalls) : Status :=
  if calls.fullfsync then .success else statusOf path calls.fsync

/-- `SyncDirIfManifest`. -/
def syncDirIfManifest (f : PosixWritableFile) (calls : SyncCalls) : Status :=
  if ¬ f.isManifest then .success
  else
    match calls.openDir with
    | some e => posixError f.dirname e
    | none =>
      let status := syncFd f.dirname calls.syncDir
      -- nobody looks at the result of `close`
      let _ := calls.closeDir
      status

/-- `Sync`. -/
def sync (f : PosixWritableFile) (calls : SyncCalls) (results : List WriteResult) : Outcome :=
  let status := f.syncDirIfManifest calls
  if ¬ status.ok then some (status, f, results)
  else do
    let (status, f, results) ← f.flushBuffer results
    if ¬ status.ok then some (status, f, results)
    else some (syncFd f.filename calls.syncFile, f, results)

/-- `Close`, if `close` fails as `closed` says. -/
def close (f : PosixWritableFile) (closed : Option Errno) (results : List WriteResult) :
    Outcome := do
  let (status, f, results) ← f.flushBuffer results
  some (if status.ok then statusOf f.filename closed else status, f, results)

/-- The calls, each with what the system calls apart from `write` do in it. -/
inductive Op
  | append (data : Bytes)
  | flush
  | sync (calls : SyncCalls)
  | close (closed : Option Errno)

def call (f : PosixWritableFile) (results : List WriteResult) : Op → Outcome
  | .append data => f.append data results
  | .flush => f.flush results
  | .sync calls => f.sync calls results
  | .close closed => f.close closed results

/-- Calls one after another. -/
def run (f : PosixWritableFile) (results : List WriteResult) :
    List Op → Option (List Status × PosixWritableFile × List WriteResult)
  | [] => some ([], f, results)
  | op :: ops => do
    let (status, f, results) ← f.call results op
    let (statuses, f, results) ← f.run results ops
    some (status :: statuses, f, results)

/-! ### What is asked of the calls -/

/-- What a call appends. -/
def Op.data : Op → Bytes
  | .append data => data
  | _ => []

/-- What has been appended. -/
def appended (ops : List Op) : Bytes := (ops.map Op.data).flatten

/-- The call is one of those that empty the buffer. -/
def Op.Flushes : Op → Prop
  | .append _ => False
  | _ => True

/-- No call of `write` has failed. -/
def Intact (results : List WriteResult) : Prop := ∀ e, .failed e ∉ results

/-- One of the system calls that write the caches of a file to the disk succeeds. -/
def FsyncCalls.Succeed (calls : FsyncCalls) : Prop :=
  calls.fullfsync = true ∨ calls.fsync = none

/-- None of the system calls of `Sync` fails whose results are looked at, apart from `write`. -/
def SyncCalls.Succeed (calls : SyncCalls) (isManifest : Bool) : Prop :=
  (isManifest = true → calls.openDir = none ∧ calls.syncDir.Succeed) ∧ calls.syncFile.Succeed

/-- The number of results that are not interruptions. -/
def answers : List WriteResult → ℕ
  | [] => 0
  | .interrupted :: results => answers results
  | _ :: results => answers results + 1

/-- The bytes in the buffer. -/
def pending (f : PosixWritableFile) : Bytes := f.buf.take f.pos

/-- The bounds of the buffer are kept. -/
structure Bounded (f : PosixWritableFile) : Prop where
  length_buf : f.buf.length = kWritableFileBufferSize
  pos_le : f.pos ≤ kWritableFileBufferSize

variable {f f' : PosixWritableFile} {data : Bytes} {results rest : List WriteResult}
  {status : Status}

theorem Bounded.length_pending (h : f.Bounded) : f.pending.length = f.pos := by
  rw [pending, List.length_take, h.length_buf, Nat.min_eq_left h.pos_le]

/-! ### Writing -/

theorem not_intact_cons_failed (e : Errno) (results : List WriteResult) :
    ¬ Intact (.failed e :: results) := fun h => h e List.mem_cons_self

theorem intact_nil : Intact [] := fun _ => List.not_mem_nil

theorem intact_cons {result : WriteResult} (hne : ∀ e, result ≠ .failed e) :
    Intact (result :: results) ↔ Intact results := by
  constructor
  · intro h e he
    exact h e (List.mem_cons_of_mem _ he)
  · rintro h e he
    rcases List.mem_cons.mp he with heq | he
    · exact hne e heq.symm
    · exact h e he

theorem intact_append {results' : List WriteResult} :
    Intact (results ++ results') ↔ Intact results ∧ Intact results' := by
  simp only [Intact, List.mem_append, not_or, forall_and]

@[simp] theorem writeUnbuffered_empty (f : PosixWritableFile) (results : List WriteResult) :
    f.writeUnbuffered [] results = some (.success, f, results) := by
  cases results with
  | nil => rfl
  | cons result results => rfl

theorem writeUnbuffered_interrupted (hdata : data ≠ []) :
    f.writeUnbuffered data (.interrupted :: results) = f.writeUnbuffered data results := by
  rw [writeUnbuffered, if_neg hdata]

theorem writeUnbuffered_failed (hdata : data ≠ []) (e : Errno) :
    f.writeUnbuffered data (.failed e :: results) = some (posixError f.filename e, f, results) := by
  rw [writeUnbuffered, if_neg hdata]

theorem writeUnbuffered_wrote (hdata : data ≠ []) (n : ℕ) :
    f.writeUnbuffered data (.wrote n :: results)
      = { f with written := f.written ++ data.take (n + 1) }.writeUnbuffered (data.drop (n + 1))
        results := by
  rw [writeUnbuffered, if_neg hdata]

/-- A part of the data is written, all of it if no `write` fails. The induction is on the
results. -/
theorem writeUnbuffered_spec (h : f.writeUnbuffered data results = some (status, f', rest)) :
    ∃ consumed k, results = consumed ++ rest ∧ (status.ok = true ↔ Intact consumed) ∧
      f' = { f with written := f.written ++ data.take k } ∧
        (status.ok = true → data.length ≤ k) := by
  induction results generalizing f data with
  | nil =>
    rw [writeUnbuffered, Option.ite_none_right_eq_some] at h
    obtain ⟨rfl, h⟩ := h
    cases h
    refine ⟨[], 0, rfl, iff_of_true rfl intact_nil, ?_, fun _ => le_rfl⟩
    rw [List.take_nil, List.append_nil]
  | cons result results ih =>
    by_cases hdata : data = []
    · rw [hdata, writeUnbuffered_empty] at h
      cases h
      refine ⟨[], 0, rfl, iff_of_true rfl intact_nil, ?_, fun _ => by rw [hdata]; exact le_rfl⟩
      rw [List.take_zero, List.append_nil]
    · cases result with
      | interrupted =>
        rw [writeUnbuffered_interrupted hdata] at h
        obtain ⟨consumed, k, rfl, hok, hf, hk⟩ := ih h
        exact ⟨.interrupted :: consumed, k, rfl, hok.trans (intact_cons fun e h => by cases h).symm,
          hf, hk⟩
      | failed e =>
        rw [writeUnbuffered_failed hdata] at h
        cases h
        refine ⟨[.failed e], 0, rfl, ?_, ?_, ?_⟩
        · rw [ok_posixError]
          exact iff_of_false Bool.false_ne_true (not_intact_cons_failed e [])
        · rw [List.take_zero, List.append_nil]
        · rw [ok_posixError]
          intro hfalse
          cases hfalse
      | wrote n =>
        rw [writeUnbuffered_wrote hdata] at h
        obtain ⟨consumed, k, rfl, hok, hf, hk⟩ := ih h
        refine ⟨.wrote n :: consumed, n + 1 + k, rfl,
          hok.trans (intact_cons fun e h => by cases h).symm, ?_, ?_⟩
        · have htake : data.take (n + 1) ++ (data.drop (n + 1)).take k = data.take (n + 1 + k) :=
            List.take_add.symm
          rw [hf, ← htake, ← List.append_assoc]
        · intro hsuccess
          have hle := hk hsuccess
          rw [List.length_drop] at hle
          omega

/-- If it fails, something is left. -/
theorem writeUnbuffered_short (h : f.writeUnbuffered data results = some (status, f', rest))
    (hfailed : status.ok = false) :
    ∃ k < data.length, f' = { f with written := f.written ++ data.take k } := by
  induction results generalizing f data with
  | nil =>
    rw [writeUnbuffered, Option.ite_none_right_eq_some] at h
    cases h.2
    exact absurd hfailed (by decide)
  | cons result results ih =>
    by_cases hdata : data = []
    · rw [hdata, writeUnbuffered_empty] at h
      cases h
      exact absurd hfailed (by decide)
    · have hpos : 0 < data.length := List.length_pos_iff.mpr hdata
      cases result with
      | interrupted =>
        rw [writeUnbuffered_interrupted hdata] at h
        exact ih h
      | failed e =>
        rw [writeUnbuffered_failed hdata] at h
        cases h
        exact ⟨0, hpos, by rw [List.take_zero, List.append_nil]⟩
      | wrote n =>
        rw [writeUnbuffered_wrote hdata] at h
        obtain ⟨k, hk, hf⟩ := ih h
        rw [List.length_drop] at hk
        refine ⟨n + 1 + k, by omega, ?_⟩
        rw [hf, List.append_assoc, ← List.take_add]

/-- Enough answers make it return, and none is wasted. -/
theorem writeUnbuffered_returns (f : PosixWritableFile) (data : Bytes)
    (henough : data.length ≤ answers results) :
    ∃ status f' rest, f.writeUnbuffered data results = some (status, f', rest) ∧
      answers results ≤ answers rest + data.length := by
  induction results generalizing f data with
  | nil =>
    obtain rfl : data = [] := List.length_eq_zero_iff.mp (Nat.le_zero.mp henough)
    exact ⟨_, _, _, rfl, le_rfl⟩
  | cons result results ih =>
    by_cases hdata : data = []
    · subst hdata
      exact ⟨_, _, _, writeUnbuffered_empty .., le_rfl⟩
    · have hpos : 0 < data.length := List.length_pos_iff.mpr hdata
      cases result with
      | interrupted =>
        rw [writeUnbuffered_interrupted hdata]
        have hsame : answers (.interrupted :: results) = answers results := rfl
        rw [hsame] at henough ⊢
        exact ih f data henough
      | failed e =>
        have hcount : answers (.failed e :: results) = answers results + 1 := rfl
        refine ⟨_, _, _, writeUnbuffered_failed hdata e, ?_⟩
        rw [hcount]
        omega
      | wrote n =>
        have hcount : answers (.wrote n :: results) = answers results + 1 := rfl
        rw [hcount] at henough ⊢
        obtain ⟨status, f', rest, hwrite, hle⟩ := ih
          { f with written := f.written ++ data.take (n + 1) } (data.drop (n + 1))
          (by rw [List.length_drop]; omega)
        refine ⟨status, f', rest, (writeUnbuffered_wrote hdata n).trans hwrite, ?_⟩
        rw [List.length_drop] at hle
        omega

/-! ### The calls -/

theorem Bounded.flushBuffer_eq (h : f.Bounded) (results : List WriteResult) :
    f.flushBuffer results = (f.writeUnbuffered f.pending results).map
      fun out => (out.1, { out.2.1 with pos := 0 }, out.2.2) := by
  have hfit : f.pos ≤ f.buf.length := by
    rw [h.length_buf]
    exact h.pos_le
  rw [flushBuffer, if_pos hfit, Option.map_eq_bind]
  rfl

/-- `FlushBuffer` leaves an empty buffer, also when it fails. -/
theorem Bounded.flushBuffer_spec (hb : f.Bounded)
    (h : f.flushBuffer results = some (status, f', rest)) :
    ∃ consumed, results = consumed ++ rest ∧ (status.ok = true ↔ Intact consumed) ∧ f'.Bounded ∧
      f'.pos = 0 ∧ f'.buf = f.buf ∧ (Intact consumed → f'.written = f.written ++ f.pending) ∧
      f'.written <+: f.written ++ f.pending := by
  rw [hb.flushBuffer_eq] at h
  obtain ⟨⟨status₁, f₁, rest₁⟩, hwrite, heq⟩ := Option.map_eq_some_iff.mp h
  cases heq
  obtain ⟨consumed, k, hconsumed, hok, rfl, hk⟩ := writeUnbuffered_spec hwrite
  refine ⟨consumed, hconsumed, hok, ⟨hb.length_buf, Nat.zero_le _⟩, rfl, rfl, ?_, ?_⟩
  · intro hintact
    show f.written ++ f.pending.take k = _
    rw [List.take_of_length_le (hk (hok.mpr hintact))]
  · exact (List.prefix_append_right_inj _).mpr (List.take_prefix _ _)

theorem Bounded.flushBuffer_returns (hb : f.Bounded) (henough : f.pos ≤ answers results) :
    ∃ status f' rest, f.flushBuffer results = some (status, f', rest) ∧
      answers results ≤ answers rest + f.pos := by
  have hlen := hb.length_pending
  obtain ⟨status, f', rest, hwrite, hle⟩ :=
    writeUnbuffered_returns f f.pending (hlen.symm ▸ henough)
  refine ⟨status, { f' with pos := 0 }, rest, ?_, hlen ▸ hle⟩
  rw [hb.flushBuffer_eq, hwrite]
  rfl

theorem pending_of_pos_eq_zero (h : f.pos = 0) : f.pending = [] := by
  rw [pending, h, List.take_zero]

/-- What one call does, when it is given these results. -/
structure Did (f : PosixWritableFile) (op : Op) (consumed : List WriteResult) (status : Status)
    (f' : PosixWritableFile) : Prop where
  bounded : f'.Bounded
  failed : ¬ Intact consumed → status.ok = false
  stream : Intact consumed → f'.written ++ f'.pending = f.written ++ f.pending ++ op.data
  flushed : op.Flushes → status.ok = true → f'.pending = []
  written : f'.written <+: f.written ++ f.pending ++ op.data

/-- The buffer once the front of the data has been copied to it. -/
theorem Bounded.exists_copied (hb : f.Bounded) (data : Bytes) {n : ℕ}
    (hn : n = min data.length (kWritableFileBufferSize - f.pos)) :
    ∃ buf, memcpy f.buf f.pos (data.take n) = some buf ∧
      Bounded { f with buf, pos := f.pos + n } ∧
      pending { f with buf, pos := f.pos + n } = f.pending ++ data.take n := by
  have hpos := hb.pos_le
  have htake : (data.take n).length = n := by
    rw [List.length_take]
    omega
  have hdrop : (data.take n).length ≤ (f.buf.drop f.pos).length := by
    rw [htake, List.length_drop, hb.length_buf]
    omega
  have hcopy := memcpy_append f.pending (f.buf.drop f.pos)
    (data.take n) hb.length_pending.symm hdrop
  rw [pending, List.take_append_drop] at hcopy
  refine ⟨_, hcopy, ⟨?_, ?_⟩, ?_⟩
  · show (f.buf.take f.pos ++ data.take n ++ (f.buf.drop f.pos).drop (data.take n).length).length
      = _
    rw [List.length_append, List.length_append, List.length_drop, htake, List.length_drop,
      hb.length_buf, List.length_take, hb.length_buf]
    omega
  · show f.pos + n ≤ _
    omega
  · show (f.pending ++ data.take n ++ _).take (f.pos + n) = _
    refine List.take_left' ?_
    rw [List.length_append, hb.length_pending, htake]

/-- The buffer once a small rest of the data has been copied to the beginning of it. -/
theorem Bounded.exists_restarted (hb : f.Bounded) {data : Bytes}
    (hsmall : data.length < kWritableFileBufferSize) :
    ∃ buf, memcpy f.buf 0 data = some buf ∧ Bounded { f with buf, pos := data.length } ∧
      pending { f with buf, pos := data.length } = data := by
  have hcopy := memcpy_append [] f.buf data rfl (by rw [hb.length_buf]; exact hsmall.le)
  refine ⟨_, hcopy, ⟨?_, hsmall.le⟩, ?_⟩
  · show ([] ++ data ++ f.buf.drop data.length).length = _
    rw [List.nil_append, List.length_append, List.length_drop, hb.length_buf]
    omega
  · show ([] ++ data ++ f.buf.drop data.length).take data.length = _
    rw [List.nil_append, List.take_left]

/-- `Append`: into the buffer, or into the buffer and then behind what has been written. -/
theorem Bounded.append_spec (hb : f.Bounded) (h : f.append data results = some (status, f', rest)) :
    ∃ consumed, results = consumed ++ rest ∧ Did f (.append data) consumed status f' := by
  obtain ⟨n, hn⟩ : ∃ n, n = min data.length (kWritableFileBufferSize - f.pos) := ⟨_, rfl⟩
  obtain ⟨buf, hcopy, hb₁, hpending₁⟩ := hb.exists_copied data hn
  rw [append, ← hn] at h
  simp only [hcopy, Option.bind_eq_bind, Option.bind_some] at h
  split at h
  · -- all of it fits
    next hnil =>
    cases h
    have htake : data.take n = data := by
      rw [← List.take_append_drop n data, hnil, List.append_nil, List.take_take, Nat.min_self]
    refine ⟨[], rfl, hb₁, fun hne => absurd intact_nil hne, fun _ => ?_, by rintro ⟨⟩, ?_⟩
    · rw [hpending₁, htake, ← List.append_assoc]
      rfl
    · exact (List.prefix_append _ _).trans (List.prefix_append _ _)
  · obtain ⟨⟨status₂, f₂, rest₂⟩, hflush, hthen⟩ := Option.bind_eq_some_iff.mp h
    obtain ⟨consumed, rfl, hok, hb₂, hpos₂, hbuf₂, hwritten, hprefix⟩ := hb₁.flushBuffer_spec hflush
    rw [hpending₁] at hwritten hprefix
    have hsplit : f.written ++ f.pending ++ data
        = f.written ++ (f.pending ++ data.take n) ++ data.drop n := by
      rw [List.append_assoc, List.append_assoc, List.append_assoc, List.take_append_drop]
    have hpre : f₂.written <+: f.written ++ f.pending ++ data := by
      rw [hsplit]
      exact hprefix.trans (List.prefix_append _ _)
    dsimp only at hthen
    split at hthen
    · next hfailed =>
      cases hthen
      refine ⟨consumed, rfl, hb₂, fun _ => Bool.not_eq_true _ ▸ hfailed, ?_, by rintro ⟨⟩, hpre⟩
      exact fun hintact => absurd (hok.mpr hintact) hfailed
    · next hsuccess =>
      have hintact : Intact consumed := hok.mp (not_not.mp hsuccess)
      have hdone : f₂.written ++ data.drop n = f.written ++ f.pending ++ data := by
        rw [hwritten hintact, hsplit]
      split at hthen
      · next hsmall =>
        obtain ⟨buf₃, hcopy₃, hb₃, hpending₃⟩ := hb₂.exists_restarted hsmall
        rw [hcopy₃] at hthen
        cases hthen
        refine ⟨consumed, rfl, hb₃, fun hne => absurd hintact hne, fun _ => ?_, by rintro ⟨⟩, hpre⟩
        rw [hpending₃]
        exact hdone
      · obtain ⟨consumed₃, k, rfl, hok₃, rfl, hk⟩ := writeUnbuffered_spec hthen
        have hnone : pending { f₂ with written := f₂.written ++ (data.drop n).take k } = [] :=
          pending_of_pos_eq_zero hpos₂
        refine ⟨consumed ++ consumed₃, (List.append_assoc ..).symm, ⟨hb₂.length_buf, hb₂.pos_le⟩,
          ?_, ?_, by rintro ⟨⟩, ?_⟩
        · intro hne
          by_contra htrue
          exact hne (intact_append.mpr ⟨hintact, hok₃.mp (Bool.not_eq_false _ ▸ htrue)⟩)
        · intro hall
          rw [hnone, List.append_nil,
            List.take_of_length_le (hk (hok₃.mpr (intact_append.mp hall).2))]
          exact hdone
        · show f₂.written ++ (data.drop n).take k <+: f.written ++ f.pending ++ data
          rw [← hdone]
          exact (List.prefix_append_right_inj _).mpr (List.take_prefix _ _)

theorem did_of_flushed {op : Op} {consumed : List WriteResult} {s : Status} (hdata : op.data = [])
    (hb : f'.Bounded) (hpos : f'.pos = 0) (hs : ¬ Intact consumed → s.ok = false)
    (hwritten : Intact consumed → f'.written = f.written ++ f.pending)
    ( hprefix : f'.written <+: f.written ++ f.pending) : Did f op consumed s f' where
  bounded := hb
  failed := hs
  stream := by
    intro hintact
    rw [pending_of_pos_eq_zero hpos, hdata, List.append_nil, List.append_nil, hwritten hintact]
  flushed := fun _ _ => pending_of_pos_eq_zero hpos
  written := by
    rw [hdata, List.append_nil]
    exact hprefix

/-- **One call.** -/
theorem Bounded.call_spec (hb : f.Bounded) {op : Op}
    (h : f.call results op = some (status, f', rest)) :
    ∃ consumed, results = consumed ++ rest ∧ Did f op consumed status f' := by
  cases op with
  | append data => exact hb.append_spec h
  | flush =>
    obtain ⟨consumed, hconsumed, hok, hb', hpos, -, hwritten, hprefix⟩ := hb.flushBuffer_spec h
    refine ⟨consumed, hconsumed, did_of_flushed rfl hb' hpos (fun hne => ?_) hwritten hprefix⟩
    rw [← Bool.not_eq_true, hok]
    exact hne
  | sync calls =>
    change f.sync calls results = _ at h
    rw [sync] at h
    split at h
    · next hdir =>
      cases h
      refine ⟨[], rfl, hb, fun hne => absurd intact_nil hne, fun _ => ?_, fun _ hs =>
        absurd hs hdir, ?_⟩
      · exact (List.append_nil _).symm
      · exact (List.prefix_append _ _).trans (List.prefix_append _ _)
    · obtain ⟨⟨status₁, f₁, rest₁⟩, hflush, h⟩ := Option.bind_eq_some_iff.mp h
      obtain ⟨consumed, hconsumed, hok, hb', hpos, -, hwritten, hprefix⟩ :=
        hb.flushBuffer_spec hflush
      dsimp only at h
      split at h
      · next hfailed =>
        cases h
        refine ⟨consumed, hconsumed, did_of_flushed rfl hb' hpos (fun _ => ?_) hwritten hprefix⟩
        rwa [← Bool.not_eq_true]
      · next hsuccess =>
        cases h
        refine ⟨consumed, hconsumed, did_of_flushed rfl hb' hpos (fun hne => ?_) hwritten hprefix⟩
        exact absurd (hok.mp (not_not.mp hsuccess)) hne
  | close closed =>
    change f.close closed results = _ at h
    obtain ⟨⟨status₁, f₁, rest₁⟩, hflush, h⟩ := Option.bind_eq_some_iff.mp h
    obtain ⟨consumed, hconsumed, hok, hb', hpos, -, hwritten, hprefix⟩ := hb.flushBuffer_spec hflush
    cases h
    refine ⟨consumed, hconsumed, did_of_flushed rfl hb' hpos (fun hne => ?_) hwritten hprefix⟩
    have hfailed : ¬ status₁.ok = true := fun hs => hne (hok.mp hs)
    rw [if_neg hfailed, ← Bool.not_eq_true]
    exact hfailed

theorem Bounded.append_returns (hb : f.Bounded) {data : Bytes}
    (henough : f.pos + data.length ≤ answers results) :
    ∃ status f' rest, f.append data results = some (status, f', rest) ∧
      answers results + f'.pos ≤ answers rest + (f.pos + data.length) := by
  obtain ⟨n, hn⟩ : ∃ n, n = min data.length (kWritableFileBufferSize - f.pos) := ⟨_, rfl⟩
  obtain ⟨buf, hcopy, hb₁, hpending₁⟩ := hb.exists_copied data hn
  have hle : n ≤ data.length := hn ▸ Nat.min_le_left _ _
  have hrest : (data.drop n).length = data.length - n := List.length_drop
  rw [append, ← hn]
  simp only [hcopy, Option.bind_eq_bind, Option.bind_some]
  by_cases hnil : data.drop n = []
  · rw [if_pos hnil]
    refine ⟨_, _, _, rfl, ?_⟩
    show answers results + (f.pos + n) ≤ _
    omega
  · rw [if_neg hnil]
    obtain ⟨status₂, f₂, rest₂, hflush, hle₂⟩ := hb₁.flushBuffer_returns
      (show f.pos + n ≤ answers results by omega)
    have hleft : answers results ≤ answers rest₂ + (f.pos + n) := hle₂
    obtain ⟨-, -, -, hb₂, hpos₂, -⟩ := hb₁.flushBuffer_spec hflush
    rw [hflush]
    simp only [Option.bind_some]
    by_cases hok : ¬ status₂.ok = true
    · rw [if_pos hok]
      refine ⟨_, _, _, rfl, ?_⟩
      rw [hpos₂]
      omega
    · rw [if_neg hok]
      by_cases hsmall : (data.drop n).length < kWritableFileBufferSize
      · obtain ⟨buf₃, hcopy₃, -⟩ := hb₂.exists_restarted hsmall
        rw [if_pos hsmall, hcopy₃]
        refine ⟨_, _, _, rfl, ?_⟩
        show answers results + (data.drop n).length ≤ _
        omega
      · rw [if_neg hsmall]
        have henough₂ : (data.drop n).length ≤ answers rest₂ := by omega
        obtain ⟨status₃, f₃, rest₃, hwrite, hle₃⟩ :=
          writeUnbuffered_returns f₂ (data.drop n) henough₂
        obtain ⟨consumed, k, -, -, hf₃, -⟩ := writeUnbuffered_spec hwrite
        have hpos₃ : f₃.pos = 0 := by rw [hf₃]; exact hpos₂
        refine ⟨status₃, f₃, rest₃, hwrite, ?_⟩
        omega

/-- **Calls return** if `write` is not interrupted for ever. -/
theorem Bounded.call_returns (hb : f.Bounded) {op : Op}
    (henough : f.pos + op.data.length ≤ answers results) :
    ∃ status f' rest, f.call results op = some (status, f', rest) ∧
      answers results + f'.pos ≤ answers rest + (f.pos + op.data.length) := by
  have hflush : op.data = [] → ∃ status f' rest, f.flushBuffer results = some (status, f', rest) ∧
      answers results + f'.pos ≤ answers rest + (f.pos + op.data.length) := by
    intro hdata
    rw [hdata, List.length_nil, Nat.add_zero] at henough ⊢
    obtain ⟨status, f', rest, h, hle⟩ := hb.flushBuffer_returns henough
    obtain ⟨-, -, -, -, hpos, -⟩ := hb.flushBuffer_spec h
    refine ⟨status, f', rest, h, ?_⟩
    rw [hpos]
    exact hle
  cases op with
  | append data => exact hb.append_returns henough
  | flush => exact hflush rfl
  | sync calls =>
    obtain ⟨status, f', rest, h, hle⟩ := hflush rfl
    show ∃ _ _ _, f.sync calls results = _ ∧ _
    rw [sync]
    by_cases hdir : ¬ (f.syncDirIfManifest calls).ok = true
    · rw [if_pos hdir]
      exact ⟨_, f, results, rfl, Nat.add_le_add_left (Nat.le_add_right _ _) _⟩
    · rw [if_neg hdir, h]
      simp only [Option.bind_eq_bind, Option.bind_some]
      by_cases hok : ¬ status.ok = true
      · rw [if_pos hok]
        exact ⟨_, f', rest, rfl, hle⟩
      · rw [if_neg hok]
        exact ⟨_, f', rest, rfl, hle⟩
  | close closed =>
    obtain ⟨status, f', rest, h, hle⟩ := hflush rfl
    show ∃ _ _ _, f.close closed results = _ ∧ _
    rw [close, h]
    exact ⟨_, f', rest, rfl, hle⟩

/-! ### Runs -/

/-- What is known of a file after some calls: it is within its bounds, and if no `write` has failed
then nothing has been lost. -/
structure Streams (f : PosixWritableFile) (stream : Bytes) (consumed : List WriteResult) :
    Prop where
  bounded : f.Bounded
  stream : Intact consumed → f.written ++ f.pending = stream

theorem Streams.call {stream : Bytes} {consumed : List WriteResult} (h : f.Streams stream consumed)
    {op : Op} (hcall : f.call results op = some (status, f', rest)) :
    ∃ consumed', results = consumed' ++ rest ∧ Did f op consumed' status f' ∧
      f'.Streams (stream ++ op.data) (consumed ++ consumed') := by
  obtain ⟨consumed', hconsumed, hdid⟩ := h.bounded.call_spec hcall
  refine ⟨consumed', hconsumed, hdid, hdid.bounded, fun hintact => ?_⟩
  obtain ⟨hbefore, hnow⟩ := intact_append.mp hintact
  rw [hdid.stream hnow, h.stream hbefore]

theorem Streams.run {stream : Bytes} {consumed : List WriteResult} (h : f.Streams stream consumed)
    {ops : List Op} {statuses : List Status}
    (hrun : f.run results ops = some (statuses, f', rest)) :
    ∃ consumed', results = consumed' ++ rest ∧
      f'.Streams (stream ++ appended ops) (consumed ++ consumed') := by
  induction ops generalizing f results stream consumed statuses with
  | nil =>
    cases hrun
    refine ⟨[], rfl, ?_⟩
    rw [appended, List.map_nil, List.flatten_nil, List.append_nil, List.append_nil]
    exact h
  | cons op ops ih =>
    obtain ⟨⟨status, f₁, rest₁⟩, hcall, hrest⟩ := Option.bind_eq_some_iff.mp hrun
    obtain ⟨⟨statuses', f₂, rest₂⟩, hrun', heq⟩ := Option.bind_eq_some_iff.mp hrest
    cases heq
    obtain ⟨consumed₁, rfl, -, h₁⟩ := h.call hcall
    obtain ⟨consumed', rfl, h'⟩ := ih h₁ hrun'
    refine ⟨consumed₁ ++ consumed', (List.append_assoc ..).symm, ?_⟩
    rw [← List.append_assoc, appended, List.map_cons, List.flatten_cons, ← List.append_assoc]
    exact h'

/-- **Buffered writes preserve the stream.** After any calls with any results of `write`, and for
any call that follows. -/
theorem run_writes {filename : String} {buf : Bytes} (hbuf : buf.length = kWritableFileBufferSize)
    {ops : List Op} {results rest : List WriteResult} {statuses : List Status}
    {f : PosixWritableFile} (hrun : (new filename buf).run results ops = some (statuses, f, rest)) :
    f.pos ≤ kWritableFileBufferSize ∧ f.buf.length = kWritableFileBufferSize ∧
    ∃ consumed, results = consumed ++ rest ∧
      (Intact consumed → f.written ++ f.buf.take f.pos = appended ops) ∧
      ∀ (op : Op) (rest : List WriteResult),
        (f.pos + op.data.length ≤ answers rest →
          ∃ status f' rest', f.call rest op = some (status, f', rest')) ∧
        ∀ status f' rest', f.call rest op = some (status, f', rest') →
          ∃ consumed', rest = consumed' ++ rest' ∧
            (¬ Intact consumed' → status.ok = false) ∧
            (Intact consumed → f'.written <+: appended (ops ++ [op]) ∧
              (op.Flushes → status.ok = true → f'.written = appended ops)) := by
  have hnew : (new filename buf).Streams [] [] := ⟨⟨hbuf, Nat.zero_le _⟩, fun _ => rfl⟩
  obtain ⟨consumed, hconsumed, hstreams⟩ := hnew.run hrun
  rw [List.nil_append, List.nil_append] at hstreams
  refine ⟨hstreams.bounded.pos_le, hstreams.bounded.length_buf, consumed, hconsumed,
    hstreams.stream, ?_⟩
  intro op rest
  constructor
  · intro henough
    obtain ⟨status, f', rest', h, -⟩ := hstreams.bounded.call_returns henough
    exact ⟨status, f', rest', h⟩
  · intro status f' rest' hcall
    obtain ⟨consumed', hconsumed', hdid⟩ := hstreams.bounded.call_spec hcall
    refine ⟨consumed', hconsumed', hdid.failed, fun hintact => ⟨?_, fun hflush hs => ?_⟩⟩
    · have hwritten := hdid.written
      rwa [show f.written ++ f.pending = appended ops from hstreams.stream hintact,
        show appended ops ++ op.data = appended (ops ++ [op]) by simp [appended]] at hwritten
    · have hnow : Intact consumed' := by
        by_contra hne
        rw [hdid.failed hne] at hs
        exact Bool.false_ne_true hs
      have hdata : op.data = [] := by
        cases op with
        | append data => exact hflush.elim
        | flush => rfl
        | sync calls => rfl
        | close closed => rfl
      have hstream := hdid.stream hnow
      rwa [hdid.flushed hflush hs, hdata, List.append_nil, List.append_nil,
        show f.written ++ f.pending = appended ops from hstreams.stream hintact] at hstream

/-- What fits into the buffer is copied there. -/
theorem Bounded.append_small (hb : f.Bounded) (data : Bytes)
    (hfit : f.pos + data.length ≤ kWritableFileBufferSize) (results : List WriteResult) :
    ∃ f', f.append data results = some (.success, f', results) ∧ f'.Bounded ∧
      f'.written = f.written ∧ f'.pending = f.pending ++ data ∧ f'.filename = f.filename := by
  have hn : data.length = min data.length (kWritableFileBufferSize - f.pos) := by omega
  obtain ⟨buf, hcopy, hb', hpending⟩ := hb.exists_copied data hn
  rw [List.take_length] at hpending hcopy
  refine ⟨{ f with buf, pos := f.pos + data.length }, ?_, hb', rfl, hpending, rfl⟩
  rw [append, ← hn, List.take_length, hcopy]
  simp only [Option.bind_eq_bind, Option.bind_some, List.drop_length, if_true]

/-- `Flush` where the bytes in the buffer are known. -/
theorem Bounded.flush_of_pending (hb : f.Bounded) (hpending : f.pending = data)
    (hwrite : f.writeUnbuffered data results = some (status, f', rest)) :
    f.flush results = some (status, { f' with pos := 0 }, rest) := by
  rw [flush, hb.flushBuffer_eq, hpending, hwrite]
  rfl

/-- A file whose buffer is full of zeros. -/
def zeroed : PosixWritableFile := new "f" (List.replicate kWritableFileBufferSize 0)

theorem bounded_zeroed : zeroed.Bounded := ⟨List.length_replicate, Nat.zero_le _⟩

/-- Two bytes, written one by one after an interruption. -/
theorem run_writes_two : ∃ statuses f rest,
    zeroed.run [.interrupted, .wrote 0, .wrote 0] [.append [1, 2], .flush]
      = some (statuses, f, rest) ∧
    f.written ++ f.buf.take f.pos = [1, 2] := by
  obtain ⟨f₁, happend, hb₁, -, hpending, -⟩ := bounded_zeroed.append_small [1, 2]
    (show 0 + 2 ≤ 65536 by decide) [.interrupted, .wrote 0, .wrote 0]
  have hwrite : f₁.writeUnbuffered [1, 2] [.interrupted, .wrote 0, .wrote 0]
      = some (.success, { f₁ with written := f₁.written ++ [1] ++ [2] }, []) := rfl
  have hcall : zeroed.call [.interrupted, .wrote 0, .wrote 0] (.append [1, 2])
      = some (.success, f₁, [.interrupted, .wrote 0, .wrote 0]) := happend
  have hflush : f₁.call [.interrupted, .wrote 0, .wrote 0] .flush
      = some (.success, { f₁ with written := f₁.written ++ [1] ++ [2], pos := 0 }, []) :=
    hb₁.flush_of_pending hpending hwrite
  have hrun : zeroed.run [.interrupted, .wrote 0, .wrote 0] [.append [1, 2], .flush]
      = some ([.success, .success], { f₁ with written := f₁.written ++ [1] ++ [2], pos := 0 },
        []) := by
    rw [run, hcall]
    simp only [Option.bind_eq_bind, Option.bind_some, run, hflush]
  obtain ⟨-, -, consumed, hconsumed, hstream, -⟩ := run_writes List.length_replicate hrun
  refine ⟨_, _, _, hrun, (hstream ?_).trans rfl⟩
  rw [List.append_nil] at hconsumed
  rw [← hconsumed]
  intro e he
  simp at he

/-- The byte that is in the buffer when `write` fails is given up. -/
theorem run_failed (e : Errno) (results : List WriteResult) :
    ∃ statuses f, zeroed.run (.failed e :: results) [.append [1], .flush, .append [2, 3]]
        = some (statuses, f, results) ∧
      f.Bounded ∧ f.written = [] ∧ f.pending = [2, 3] ∧ f.filename = "f" := by
  obtain ⟨f₁, happend₁, hb₁, hwritten₁, hpending₁, hname₁⟩ := bounded_zeroed.append_small [1]
    (show 0 + 1 ≤ 65536 by decide) (.failed e :: results)
  have hflush : f₁.flush (.failed e :: results)
      = some (posixError f₁.filename e, { f₁ with pos := 0 }, results) :=
    hb₁.flush_of_pending hpending₁ (writeUnbuffered_failed (by decide) e)
  have hb₂ : Bounded { f₁ with pos := 0 } := ⟨hb₁.length_buf, Nat.zero_le _⟩
  obtain ⟨f₃, happend₃, hb₃, hwritten₃, hpending₃, hname₃⟩ := hb₂.append_small [2, 3]
    (show 0 + 2 ≤ 65536 by decide) results
  refine ⟨[.success, posixError f₁.filename e, .success], f₃, ?_, hb₃, hwritten₃.trans hwritten₁,
    hpending₃, hname₃.trans hname₁⟩
  simp only [run, call, happend₁, hflush, happend₃, Option.bind_eq_bind, Option.bind_some]

/-- **A failure leaves a gap.** What is appended after it is written in the place of what was in the
buffer, by a `Flush` that succeeds, or by one whose second `write` fails. -/
theorem not_run_writes :
    let ops : List Op := [.append [1], .flush, .append [2, 3]]
    let e : Errno := ⟨28, "No space left on device"⟩
    (∃ statuses f f', zeroed.run [.failed e, .wrote 1] ops = some (statuses, f, [.wrote 1]) ∧
      f.call [.wrote 1] .flush = some (.success, f', []) ∧ f'.written ≠ appended ops) ∧
    ∃ statuses f f', zeroed.run [.failed e, .wrote 0, .failed e] ops
        = some (statuses, f, [.wrote 0, .failed e]) ∧
      f.call [.wrote 0, .failed e] .flush = some (posixError "f" e, f', []) ∧
      ¬ f'.written <+: appended (ops ++ [.flush]) := by
  intro ops e
  constructor
  · obtain ⟨statuses, f, hrun, hb, hwritten, hpending, -⟩ := run_failed e [.wrote 1]
    have hwrite : f.writeUnbuffered [2, 3] [.wrote 1]
        = some (.success, { f with written := f.written ++ [2, 3] }, []) := rfl
    refine ⟨statuses, f, _, hrun, hb.flush_of_pending hpending hwrite, ?_⟩
    show f.written ++ [2, 3] ≠ _
    rw [hwritten]
    decide
  · obtain ⟨statuses, f, hrun, hb, hwritten, hpending, hname⟩ := run_failed e [.wrote 0, .failed e]
    have hwrite : f.writeUnbuffered [2, 3] [.wrote 0, .failed e]
        = some (posixError f.filename e, { f with written := f.written ++ [2] }, []) := rfl
    rw [hname] at hwrite
    refine ⟨statuses, f, _, hrun, hb.flush_of_pending hpending hwrite, ?_⟩
    show ¬ f.written ++ [2] <+: _
    rw [hwritten]
    decide

end PosixWritableFile

end Squirrel
