import Mathlib.Logic.Function.Basic
import Squirrel.Util.PosixWritableFile

/-!
# Whole files

`WriteStringToFile` and `ReadFileToString` write and read a file as a whole, here in a `PosixEnv`.
Every system call may fail. `write` may write a part of what it is given and `read` may return fewer
bytes than there is room for, and both may be interrupted.

A file that could not be written is deleted, unless that fails too. What is left of it then is the
beginning of the data. `ReadFileToString` returns what it has read up to a failure. There are system
calls whose results nobody looks at: `close` on a directory and on a file that was read, and all
that a file does which is deleted after an error.

## Main definitions

* `PosixFiles.writeStringToFile`, `PosixFiles.writeStringToFileSync`, `PosixFiles.readFileToString`

## Main results

* `PosixFiles.writeStringToFile_stores` — what a write leaves of the files
* `PosixFiles.readFileToString_reads` — what a read returns
-/

namespace Squirrel

open PosixWritableFile

/-! ### Sequential files -/

/-- What a call of `read` does: it is interrupted, it reads `n + 1` bytes or as many as there are
and as there is room for, or it fails. -/
inductive ReadResult
  | interrupted
  | got (n : ℕ)
  | failed (e : Errno)
  deriving DecidableEq

/-- A `PosixSequentialFile`. Its descriptor is what has not been read yet. -/
structure PosixSequentialFile where
  filename : String
  unread : Bytes

/-- `Read(n)`: the status, the bytes that `*result` is then, and the results of `read` that are
left. -/
def PosixSequentialFile.read (f : PosixSequentialFile) (n : ℕ) (result : Bytes) :
    List ReadResult → Option (Status × Bytes × PosixSequentialFile × List ReadResult)
  | [] => none
  -- retry
  | .interrupted :: results => f.read n result results
  | .failed e :: results => some (posixError f.filename e, result, f, results)
  | .got k :: results =>
    some (.success, f.unread.take (min (k + 1) n),
      { f with unread := f.unread.drop (min (k + 1) n) }, results)

/-- Files by name. -/
abbrev PosixFiles := String → Option Bytes

namespace PosixFiles

/-! ### Writing -/

/-- What the system calls do in `DoWriteStringToFile`: why those fail that do, and what `write`
does. The buffer of the file has some bytes in it. -/
structure WriteCalls where
  opened : Option Errno
  buf : Bytes
  results : List WriteResult
  sync : SyncCalls
  closed : Option Errno
  unlinked : Option Errno

/-- `Sync`, if the file should be synced and nothing has failed. -/
def syncIf (shouldSync : Bool) (calls : WriteCalls) (s : Status) (file : PosixWritableFile)
    (results : List WriteResult) : PosixWritableFile.Outcome :=
  if s.ok ∧ shouldSync then file.sync calls.sync results
  else some (s, file, results)

/-- `DoWriteStringToFile`: the status, the files, and the results of `write` that it has not come
to. -/
def doWriteStringToFile (files : PosixFiles) (data : Bytes) (fname : String) (shouldSync : Bool)
    (calls : WriteCalls) : Option (Status × PosixFiles × List WriteResult) :=
  match calls.opened with
  | some e => some (posixError fname e, files, calls.results)
  | none => do
    let (s, file, results) ← (PosixWritableFile.new fname calls.buf).append data calls.results
    let (s, file, results) ← syncIf shouldSync calls s file results
    -- a file that has not been closed is closed when it is deleted, and nobody looks at the status
    let (closed, file, results) ← file.close calls.closed results
    let s := if s.ok then closed else s
    let files := Function.update files fname (some file.written)
    let files := if ¬ s.ok ∧ calls.unlinked = none then Function.update files fname none else files
    some (s, files, results)

def writeStringToFile (files : PosixFiles) (data : Bytes) (fname : String) (calls : WriteCalls) :
    Option (Status × PosixFiles × List WriteResult) :=
  files.doWriteStringToFile data fname false calls

def writeStringToFileSync (files : PosixFiles) (data : Bytes) (fname : String)
    (calls : WriteCalls) :
    Option (Status × PosixFiles × List WriteResult) :=
  files.doWriteStringToFile data fname true calls

/-! ### Reading -/

/-- `kBufferSize` of `ReadFileToString`. -/
def kBufferSize : ℕ := 8192

/-- The loop of `ReadFileToString`. -/
def readLoop :
    ℕ → PosixSequentialFile → Bytes → List ReadResult → Option (Status × Bytes × List ReadResult)
  | 0, _, _, _ => none
  | rounds + 1, file, data, results => do
    let (s, fragment, file, results) ← file.read kBufferSize [] results
    if ¬ s.ok then some (s, data, results)
    else
      let data := data ++ fragment
      if fragment = [] then some (s, data, results) else readLoop rounds file data results

/-- What the system calls do in `ReadFileToString`. -/
structure ReadCalls where
  opened : Option Errno
  results : List ReadResult
  closed : Option Errno

/-- `ReadFileToString`: the status, `*data`, and the results of `read` that it has not come to. Each
round of the loop comes to one, so there are not more rounds than these. -/
def readFileToString (files : PosixFiles) (fname : String) (calls : ReadCalls) :
    Option (Status × Bytes × List ReadResult) :=
  match calls.opened with
  | some e => some (posixError fname e, [], calls.results)
  | none =>
    match files fname with
    | none => some (posixError fname ⟨ENOENT, "No such file or directory"⟩, [], calls.results)
    | some contents => do
      let (s, data, results) ← readLoop calls.results.length ⟨fname, contents⟩ [] calls.results
      -- the file is closed when it is deleted, and nobody looks at the result
      let _ := calls.closed
      some (s, data, results)

/-! ### What the calls on a written file do -/

variable {f f' : PosixWritableFile} {data : Bytes} {results rest : List WriteResult}
  {status : Status}

theorem flushBuffer_isManifest (hb : f.Bounded)
    (h : f.flushBuffer results = some (status, f', rest)) :
    f'.isManifest = f.isManifest := by
  rw [hb.flushBuffer_eq] at h
  obtain ⟨⟨status₁, f₁, rest₁⟩, hwrite, heq⟩ := Option.map_eq_some_iff.mp h
  cases heq
  obtain ⟨consumed, k, -, -, rfl, -⟩ := writeUnbuffered_spec hwrite
  rfl

/-- `Append` succeeds exactly if no `write` fails. After a failure nothing is in the buffer. -/
theorem append_status (hb : f.Bounded) (h : f.append data results = some (status, f', rest)) :
    f'.isManifest = f.isManifest ∧ (¬ status.ok = true → f'.pos = 0) ∧
      ∃ consumed, results = consumed ++ rest ∧ (status.ok = true ↔ Intact consumed) := by
  obtain ⟨buf, hcopy, hb₁, -⟩ := hb.exists_copied data rfl
  rw [append] at h
  simp only [hcopy, Option.bind_eq_bind, Option.bind_some] at h
  split at h
  · cases h
    exact ⟨rfl, fun hne => absurd rfl hne, [], rfl, iff_of_true rfl intact_nil⟩
  · obtain ⟨⟨status₂, f₂, rest₂⟩, hflush, hthen⟩ := Option.bind_eq_some_iff.mp h
    obtain ⟨consumed, rfl, hok, hb₂, hpos₂, -⟩ := hb₁.flushBuffer_spec hflush
    have hmanifest : f₂.isManifest = f.isManifest := (flushBuffer_isManifest hb₁ hflush :)
    dsimp only at hthen
    split at hthen
    · cases hthen
      exact ⟨hmanifest, fun _ => hpos₂, consumed, rfl, hok⟩
    · next hsuccess =>
      have hintact : Intact consumed := hok.mp (not_not.mp hsuccess)
      split at hthen
      · next hsmall =>
        obtain ⟨buf₃, hcopy₃, -⟩ := hb₂.exists_restarted hsmall
        rw [hcopy₃] at hthen
        cases hthen
        exact ⟨hmanifest, fun hne => absurd rfl hne, consumed, rfl, iff_of_true rfl hintact⟩
      · obtain ⟨consumed₃, k, rfl, hok₃, rfl, -⟩ := writeUnbuffered_spec hthen
        refine ⟨hmanifest, fun _ => hpos₂, consumed ++ consumed₃, (List.append_assoc ..).symm,
          hok₃.trans ?_⟩
        rw [intact_append]
        exact ⟨fun h => ⟨hintact, h⟩, fun h => h.2⟩

/-- A call leaves a part of the stream, and all of it if it succeeds. -/
structure Left (f : PosixWritableFile) (stream : Bytes) (ok : Bool) : Prop where
  bounded : f.Bounded
  beginning : f.written ++ f.pending <+: stream
  whole : ok = true → f.written ++ f.pending = stream

theorem append_left (hb : f.Bounded) (h : f.append data results = some (status, f', rest)) :
    Left f' (f.written ++ f.pending ++ data) status.ok := by
  obtain ⟨-, hfailed, consumed, rfl, hok⟩ := append_status hb h
  obtain ⟨consumed', hconsumed, hdid⟩ := hb.append_spec h
  obtain rfl : consumed = consumed' := List.append_cancel_right hconsumed
  refine ⟨hdid.bounded, ?_, fun hs => hdid.stream (hok.mp hs)⟩
  by_cases hs : status.ok = true
  · rw [hdid.stream (hok.mp hs)]
    exact List.prefix_rfl
  · rw [pending_of_pos_eq_zero (hfailed hs), List.append_nil]
    exact hdid.written

theorem ok_statusOf (context : String) (failure : Option Errno) :
    (statusOf context failure).ok = true ↔ failure = none := by
  cases failure with
  | none => exact iff_of_true rfl rfl
  | some e => simp [statusOf]

theorem ok_syncFd (path : String) (calls : FsyncCalls) :
    (syncFd path calls).ok = true ↔ calls.Succeed := by
  rw [syncFd, FsyncCalls.Succeed]
  by_cases hfull : calls.fullfsync = true
  · simp [hfull]
  · simp [hfull, ok_statusOf]

theorem ok_syncDirIfManifest (f : PosixWritableFile) (calls : SyncCalls) :
    (f.syncDirIfManifest calls).ok = true ↔
      (f.isManifest = true → calls.openDir = none ∧ calls.syncDir.Succeed) := by
  by_cases hmanifest : f.isManifest = true
  · cases hopen : calls.openDir with
    | none => simp [syncDirIfManifest, ok_syncFd, hmanifest, hopen]
    | some e => simp [syncDirIfManifest, hmanifest, hopen]
  · simp [syncDirIfManifest, hmanifest, Status.ok]

/-- `Sync` succeeds exactly if none of its system calls fails whose results are looked at. -/
theorem sync_spec (hb : f.Bounded) {calls : SyncCalls}
    (h : f.sync calls results = some (status, f', rest)) :
    ∃ consumed, results = consumed ++ rest ∧ Left f' (f.written ++ f.pending) status.ok ∧
      (status.ok = true ↔ Intact consumed ∧ calls.Succeed f.isManifest) := by
  have hdir := ok_syncDirIfManifest f calls
  rw [sync] at h
  split at h
  · next hfailed =>
    cases h
    refine ⟨[], rfl, ⟨hb, List.prefix_rfl, fun hs => absurd hs hfailed⟩, iff_of_false hfailed ?_⟩
    rintro ⟨-, hnone, -⟩
    exact hfailed (hdir.mpr hnone)
  · next hsynced =>
    obtain ⟨⟨status₁, f₁, rest₁⟩, hflush, hthen⟩ := Option.bind_eq_some_iff.mp h
    obtain ⟨consumed, hconsumed, hok, hb', hpos, -, hwritten, hprefix⟩ := hb.flushBuffer_spec hflush
    have hnothing := pending_of_pos_eq_zero hpos
    dsimp only at hthen
    split at hthen
    · next hfailed =>
      cases hthen
      refine ⟨consumed, hconsumed,
        ⟨hb', by rwa [hnothing, List.append_nil], fun hs => absurd hs hfailed⟩,
        iff_of_false hfailed ?_⟩
      rintro ⟨hintact, -⟩
      exact hfailed (hok.mpr hintact)
    · next hflushed =>
      cases hthen
      have hintact := hok.mp (not_not.mp hflushed)
      have hwhole : f'.written ++ f'.pending = f.written ++ f.pending := by
        rw [hnothing, List.append_nil]
        exact hwritten hintact
      refine ⟨consumed, hconsumed, ⟨hb', hwhole ▸ List.prefix_rfl, fun _ => hwhole⟩, ?_⟩
      rw [ok_syncFd]
      exact ⟨fun hsync => ⟨hintact, hdir.mp (not_not.mp hsynced), hsync⟩, fun hall => hall.2.2⟩

/-- `Close` succeeds exactly if none of its system calls fails. -/
theorem close_spec (hb : f.Bounded) {closed : Option Errno}
    (h : f.close closed results = some (status, f', rest)) :
    ∃ consumed, results = consumed ++ rest ∧ f'.written <+: f.written ++ f.pending ∧
      (status.ok = true → f'.written = f.written ++ f.pending) ∧
      (status.ok = true ↔ Intact consumed ∧ closed = none) := by
  obtain ⟨⟨status₁, f₁, rest₁⟩, hflush, h⟩ := Option.bind_eq_some_iff.mp h
  obtain ⟨consumed, hconsumed, hok, -, -, -, hwritten, hprefix⟩ := hb.flushBuffer_spec hflush
  cases h
  have hiff : (if status₁.ok then statusOf f'.filename closed else status₁).ok = true
      ↔ Intact consumed ∧ closed = none := by
    by_cases hs : status₁.ok = true
    · rw [if_pos hs, ok_statusOf]
      exact ⟨fun hnone => ⟨hok.mp hs, hnone⟩, fun hall => hall.2⟩
    · rw [if_neg hs]
      exact iff_of_false hs fun hall => hs (hok.mpr hall.1)
  exact ⟨consumed, hconsumed, hprefix, fun hs => hwritten (hiff.mp hs).1, hiff⟩

/-! ### A file that is written -/

/-- `Append`, and `Sync` if the file should be synced. -/
theorem syncIf_spec {shouldSync : Bool} {calls : WriteCalls} {stream : Bytes}
    (hleft : Left f stream status.ok) {status' : Status}
    (h : syncIf shouldSync calls status f results = some (status', f', rest)) :
    ∃ consumed, results = consumed ++ rest ∧ Left f' stream status'.ok ∧
      (status'.ok = true ↔ status.ok = true ∧ Intact consumed ∧
        (shouldSync = true → calls.sync.Succeed f.isManifest)) := by
  rw [syncIf] at h
  split at h
  · next hsync =>
    obtain ⟨consumed, hconsumed, hleft', hok⟩ := sync_spec hleft.bounded h
    rw [hleft.whole hsync.1] at hleft'
    refine ⟨consumed, hconsumed, hleft', hok.trans ?_⟩
    exact ⟨fun hall => ⟨hsync.1, hall.1, fun _ => hall.2⟩, fun hall => ⟨hall.2.1, hall.2.2 hsync.2⟩⟩
  · next hskip =>
    cases h
    refine ⟨[], rfl, hleft, ?_⟩
    exact ⟨fun hok => ⟨hok, intact_nil, fun hsync => absurd ⟨hok, hsync⟩ hskip⟩, fun hall => hall.1⟩

/-- None of the system calls fails that are made for the file and whose results are looked at. -/
def WriteCalls.Succeed (calls : WriteCalls) (fname : String) (shouldSync : Bool)
    (consumed : List WriteResult) : Prop :=
  calls.opened = none ∧ Intact consumed ∧ calls.closed = none ∧
    (shouldSync = true → calls.sync.Succeed (EnvPosix.isManifest fname))

/-- What `DoWriteStringToFile` leaves of the files, and how its status tells. -/
structure Wrote (files files' : PosixFiles) (data : Bytes) (fname : String) (shouldSync : Bool)
    (calls : WriteCalls) (s : Status) (rest : List WriteResult) : Prop where
  others : ∀ name ≠ fname, files' name = files name
  status : ∃ consumed, calls.results = consumed ++ rest ∧
    (s.ok = true ↔ calls.Succeed fname shouldSync consumed)
  stored : s.ok = true → files' fname = some data
  failed : s.ok = false →
    calls.opened ≠ none ∧ files' = files ∨
    calls.opened = none ∧ calls.unlinked = none ∧ files' fname = none ∨
    calls.opened = none ∧ calls.unlinked ≠ none ∧ ∃ part, part <+: data ∧ files' fname = some part

theorem doWrite_wrote {files files' : PosixFiles} {fname : String} {shouldSync : Bool}
    {calls : WriteCalls} (hbuf : calls.buf.length = kWritableFileBufferSize) {s : Status}
    (h : files.doWriteStringToFile data fname shouldSync calls = some (s, files', rest)) :
    Wrote files files' data fname shouldSync calls s rest := by
  rw [doWriteStringToFile] at h
  cases hopened : calls.opened with
  | some e =>
    rw [hopened] at h
    cases h
    refine ⟨fun _ _ => rfl, ⟨[], rfl, ?_⟩, fun hs => ?_, fun _ => .inl ⟨?_, rfl⟩⟩
    · refine iff_of_false (by simp) ?_
      rintro ⟨hnone, -⟩
      rw [hopened] at hnone
      cases hnone
    · simp at hs
    · rw [hopened]
      exact Option.some_ne_none e
  | none =>
    rw [hopened] at h
    obtain ⟨⟨s₁, f₁, rest₁⟩, happend, h₁⟩ := Option.bind_eq_some_iff.mp h
    obtain ⟨⟨s₂, f₂, rest₂⟩, hsync, h₂⟩ := Option.bind_eq_some_iff.mp h₁
    obtain ⟨⟨s₃, f₃, rest₃⟩, hclose, h₃⟩ := Option.bind_eq_some_iff.mp h₂
    have hnew : (PosixWritableFile.new fname calls.buf).Bounded := ⟨hbuf, Nat.zero_le _⟩
    obtain ⟨hmanifest, -, consumed₁, hconsumed₁, hok₁⟩ := append_status hnew happend
    have hleft₁ : Left f₁ data s₁.ok := (append_left hnew happend :)
    obtain ⟨consumed₂, hconsumed₂, hleft₂, hok₂⟩ := syncIf_spec hleft₁ hsync
    obtain ⟨consumed₃, hconsumed₃, hprefix, hwhole, hok₃⟩ := close_spec hleft₂.bounded hclose
    have hpart : f₃.written <+: data := hprefix.trans hleft₂.beginning
    have hok : (if s₂.ok then s₃ else s₂).ok = true ↔ s₂.ok = true ∧ s₃.ok = true := by
      by_cases hs : s₂.ok = true
      · simp [hs]
      · simp [hs]
    dsimp only at h₃
    generalize (if s₂.ok then s₃ else s₂) = s' at h₃ hok
    have hresults : calls.results = consumed₁ ++ consumed₂ ++ consumed₃ ++ rest₃ := by
      rw [hconsumed₁, hconsumed₂, hconsumed₃, List.append_assoc, List.append_assoc]
    have hsucceed :
        s'.ok = true ↔ calls.Succeed fname shouldSync (consumed₁ ++ consumed₂ ++ consumed₃) := by
      rw [hok, hok₂, hok₁, hok₃, hmanifest, isManifest_new, WriteCalls.Succeed, intact_append,
        intact_append]
      constructor
      · rintro ⟨⟨h₁, h₂, hsynced⟩, h₃, hclosed⟩
        exact ⟨hopened, ⟨⟨h₁, h₂⟩, h₃⟩, hclosed, hsynced⟩
      · rintro ⟨-, ⟨⟨h₁, h₂⟩, h₃⟩, hclosed, hsynced⟩
        exact ⟨⟨h₁, h₂, hsynced⟩, h₃, hclosed⟩
    by_cases hdelete : ¬ s'.ok = true ∧ calls.unlinked = none
    · rw [if_pos hdelete] at h₃
      cases h₃
      refine ⟨fun name hname => ?_, ⟨_, hresults, hsucceed⟩, fun hs => absurd hs hdelete.1, fun _ =>
        .inr (.inl ?_)⟩
      · rw [Function.update_of_ne hname, Function.update_of_ne hname]
      · exact ⟨hopened, hdelete.2, Function.update_self ..⟩
    · rw [if_neg hdelete] at h₃
      cases h₃
      refine ⟨fun name hname => Function.update_of_ne hname .., ⟨_, hresults, hsucceed⟩, fun hs =>
        ?_, fun hs =>
          .inr (.inr ⟨hopened, fun hnone => hdelete ⟨?_, hnone⟩, f₃.written, hpart,
            Function.update_self ..⟩)⟩
      · obtain ⟨hs₂, hs₃⟩ := hok.mp hs
        rw [Function.update_self, hwhole hs₃, hleft₂.whole hs₂]
      · rw [hs]
        exact Bool.false_ne_true

/-- The calls of a file that could be opened, and the status that comes of theirs. -/
theorem doWrite_statuses {files files' : PosixFiles} {data : Bytes} {fname : String}
    {shouldSync : Bool} {calls : WriteCalls} {s : Status} {rest : List WriteResult}
    (hopened : calls.opened = none)
    (h : files.doWriteStringToFile data fname shouldSync calls = some (s, files', rest)) :
    ∃ s₁ s₂ s₃, (¬ (s₁.ok = true ∧ shouldSync = true) → s₂ = s₁) ∧
      s = if s₂.ok = true then s₃ else s₂ := by
  rw [doWriteStringToFile, hopened] at h
  obtain ⟨⟨s₁, f₁, rest₁⟩, -, h⟩ := Option.bind_eq_some_iff.mp h
  obtain ⟨⟨s₂, f₂, rest₂⟩, hsync, h⟩ := Option.bind_eq_some_iff.mp h
  obtain ⟨⟨s₃, f₃, rest₃⟩, -, h⟩ := Option.bind_eq_some_iff.mp h
  refine ⟨s₁, s₂, s₃, fun hskip => ?_, (Prod.mk.inj (Option.some.inj h)).1.symm⟩
  rw [syncIf, if_neg hskip] at hsync
  exact (Prod.mk.inj (Option.some.inj hsync)).1.symm

/-- It returns if `write` is not interrupted for ever. -/
theorem doWrite_returns (files : PosixFiles) {data : Bytes} (fname : String) (shouldSync : Bool)
    {calls : WriteCalls} (hbuf : calls.buf.length = kWritableFileBufferSize)
    (henough : data.length ≤ answers calls.results) :
    ∃ out, files.doWriteStringToFile data fname shouldSync calls = some out := by
  rw [doWriteStringToFile]
  cases calls.opened with
  | some e => exact ⟨_, rfl⟩
  | none =>
    have hnew : (PosixWritableFile.new fname calls.buf).Bounded := ⟨hbuf, Nat.zero_le _⟩
    have hempty : (PosixWritableFile.new fname calls.buf).pos + data.length = data.length :=
      Nat.zero_add _
    obtain ⟨s₁, f₁, rest₁, happend, hle₁⟩ := hnew.append_returns (hempty.trans_le henough)
    have hleft₁ : Left f₁ data s₁.ok := (append_left hnew happend :)
    rw [hempty] at hle₁
    have hpos₁ : f₁.pos ≤ answers rest₁ := by omega
    have hsynced : ∃ s₂ f₂ rest₂, syncIf shouldSync calls s₁ f₁ rest₁ = some (s₂, f₂, rest₂) ∧
        f₂.pos ≤ answers rest₂ := by
      rw [syncIf]
      split
      · obtain ⟨s₂, f₂, rest₂, hsync, hle₂⟩ := hleft₁.bounded.call_returns
          (show f₁.pos + (Op.sync calls.sync).data.length ≤ _ from hpos₁)
        have hle₂ : answers rest₁ + f₂.pos ≤ answers rest₂ + f₁.pos := hle₂
        exact ⟨s₂, f₂, rest₂, hsync, by omega⟩
      · exact ⟨s₁, f₁, rest₁, rfl, hpos₁⟩
    obtain ⟨s₂, f₂, rest₂, hsync, hpos₂⟩ := hsynced
    obtain ⟨consumed₂, -, hleft₂, -⟩ := syncIf_spec hleft₁ hsync
    obtain ⟨s₃, f₃, rest₃, hclose, -⟩ := hleft₂.bounded.call_returns
      (show f₂.pos + (Op.close calls.closed).data.length ≤ _ from hpos₂)
    have hclose : f₂.close calls.closed rest₂ = some (s₃, f₃, rest₃) := hclose
    simp only [happend, hsync, hclose, Option.bind_eq_bind, Option.bind_some]
    exact ⟨_, rfl⟩

/-- A call that writes a file returns if `write` is not interrupted for ever. -/
structure Stores (files : PosixFiles) (data : Bytes) (fname : String) (shouldSync : Bool)
    (calls : WriteCalls) (result : Option (Status × PosixFiles × List WriteResult)) : Prop where
  returns : data.length ≤ answers calls.results → ∃ out, result = some out
  wrote : ∀ s files' rest, result = some (s, files', rest) →
    Wrote files files' data fname shouldSync calls s rest

/-- **Writing a file.** No other file is touched. If no system call fails whose result is looked at,
the status is OK and the file holds the data. Otherwise the status is an error. Then the file is as
it was if it could not be opened, and deleted if that does not fail; else it holds the beginning of
the data. -/
theorem writeStringToFile_stores (files : PosixFiles) (data : Bytes) (fname : String)
    (calls : WriteCalls) (hbuf : calls.buf.length = kWritableFileBufferSize) :
    Stores files data fname false calls (files.writeStringToFile data fname calls) ∧
    Stores files data fname true calls (files.writeStringToFileSync data fname calls) :=
  ⟨⟨doWrite_returns files fname false hbuf, fun _ _ _ h => doWrite_wrote hbuf h⟩,
    ⟨doWrite_returns files fname true hbuf, fun _ _ _ h => doWrite_wrote hbuf h⟩⟩

/-- Two bytes, written one by one after an interruption. The directory of the manifest cannot be
closed. -/
theorem writeStringToFile_stores_two :
    let calls : WriteCalls := ⟨none, List.replicate kWritableFileBufferSize 0,
      [.interrupted, .wrote 0, .wrote 0],
      ⟨none, ⟨false, none⟩, some ⟨5, "Input/output error"⟩, ⟨false, none⟩⟩, none, none⟩
    ∃ files' rest, writeStringToFileSync (fun _ => none) [1, 2] "MANIFEST-1" calls
      = some (.success, files', rest) ∧ files' "MANIFEST-1" = some [1, 2] := by
  intro calls
  obtain ⟨-, hreturns, hwrote⟩ := writeStringToFile_stores (fun _ => none) [1, 2] "MANIFEST-1" calls
    List.length_replicate
  obtain ⟨⟨s, files', rest⟩, h⟩ := hreturns (Nat.le_refl 2)
  have hleft := hwrote s files' rest h
  obtain ⟨consumed, hconsumed, hok⟩ := hleft.status
  have hconsumed : [.interrupted, .wrote 0, .wrote 0] = consumed ++ rest := hconsumed
  have hintact : Intact consumed := by
    intro e he
    have hmem := List.mem_append_left rest he
    rw [← hconsumed] at hmem
    simp at hmem
  have hs : s.ok = true :=
    hok.mpr ⟨rfl, hintact, rfl, fun _ => ⟨fun _ => ⟨rfl, .inr rfl⟩, .inr rfl⟩⟩
  obtain rfl := Status.eq_success_of_ok hs
  exact ⟨files', rest, h, hleft.stored hs⟩

/-! ### A file that is read -/

/-- No call of `read` has failed. -/
def ReadIntact (results : List ReadResult) : Prop := ∀ e, .failed e ∉ results

/-- The number of results that are not interruptions. -/
def readAnswers : List ReadResult → ℕ
  | [] => 0
  | .interrupted :: results => readAnswers results
  | _ :: results => readAnswers results + 1

theorem readIntact_append {consumed consumed' : List ReadResult} :
    ReadIntact (consumed ++ consumed') ↔ ReadIntact consumed ∧ ReadIntact consumed' := by
  simp only [ReadIntact, List.mem_append, not_or, forall_and]

/-- `Read`, with room for bytes: the next ones, none only at the end of the file. -/
theorem read_spec {file file' : PosixSequentialFile} {n : ℕ} (hn : 0 < n) {result fragment : Bytes}
    {results rest : List ReadResult} {s : Status}
    (h : file.read n result results = some (s, fragment, file', rest)) :
    ∃ consumed, results = consumed ++ rest ∧ (s.ok = true ↔ ReadIntact consumed) ∧
      (s.ok = true → fragment ++ file'.unread = file.unread ∧
        (fragment = [] → file.unread = [])) := by
  induction results with
  | nil => cases h
  | cons r results ih =>
    cases r with
    | interrupted =>
      obtain ⟨consumed, rfl, hok, hread⟩ := ih h
      refine ⟨.interrupted :: consumed, rfl, hok.trans ?_, hread⟩
      simp [ReadIntact]
    | failed e =>
      cases h
      refine ⟨[.failed e], rfl, iff_of_false (by simp) ?_, fun hs => by simp at hs⟩
      exact fun hintact => hintact e (List.mem_singleton.mpr rfl)
    | got k =>
      cases h
      refine ⟨[.got k], rfl, iff_of_true rfl fun e he => ?_, fun _ =>
        ⟨List.take_append_drop _ _, fun hnil => ?_⟩⟩
      · cases List.mem_singleton.mp he
      · rcases List.take_eq_nil_iff.mp hnil with hzero | hnil
        · omega
        · exact hnil

/-- It returns unless `read` is interrupted for ever, and comes to one answer. -/
theorem read_returns (file : PosixSequentialFile) (n : ℕ) (result : Bytes)
    {results : List ReadResult} (henough : 0 < readAnswers results) :
    ∃ s fragment file' rest, file.read n result results = some (s, fragment, file', rest) ∧
      readAnswers results = readAnswers rest + 1 ∧ rest.length < results.length := by
  induction results with
  | nil => cases henough
  | cons r results ih =>
    cases r with
    | interrupted =>
      obtain ⟨s, fragment, file', rest, h, hcount, hlt⟩ := ih henough
      exact ⟨s, fragment, file', rest, h, hcount, Nat.lt_succ_of_lt hlt⟩
    | failed e => exact ⟨_, _, _, _, rfl, rfl, Nat.lt_succ_self _⟩
    | got k => exact ⟨_, _, _, _, rfl, rfl, Nat.lt_succ_self _⟩

/-- The loop reads on from where the file is. -/
theorem readLoop_spec {rounds : ℕ} {file : PosixSequentialFile} {data data' : Bytes}
    {results rest : List ReadResult} {s : Status}
    (h : readLoop rounds file data results = some (s, data', rest)) :
    ∃ consumed part, results = consumed ++ rest ∧ (s.ok = true ↔ ReadIntact consumed) ∧
      data' = data ++ part ∧
      part <+: file.unread ∧ (s.ok = true → part = file.unread) := by
  induction rounds generalizing file data results with
  | zero => cases h
  | succ rounds ih =>
    obtain ⟨⟨s₁, fragment, file₁, rest₁⟩, hread, hthen⟩ := Option.bind_eq_some_iff.mp h
    obtain ⟨consumed₁, hconsumed₁, hok₁, hnext⟩ := read_spec (by decide) hread
    dsimp only at hthen
    split at hthen
    · next hfailed =>
      cases hthen
      exact ⟨consumed₁, [], hconsumed₁, hok₁, (List.append_nil _).symm, List.nil_prefix, fun hs =>
        absurd hs hfailed⟩
    · next hsuccess =>
      have hs₁ := not_not.mp hsuccess
      obtain ⟨hunread, hend⟩ := hnext hs₁
      split at hthen
      · next hnil =>
        cases hthen
        refine ⟨consumed₁, [], hconsumed₁, hok₁, ?_, List.nil_prefix, fun _ => (hend hnil).symm⟩
        rw [hnil]
      · obtain ⟨consumed', part, hconsumed', hok', hdata, hpart, hwhole⟩ := ih hthen
        refine ⟨consumed₁ ++ consumed', fragment ++ part, ?_, ?_, ?_, ?_, fun hs => ?_⟩
        · rw [hconsumed₁, hconsumed', List.append_assoc]
        · rw [readIntact_append, hok']
          exact ⟨fun h => ⟨hok₁.mp hs₁, h⟩, fun h => h.2⟩
        · rw [hdata, List.append_assoc]
        · rw [← hunread]
          exact (List.prefix_append_right_inj _).mpr hpart
        · rw [hwhole hs, hunread]

/-- A round for each byte that is left, and one for the end of the file. -/
theorem readLoop_returns {rounds : ℕ} (file : PosixSequentialFile) (data : Bytes)
    {results : List ReadResult} (henough : file.unread.length < readAnswers results)
    (hrounds : results.length ≤ rounds) :
    ∃ out, readLoop rounds file data results = some out := by
  induction rounds generalizing file data results with
  | zero =>
    obtain rfl : results = [] := List.length_eq_zero_iff.mp (Nat.le_zero.mp hrounds)
    cases henough
  | succ rounds ih =>
    obtain ⟨s, fragment, file', rest, hread, hcount, hlt⟩ :=
      read_returns file kBufferSize [] (Nat.zero_lt_of_lt henough)
    obtain ⟨consumed, -, -, hnext⟩ := read_spec (by decide) hread
    rw [readLoop, hread, Option.bind_eq_bind, Option.bind_some]
    dsimp only
    by_cases hs : ¬ s.ok = true
    · rw [if_pos hs]
      exact ⟨_, rfl⟩
    · rw [if_neg hs]
      obtain ⟨hunread, -⟩ := hnext (not_not.mp hs)
      by_cases hnil : fragment = []
      · rw [if_pos hnil]
        exact ⟨_, rfl⟩
      · rw [if_neg hnil]
        have hlen : fragment.length + file'.unread.length = file.unread.length := by
          rw [← hunread, List.length_append]
        have hpos := List.length_pos_iff.mpr hnil
        exact ih file' _ (by omega) (by omega)

/-- **Reading a file.** It returns if `read` is not interrupted for ever. The status is OK exactly
if the file can be opened and no `read` fails, and then the data is what the file holds. Otherwise
it is the beginning of that. -/
theorem readFileToString_reads (files : PosixFiles) (fname : String) {contents : Bytes}
    (hfile : files fname = some contents) (calls : ReadCalls) :
    (contents.length < readAnswers calls.results → ∃ out, files.readFileToString fname calls
      = some out) ∧
    ∀ s data rest, files.readFileToString fname calls = some (s, data, rest) →
      data <+: contents ∧ (s.ok = true → data = contents) ∧
      ∃ consumed, calls.results = consumed ++ rest ∧
        (s.ok = true ↔ calls.opened = none ∧ ReadIntact consumed) := by
  rw [readFileToString, hfile]
  cases hopened : calls.opened with
  | some e =>
    refine ⟨fun _ => ⟨_, rfl⟩, fun s data rest h => ?_⟩
    cases h
    exact ⟨List.nil_prefix, fun hs => by simp at hs, [], rfl, by simp⟩
  | none =>
    have hloop : (do
        let (s, data, results) ← readLoop calls.results.length ⟨fname, contents⟩ [] calls.results
        some (s, data, results)) = readLoop calls.results.length ⟨fname, contents⟩ []
          calls.results :=
      Option.bind_fun_some _
    dsimp only
    rw [hloop]
    refine ⟨fun henough => readLoop_returns ⟨fname, contents⟩ [] henough le_rfl,
      fun s data rest h => ?_⟩
    obtain ⟨consumed, part, hconsumed, hok, rfl, hpart, hwhole⟩ := readLoop_spec h
    exact ⟨hpart, hwhole, consumed, hconsumed, by rw [hok]; simp⟩

/-- Three bytes, of which the first call of `read` returns one. The file cannot be closed. -/
theorem readFileToString_reads_short :
    let calls : ReadCalls :=
      ⟨none, [.got 0, .interrupted, .got 7, .got 0, .got 0], some ⟨5, "Input/output error"⟩⟩
    ∃ rest, readFileToString (fun _ => some [1, 2, 3]) "f" calls
      = some (.success, [1, 2, 3], rest) := by
  intro calls
  obtain ⟨hreturns, hreads⟩ := readFileToString_reads (fun _ => some [1, 2, 3]) "f" rfl calls
  obtain ⟨⟨s, data, rest⟩, h⟩ := hreturns (Nat.le_refl 4)
  obtain ⟨-, hdata, consumed, hconsumed, hok⟩ := hreads s data rest h
  have hintact : ReadIntact consumed := by
    intro e he
    have hmem := List.mem_append_left rest he
    rw [← hconsumed] at hmem
    simp [calls] at hmem
  have hs : s.ok = true := hok.mpr ⟨rfl, hintact⟩
  obtain rfl := Status.eq_success_of_ok hs
  obtain rfl := hdata hs
  exact ⟨rest, h⟩

end PosixFiles

end Squirrel
