import Squirrel.Util.Env

/-!
# Buffered writing on Windows

A `WindowsWritableFile` has the buffer of a `PosixWritableFile`, but one call of `WriteFile` for
what that file writes in a loop. A call writes what it is given or fails; the environment is the
list of what these calls will do. The number of bytes is passed as a `DWORD`, so that of a direct
write of `n` bytes `n % 2 ^ 32` are written.

## Main definitions

* `WindowsWritableFile.append`, `WindowsWritableFile.flush`, `WindowsWritableFile.sync`,
  `WindowsWritableFile.close`

## Main results

* `WindowsWritableFile.run_streams` — what has been written after any calls
-/

namespace Squirrel

/-- What a call of `WriteFile` does: it writes what it is given, or it fails after `n` bytes, or
after all but one if these are fewer. -/
inductive WriteFileResult
  | wrote
  | failed (n : ℕ) (e : WindowsErrorCode)
  deriving DecidableEq

/-- A `WindowsWritableFile`. Its handle is what has been written to it. -/
structure WindowsWritableFile where
  filename : String
  buf : Bytes
  pos : ℕ
  written : Bytes

namespace WindowsWritableFile

/-- `kWritableFileBufferSize`. -/
def kWritableFileBufferSize : ℕ := 65536

/-! ### The members -/

/-- The constructor. Nothing is known of the bytes in the buffer. -/
def new (filename : String) (buf : Bytes) : WindowsWritableFile := ⟨filename, buf, 0, []⟩

/-- What a call returns, with the results of `WriteFile` that it has not come to. -/
abbrev Outcome := Option (Status × WindowsWritableFile × List WriteFileResult)

/-- What is written of the data. -/
def asDword (data : Bytes) : Bytes := data.take (data.length % 2 ^ 32)

/-- `WriteRaw`. The number of bytes that have been written is not looked at. -/
def writeRaw (f : WindowsWritableFile) (data : Bytes) : List WriteFileResult → Outcome
  | [] => none
  | .wrote :: results => some (.success, { f with written := f.written ++ asDword data }, results)
  | .failed n e :: results =>
    some (.ioError f.filename e.text,
      { f with written := f.written ++ (asDword data).dropLast.take n }, results)

/-- `FlushBuffered`. -/
def flushBuffered (f : WindowsWritableFile) (results : List WriteFileResult) : Outcome :=
  if f.pos ≤ f.buf.length then do
    let (status, f, results) ← f.writeRaw (f.buf.take f.pos) results
    some (status, { f with pos := 0 }, results)
  else none

/-- `Append`. -/
def append (f : WindowsWritableFile) (data : Bytes) (results : List WriteFileResult) : Outcome := do
  let copy := min data.length (kWritableFileBufferSize - f.pos)
  let buf ← memcpy f.buf f.pos (data.take copy)
  let p := data.drop copy
  let f := { f with buf, pos := f.pos + copy }
  if p = [] then some (.success, f, results)
  else
    let (s, f, results) ← f.flushBuffered results
    if ¬ s.ok then some (s, f, results)
    else if p.length < kWritableFileBufferSize then
      let buf ← memcpy f.buf 0 p
      some (.success, { f with buf, pos := p.length }, results)
    else f.writeRaw p results

/-- `Flush`. -/
def flush (f : WindowsWritableFile) (results : List WriteFileResult) : Outcome :=
  f.flushBuffered results

/-- `Sync`. -/
def sync (f : WindowsWritableFile) (results : List WriteFileResult) : Outcome :=
  f.flushBuffered results

/-- `Close`, if `CloseHandle` fails as `closed` says. -/
def close (f : WindowsWritableFile) (closed : Option WindowsErrorCode)
    (results : List WriteFileResult) :
    Outcome := do
  let (result, f, results) ← f.flushBuffered results
  match closed with
  | some e => some (if result.ok then windowsError f.filename e else result, f, results)
  | none => some (result, f, results)

/-- The calls. -/
inductive Op
  | append (data : Bytes)
  | flush
  | sync
  | close (closed : Option WindowsErrorCode)

def call (f : WindowsWritableFile) (results : List WriteFileResult) : Op → Outcome
  | .append data => f.append data results
  | .flush => f.flush results
  | .sync => f.sync results
  | .close closed => f.close closed results

/-- Calls one after another. -/
def run (f : WindowsWritableFile) (results : List WriteFileResult) :
    List Op → Option (List Status × WindowsWritableFile × List WriteFileResult)
  | [] => some ([], f, results)
  | op :: ops => do
    let (status, f, results) ← f.call results op
    let (statuses, f, results) ← f.run results ops
    some (status :: statuses, f, results)

/-! ### What is asked of the calls -/

/-- What a call appends. -/
def Op.data : Op → Bytes
  | .append data => data
  | _ => []

/-- What has been appended. -/
def appended (ops : List Op) : Bytes := (ops.map Op.data).flatten

/-- No call of `WriteFile` has failed. -/
def Intact (results : List WriteFileResult) : Prop := ∀ r ∈ results, r = .wrote

/-- The bytes in the buffer. -/
def pending (f : WindowsWritableFile) : Bytes := f.buf.take f.pos

/-- What has been written, and what is in the buffer. -/
def stream (f : WindowsWritableFile) : Bytes := f.written ++ f.pending

/-- The bounds of the buffer are kept. -/
structure Bounded (f : WindowsWritableFile) : Prop where
  length_buf : f.buf.length = kWritableFileBufferSize
  pos_le : f.pos ≤ kWritableFileBufferSize

variable {f f' : WindowsWritableFile} {data : Bytes} {results rest : List WriteFileResult}
  {status : Status}

theorem Bounded.length_pending (h : f.Bounded) : f.pending.length = f.pos := by
  rw [pending, List.length_take, h.length_buf, Nat.min_eq_left h.pos_le]

theorem intact_append {results' : List WriteFileResult} :
    Intact (results ++ results') ↔ Intact results ∧ Intact results' := by
  simp only [Intact, List.mem_append, or_imp, forall_and]

theorem asDword_sublist (data : Bytes) : (asDword data).Sublist data := List.take_sublist _ _

theorem asDword_eq_self_iff : asDword data = data ↔ data.length < 2 ^ 32 := by
  constructor
  · intro h
    have hlen := congrArg List.length h
    rw [asDword, List.length_take] at hlen
    omega
  · intro hlt
    rw [asDword, Nat.mod_eq_of_lt hlt, List.take_length]

/-! ### Writing -/

/-- What one call of `WriteFile` does. -/
structure Wrote (f : WindowsWritableFile) (data : Bytes) (r : WriteFileResult) (status : Status)
    (f' : WindowsWritableFile) : Prop where
  ok_iff : status.ok = true ↔ r = .wrote
  done : r = .wrote → f' = { f with written := f.written ++ asDword data }
  failed : r ≠ .wrote → ∃ k, f' = { f with written := f.written ++ (asDword data).take k } ∧
    (asDword data ≠ [] → k < (asDword data).length)

theorem writeRaw_spec (h : f.writeRaw data results = some (status, f', rest)) :
    ∃ r, results = r :: rest ∧ Wrote f data r status f' := by
  cases results with
  | nil => cases h
  | cons r results =>
    cases r with
    | wrote =>
      cases h
      exact ⟨.wrote, rfl, ⟨iff_of_true rfl rfl, fun _ => rfl, fun hne => absurd rfl hne⟩⟩
    | failed n e =>
      cases h
      refine ⟨.failed n e, rfl, ⟨iff_of_false (by simp) (by simp), fun hdone => ?_, fun _ => ?_⟩⟩
      · cases hdone
      · refine ⟨min n ((asDword data).length - 1), ?_, fun hne => ?_⟩
        · rw [List.dropLast_eq_take, List.take_take]
        · have hpos := List.length_pos_iff.mpr hne
          omega

theorem Wrote.sublist {r : WriteFileResult} (h : Wrote f data r status f') :
    f'.buf = f.buf ∧ f'.pos = f.pos ∧ f'.filename = f.filename ∧
      ∃ part : Bytes, part.Sublist data ∧ f'.written = f.written ++ part ∧
        (r = .wrote → part = asDword data) := by
  by_cases hr : r = .wrote
  · rw [h.done hr]
    exact ⟨rfl, rfl, rfl, _, asDword_sublist data, rfl, fun _ => rfl⟩
  · obtain ⟨k, rfl, -⟩ := h.failed hr
    exact ⟨rfl, rfl, rfl, _, (List.take_sublist _ _).trans (asDword_sublist data), rfl, fun hr' =>
      absurd hr' hr⟩

theorem writeRaw_returns (f : WindowsWritableFile) (data : Bytes) (r : WriteFileResult)
    (results : List WriteFileResult) :
    ∃ status f', f.writeRaw data (r :: results) = some (status, f', results) := by
  cases r with
  | wrote => exact ⟨_, _, rfl⟩
  | failed n e => exact ⟨_, _, rfl⟩

/-! ### The calls -/

theorem Bounded.flushBuffered_eq (h : f.Bounded) (results : List WriteFileResult) :
    f.flushBuffered results = (f.writeRaw f.pending results).map
      fun out => (out.1, { out.2.1 with pos := 0 }, out.2.2) := by
  have hfit : f.pos ≤ f.buf.length := by
    rw [h.length_buf]
    exact h.pos_le
  rw [flushBuffered, if_pos hfit, Option.map_eq_bind]
  rfl

/-- `FlushBuffered` leaves an empty buffer, also when it fails. -/
theorem Bounded.flushBuffered_spec (hb : f.Bounded)
    (h : f.flushBuffered results = some (status, f', rest)) :
    ∃ r, results = r :: rest ∧ (status.ok = true ↔ r = .wrote) ∧ f'.Bounded ∧ f'.pos = 0 ∧
      (r = .wrote → f'.written = f.written ++ f.pending) ∧
      (∃ k, f'.written = f.written ++ f.pending.take k ∧
        (r ≠ .wrote → f.pending ≠ [] → k < f.pending.length)) := by
  rw [hb.flushBuffered_eq] at h
  obtain ⟨⟨status₁, f₁, rest₁⟩, hwrite, heq⟩ := Option.map_eq_some_iff.mp h
  cases heq
  obtain ⟨r, hr, hwrote⟩ := writeRaw_spec hwrite
  have hdword : asDword f.pending = f.pending := by
    have hle := hb.pos_le
    rw [asDword_eq_self_iff, hb.length_pending]
    exact hle.trans_lt (by decide)
  obtain ⟨hbuf, -, -, -⟩ := hwrote.sublist
  refine ⟨r, hr, hwrote.ok_iff, ⟨hbuf.symm ▸ hb.length_buf, Nat.zero_le _⟩, rfl, fun hdone =>
    ?_, ?_⟩
  · show f₁.written = _
    rw [hwrote.done hdone, hdword]
  · by_cases hdone : r = .wrote
    · refine ⟨f.pending.length, ?_, fun hne => absurd hdone hne⟩
      show f₁.written = _
      rw [hwrote.done hdone, hdword, List.take_length]
    · obtain ⟨k, hf₁, hk⟩ := hwrote.failed hdone
      rw [hdword] at hf₁ hk
      refine ⟨k, ?_, fun _ => hk⟩
      show f₁.written = _
      rw [hf₁]

theorem Bounded.flushBuffered_returns (hb : f.Bounded) (r : WriteFileResult)
    (results : List WriteFileResult) :
    ∃ status f', f.flushBuffered (r :: results) = some (status, f', results) := by
  obtain ⟨status, f', hwrite⟩ := writeRaw_returns f f.pending r results
  rw [hb.flushBuffered_eq, hwrite]
  exact ⟨_, _, rfl⟩

theorem stream_of_pos_eq_zero (h : f.pos = 0) : f.stream = f.written := by
  rw [stream, pending, h, List.take_zero, List.append_nil]

/-- The buffer once data that fits has been copied behind what is in it. -/
theorem Bounded.exists_copied (hb : f.Bounded) (data : Bytes)
    (hfit : f.pos + data.length ≤ kWritableFileBufferSize) :
    ∃ buf, memcpy f.buf f.pos data = some buf ∧ Bounded { f with buf, pos := f.pos + data.length } ∧
      pending { f with buf, pos := f.pos + data.length } = f.pending ++ data := by
  have hlen := hb.length_buf
  have hdrop : data.length ≤ (f.buf.drop f.pos).length := by
    rw [List.length_drop]
    omega
  have hcopy := memcpy_append f.pending (f.buf.drop f.pos) data hb.length_pending.symm hdrop
  rw [pending, List.take_append_drop] at hcopy
  have hpending := hb.length_pending
  refine ⟨_, hcopy, ⟨?_, hfit⟩, ?_⟩
  · show (f.pending ++ data ++ (f.buf.drop f.pos).drop data.length).length = _
    rw [List.length_append, List.length_append, List.length_drop, List.length_drop]
    omega
  · show (f.pending ++ data ++ _).take (f.pos + data.length) = _
    refine List.take_left' ?_
    rw [List.length_append, hpending]

/-- How many bytes an `Append` copies to the buffer first. -/
def copied (f : WindowsWritableFile) (data : Bytes) : ℕ :=
  min data.length (kWritableFileBufferSize - f.pos)

/-- What an `Append` keeps of the data. -/
def kept (f : WindowsWritableFile) (data : Bytes) : Bytes :=
  let p := data.drop (f.copied data)
  if p.length < kWritableFileBufferSize then data else data.take (f.copied data) ++ asDword p

theorem kept_eq_self_iff : f.kept data = data ↔ (data.drop (f.copied data)).length < 2 ^ 32 := by
  simp only [kept]
  by_cases hsmall : (data.drop (f.copied data)).length < kWritableFileBufferSize
  · rw [if_pos hsmall]
    exact iff_of_true rfl (hsmall.trans (by decide))
  · rw [if_neg hsmall, ← asDword_eq_self_iff]
    constructor
    · intro h
      have hsplit := h.trans (List.take_append_drop (f.copied data) data).symm
      exact List.append_cancel_left hsplit
    · intro h
      rw [h, List.take_append_drop]

theorem intact_singleton {r : WriteFileResult} : Intact [r] ↔ r = .wrote := by
  simp only [Intact, List.mem_singleton, forall_eq]

/-- What one call does, when it is given these results. -/
structure Did (f : WindowsWritableFile) (data kept : Bytes) (consumed : List WriteFileResult)
    (status : Status) (f' : WindowsWritableFile) : Prop where
  bounded : f'.Bounded
  intact : status.ok = true → Intact consumed
  stream : Intact consumed → f'.stream = f.stream ++ kept
  sublist : f'.stream.Sublist (f.stream ++ data)

theorem Bounded.flushBuffered_did (hb : f.Bounded)
    (h : f.flushBuffered results = some (status, f', rest)) :
    ∃ consumed, results = consumed ++ rest ∧ (Intact consumed → status.ok = true) ∧ f'.pos = 0 ∧
      Did f [] [] consumed status f' := by
  obtain ⟨r, hr, hok, hb', hpos, hdone, k, hk, -⟩ := hb.flushBuffered_spec h
  refine ⟨[r], hr, fun hi => hok.mpr (intact_singleton.mp hi), hpos, hb',
    fun hs => intact_singleton.mpr (hok.mp hs), fun hi => ?_, ?_⟩
  · rw [stream_of_pos_eq_zero hpos, hdone (intact_singleton.mp hi), List.append_nil]
    rfl
  · rw [stream_of_pos_eq_zero hpos, hk, List.append_nil]
    exact (List.take_sublist k _).append_left _

/-- What fits into the buffer is copied there. -/
theorem Bounded.append_small (hb : f.Bounded) (data : Bytes)
    (hfit : f.pos + data.length ≤ kWritableFileBufferSize) (results : List WriteFileResult) :
    ∃ f', f.append data results = some (.success, f', results) ∧ f'.Bounded ∧
      f'.written = f.written ∧
      f'.pending = f.pending ++ data := by
  have hn : min data.length (kWritableFileBufferSize - f.pos) = data.length := by omega
  obtain ⟨buf, hcopy, hb', hpending⟩ := hb.exists_copied data hfit
  refine ⟨{ f with buf, pos := f.pos + data.length }, ?_, hb', rfl, hpending⟩
  rw [append, hn, List.take_length, hcopy]
  simp only [Option.bind_eq_bind, Option.bind_some, List.drop_length, if_true]

/-- **`Append`.** What fits into the buffer is copied there, and the rest once that has been
written. -/
theorem Bounded.append_did (hb : f.Bounded) (h : f.append data results = some (status, f', rest)) :
    ∃ consumed, results = consumed ++ rest ∧ Did f data (f.kept data) consumed status f' := by
  have hcopied : (data.take (f.copied data)).length = f.copied data := by
    rw [List.length_take, copied]
    omega
  have hle := hb.pos_le
  obtain ⟨buf, hcopy, hb₁, hpending₁⟩ := hb.exists_copied (data.take (f.copied data))
    (by rw [hcopied, copied]; omega)
  rw [hcopied] at hb₁ hpending₁
  obtain ⟨f₁, hf₁⟩ : ∃ f₁, f₁ = { f with buf, pos := f.pos + f.copied data } := ⟨_, rfl⟩
  have hstream₁ : f₁.stream = f.stream ++ data.take (f.copied data) := by
    rw [stream, stream, hf₁, hpending₁, List.append_assoc]
  rw [append, ← copied] at h
  simp only [hcopy, Option.bind_eq_bind, Option.bind_some] at h
  rw [← hf₁] at h hb₁
  split at h
  · -- all of it fits
    next hnil =>
    cases h
    have htake : data.take (f.copied data) = data := by
      rw [← List.append_nil (data.take _), ← hnil, List.take_append_drop]
    have hkept : f.kept data = data := kept_eq_self_iff.mpr (by rw [hnil]; decide)
    rw [htake] at hstream₁
    exact ⟨[], rfl, hb₁, fun _ => fun r hr => absurd hr List.not_mem_nil, fun _ =>
      by rw [hstream₁, hkept], hstream₁ ▸ List.Sublist.refl _⟩
  · obtain ⟨⟨status₂, f₂, rest₂⟩, hflush, hthen⟩ := Option.bind_eq_some_iff.mp h
    obtain ⟨consumed, rfl, hok, hpos₂, hb₂, hintact, hstream₂, hsub⟩ := hb₁.flushBuffered_did hflush
    rw [hstream₁, List.append_nil] at hstream₂ hsub
    have hwhole : f.stream ++ data = f.stream ++ data.take (f.copied data)
        ++ data.drop (f.copied data) := by
      rw [List.append_assoc, List.take_append_drop]
    dsimp only at hthen
    split at hthen
    · next hfailed =>
      cases hthen
      refine ⟨consumed, rfl, hb₂, hintact, fun hi => absurd (hok hi) hfailed, ?_⟩
      rw [hwhole]
      exact hsub.trans (List.sublist_append_left _ _)
    · next hsuccess =>
      have hi : Intact consumed := hintact (not_not.mp hsuccess)
      rw [stream_of_pos_eq_zero hpos₂] at hstream₂ hsub
      split at hthen
      · next hsmall =>
        obtain ⟨buf₃, hcopy₃, hb₃, hpending₃⟩ := hb₂.exists_copied (data.drop (f.copied data))
          (by rw [hpos₂, Nat.zero_add]; exact hsmall.le)
        have hempty : f₂.pending = [] := by rw [pending, hpos₂, List.take_zero]
        rw [hpos₂] at hcopy₃
        rw [hpos₂, Nat.zero_add] at hb₃ hpending₃
        rw [hempty, List.nil_append] at hpending₃
        rw [hcopy₃] at hthen
        cases hthen
        have hkept : f.kept data = data := kept_eq_self_iff.mpr (hsmall.trans (by decide))
        have hstream₃ : stream { f₂ with buf := buf₃, pos := (data.drop (f.copied data)).length }
            = f.stream ++ data := by
          rw [stream, hpending₃, hwhole, ← hstream₂ hi]
        exact ⟨consumed, rfl, hb₃, fun _ => hi, fun _ =>
          by rw [hstream₃, hkept], hstream₃ ▸ List.Sublist.refl _⟩
      · next hlarge =>
        obtain ⟨r, rfl, hwrote⟩ := writeRaw_spec hthen
        obtain ⟨hbuf, hpos, -, part, hpart, hwritten, hdone⟩ := hwrote.sublist
        have hstream₃ : f'.stream = f.stream ++ data.take (f.copied data) ++ part := by
          rw [stream_of_pos_eq_zero (hpos.trans hpos₂), hwritten, hstream₂ hi]
        refine ⟨consumed ++ [r],
          by simp, ⟨hbuf.symm ▸ hb₂.length_buf,
            hpos.symm ▸ hb₂.pos_le⟩, fun hs => ?_, fun hi' => ?_, ?_⟩
        · exact intact_append.mpr ⟨hi, intact_singleton.mpr (hwrote.ok_iff.mp hs)⟩
        · rw [hstream₃, hdone (intact_singleton.mp (intact_append.mp hi').2), kept, if_neg hlarge,
            List.append_assoc]
        · rw [hstream₃, hwhole]
          exact hpart.append_left _

/-- What a call keeps of what it appends. -/
def Op.kept (f : WindowsWritableFile) : Op → Bytes
  | .append data => f.kept data
  | _ => []

/-- **One call.** -/
theorem Bounded.call_did (hb : f.Bounded) {op : Op}
    (h : f.call results op = some (status, f', rest)) :
    ∃ consumed, results = consumed ++ rest ∧ Did f op.data (op.kept f) consumed status f' := by
  cases op with
  | append data => exact hb.append_did h
  | flush =>
    obtain ⟨consumed, hconsumed, -, -, hdid⟩ := hb.flushBuffered_did h
    exact ⟨consumed, hconsumed, hdid⟩
  | sync =>
    obtain ⟨consumed, hconsumed, -, -, hdid⟩ := hb.flushBuffered_did h
    exact ⟨consumed, hconsumed, hdid⟩
  | close closed =>
    change f.close closed results = _ at h
    obtain ⟨⟨status₁, f₁, rest₁⟩, hflush, h⟩ := Option.bind_eq_some_iff.mp h
    obtain ⟨consumed, hconsumed, -, -, hdid⟩ := hb.flushBuffered_did hflush
    cases closed with
    | none =>
      cases h
      exact ⟨consumed, hconsumed, hdid⟩
    | some e =>
      cases h
      refine ⟨consumed, hconsumed, hdid.bounded, fun hs => hdid.intact ?_, hdid.stream,
        hdid.sublist⟩
      split at hs
      · assumption
      · exact hs

/-- A call makes two calls of `WriteFile` at most. -/
theorem Bounded.call_returns (hb : f.Bounded) (op : Op) (r r' : WriteFileResult)
    (results : List WriteFileResult) :
    ∃ status f' rest, f.call (r :: r' :: results) op = some (status, f', rest) ∧
      results.length ≤ rest.length := by
  obtain ⟨status₁, f₁, hflush⟩ := hb.flushBuffered_returns r (r' :: results)
  have hle : results.length ≤ (r' :: results).length := Nat.le_succ _
  cases op with
  | flush => exact ⟨_, _, _, hflush, hle⟩
  | sync => exact ⟨_, _, _, hflush, hle⟩
  | close closed =>
    have heq : f.call (r :: r' :: results) (.close closed) = f.close closed (r :: r' :: results) :=
      rfl
    rw [heq, close, hflush]
    cases closed with
    | none => exact ⟨_, _, _, rfl, hle⟩
    | some e => exact ⟨_, _, _, rfl, hle⟩
  | append data =>
    have hcopied : (data.take (f.copied data)).length = f.copied data := by
      rw [List.length_take, copied]
      omega
    have hpos := hb.pos_le
    obtain ⟨buf, hcopy, hb₁, -⟩ := hb.exists_copied (data.take (f.copied data))
      (by rw [hcopied, copied]; omega)
    have heq : f.call (r :: r' :: results) (.append data) = f.append data (r :: r' :: results) :=
      rfl
    rw [hcopied] at hb₁
    obtain ⟨status₂, f₂, hflush₂⟩ := hb₁.flushBuffered_returns r (r' :: results)
    obtain ⟨-, -, -, hb₂, hpos₂, -⟩ := hb₁.flushBuffered_spec hflush₂
    rw [heq, append, ← copied, hcopy]
    simp only [Option.bind_eq_bind, Option.bind_some, hflush₂]
    split
    · exact ⟨_, _, _, rfl, by simp only [List.length_cons]; omega⟩
    · split
      · exact ⟨_, _, _, rfl, hle⟩
      · split
        · next hsmall =>
          obtain ⟨buf₃, hcopy₃, -⟩ := hb₂.exists_copied (data.drop (f.copied data))
            (by rw [hpos₂, Nat.zero_add]; exact hsmall.le)
          rw [hpos₂] at hcopy₃
          rw [hcopy₃]
          exact ⟨_, _, _, rfl, hle⟩
        · obtain ⟨status₃, f₃, hwrite⟩ := writeRaw_returns f₂ (data.drop (f.copied data)) r' results
          exact ⟨_, _, _, hwrite, le_rfl⟩

/-! ### Runs -/

/-- **Runs.** -/
theorem Bounded.run_did (hb : f.Bounded) {ops : List Op} {statuses : List Status}
    (h : f.run results ops = some (statuses, f', rest)) :
    ∃ consumed, results = consumed ++ rest ∧ f'.Bounded ∧
      f'.stream.Sublist (f.stream ++ appended ops) ∧
      ((∀ s ∈ statuses, s.ok = true) → Intact consumed) ∧
      (Intact consumed → (∀ op ∈ ops, op.data.length < 2 ^ 32) → f'.stream = f.stream
        ++ appended ops) := by
  induction ops generalizing f results statuses with
  | nil =>
    cases h
    have hnil : f'.stream ++ appended [] = f'.stream := List.append_nil _
    rw [hnil]
    exact ⟨[], rfl, hb, List.Sublist.refl _, fun _ r hr => absurd hr List.not_mem_nil, fun _ _ =>
      rfl⟩
  | cons op ops ih =>
    obtain ⟨⟨status, f₁, rest₁⟩, hcall, hrest⟩ := Option.bind_eq_some_iff.mp h
    obtain ⟨⟨statuses', f₂, rest₂⟩, hrun', heq⟩ := Option.bind_eq_some_iff.mp hrest
    cases heq
    obtain ⟨consumed₁, rfl, hb₁, hintact₁, hstream₁, hsub₁⟩ := hb.call_did hcall
    obtain ⟨consumed₂, rfl, hb₂, hsub₂, hintact₂, hstream₂⟩ := ih hb₁ hrun'
    have happended : appended (op :: ops) = op.data ++ appended ops := rfl
    refine ⟨consumed₁ ++ consumed₂, (List.append_assoc ..).symm, hb₂, ?_, fun hok =>
      ?_, fun hi hsmall => ?_⟩
    · rw [happended, ← List.append_assoc]
      exact hsub₂.trans (hsub₁.append_right _)
    · exact intact_append.mpr ⟨hintact₁ (hok status List.mem_cons_self),
        hintact₂ fun s hs => hok s (List.mem_cons_of_mem _ hs)⟩
    · obtain ⟨hi₁, hi₂⟩ := intact_append.mp hi
      have hkept : op.kept f = op.data := by
        cases op with
        | append data =>
          refine kept_eq_self_iff.mpr (lt_of_le_of_lt ?_ (hsmall _ List.mem_cons_self))
          rw [List.length_drop]
          exact Nat.sub_le _ _
        | flush => rfl
        | sync => rfl
        | close closed => rfl
      rw [hstream₂ hi₂ fun op hop => hsmall op (List.mem_cons_of_mem _ hop), hstream₁ hi₁, hkept,
        happended, List.append_assoc]

theorem Bounded.run_returns (hb : f.Bounded) {ops : List Op}
    (henough : 2 * ops.length ≤ results.length) :
    ∃ statuses f' rest, f.run results ops = some (statuses, f', rest) := by
  induction ops generalizing f results with
  | nil => exact ⟨_, _, _, rfl⟩
  | cons op ops ih =>
    rw [List.length_cons] at henough
    obtain ⟨r, results, rfl⟩ := List.exists_cons_of_length_pos (show 0 < results.length by omega)
    rw [List.length_cons] at henough
    obtain ⟨r', results, rfl⟩ := List.exists_cons_of_length_pos (show 0 < results.length by omega)
    rw [List.length_cons] at henough
    obtain ⟨status, f₁, rest₁, hcall, hle⟩ := hb.call_returns op r r' results
    obtain ⟨-, -, hb₁, -⟩ := hb.call_did hcall
    obtain ⟨statuses, f', rest, hrun⟩ := ih hb₁ (show 2 * ops.length ≤ rest₁.length by omega)
    refine ⟨status :: statuses, f', rest, ?_⟩
    rw [run, hcall]
    simp only [Option.bind_eq_bind, Option.bind_some, hrun]

/-- **Buffered writes on Windows.** Whatever fails, what has been written and what is in the buffer
are some of the bytes that have been appended, in their order. They are all of them if no
`WriteFile` has failed and no call has appended `2 ^ 32` bytes or more; a failure shows in a status.
A call of `Append` by itself loses bytes, without a failure, exactly if as many are left when the
buffer is full. -/
theorem run_streams {filename : String} {buf : Bytes} (hbuf : buf.length = kWritableFileBufferSize)
    (ops : List Op) (results : List WriteFileResult) :
    (2 * ops.length ≤ results.length →
      ∃ statuses f rest, (new filename buf).run results ops = some (statuses, f, rest)) ∧
    ∀ statuses f rest, (new filename buf).run results ops = some (statuses, f, rest) →
      f.pos ≤ kWritableFileBufferSize ∧ f.buf.length = kWritableFileBufferSize ∧
      f.stream.Sublist (appended ops) ∧
      (∃ consumed, results = consumed ++ rest ∧ ((∀ s ∈ statuses, s.ok = true) → Intact consumed) ∧
        (Intact consumed → (∀ op ∈ ops, op.data.length < 2 ^ 32) → f.stream = appended ops)) ∧
      ∀ data results' status f' rest', Intact results' →
        f.append data results' = some (status, f', rest') →
        (f'.stream = f.stream ++ data ↔
          data.length - (kWritableFileBufferSize - f.pos) < 2 ^ 32) := by
  have hnew : (new filename buf).Bounded := ⟨hbuf, Nat.zero_le _⟩
  have hstream : (new filename buf).stream = [] := rfl
  refine ⟨hnew.run_returns, fun statuses f rest hrun => ?_⟩
  obtain ⟨consumed, hconsumed, hb, hsub, hok, hall⟩ := hnew.run_did hrun
  rw [hstream, List.nil_append] at hsub hall
  refine ⟨hb.pos_le, hb.length_buf, hsub, ⟨consumed, hconsumed, hok, hall⟩, ?_⟩
  intro data results' status f' rest' hintact happend
  obtain ⟨consumed', rfl, hdid⟩ := hb.append_did happend
  rw [hdid.stream (intact_append.mp hintact).1, List.append_cancel_left_eq, kept_eq_self_iff,
    List.length_drop, copied]
  omega

/-- Two bytes on a new file. -/
theorem run_streams_two : ∃ statuses f rest,
    (new "f" (List.replicate kWritableFileBufferSize 0)).run [.wrote, .wrote, .wrote, .wrote]
      [.append [1, 2], .flush] = some (statuses, f, rest) ∧ f.stream = [1, 2] := by
  obtain ⟨hreturns, hrun⟩ :=
    @run_streams "f" (List.replicate kWritableFileBufferSize 0) List.length_replicate
    [.append [1, 2], .flush] [.wrote, .wrote, .wrote, .wrote]
  obtain ⟨statuses, f, rest, h⟩ := hreturns le_rfl
  obtain ⟨-, -, -, ⟨consumed, hconsumed, -, hall⟩, -⟩ := hrun statuses f rest h
  refine ⟨statuses, f, rest, h, hall (fun r hr => ?_) (by simp [Op.data])⟩
  have hmem : r ∈ ([.wrote, .wrote, .wrote, .wrote] : List WriteFileResult) := by
    rw [hconsumed]
    exact List.mem_append_left _ hr
  simpa using hmem

end WindowsWritableFile

end Squirrel
