import Squirrel.Lib.LittleEndian

/-!
# Statuses and files

The parts of `Status` and of the file classes of `env.h` that the storage code uses. A file object
is its contents together with a *fate*: the status each call on it returns, by call number. Nothing
is assumed about fates in the definitions, so a failing disk is one more fate; theorems that need
every call to succeed say so.
-/

namespace Squirrel

/-- The error codes of `Status`. -/
inductive Code
  | kNotFound
  | kCorruption
  | kNotSupported
  | kInvalidArgument
  | kIOError
  deriving DecidableEq, Repr

/-- A `Status`: success, or a code with its message. -/
inductive Status
  | success
  | error (code : Code) (msg : String)
  deriving DecidableEq, Repr

namespace Status

/-- `Status::ok()`. -/
def ok (s : Status) : Bool := s = success

@[simp] theorem ok_success : success.ok = true := rfl

@[simp] theorem ok_error (c : Code) (m : String) : (error c m).ok = false := rfl

theorem eq_success_of_ok {s : Status} (h : s.ok = true) : s = success := by
  simpa [ok] using h

def corruption (msg : String) : Status := error .kCorruption msg

def notFound (msg : String) : Status := error .kNotFound msg

/-- `Status(code, msg, msg2)`. -/
def ofParts (code : Code) (msg msg2 : String) : Status :=
  error code (if msg2 = "" then msg else msg ++ ": " ++ msg2)

/-- `Status::IOError(msg, msg2)`. -/
def ioError (msg msg2 : String) : Status := ofParts .kIOError msg msg2

@[simp] theorem ok_ofParts (code : Code) (msg msg2 : String) :
    (ofParts code msg msg2).ok = false := rfl

@[simp] theorem ok_ioError (msg msg2 : String) : (ioError msg msg2).ok = false := rfl

end Status

/-! ### Errors of Windows -/

/-- What `GetLastError` returns, with what `GetWindowsErrorMessage` says of it. -/
structure WindowsErrorCode where
  number : ℕ
  text : String
  deriving DecidableEq

def ERROR_FILE_NOT_FOUND : ℕ := 2

def ERROR_PATH_NOT_FOUND : ℕ := 3

/-- `WindowsError`. -/
def windowsError (context : String) (e : WindowsErrorCode) : Status :=
  if e.number = ERROR_FILE_NOT_FOUND ∨ e.number = ERROR_PATH_NOT_FOUND then
    .ofParts .kNotFound context e.text
  else .ioError context e.text

@[simp] theorem ok_windowsError (context : String) (e : WindowsErrorCode) :
    (windowsError context e).ok = false := by
  rw [windowsError]
  split <;> rfl

/-! ### Memory -/

/-- `memcpy(buf + offset, src, n)` of all of `src`; nothing if it ends behind the array. -/
def memcpy {α : Type} (buf : List α) (offset : ℕ) (src : List α) : Option (List α) :=
  if offset + src.length ≤ buf.length then
    some (buf.take offset ++ src ++ buf.drop (offset + src.length))
  else none

/-- What is copied behind the front goes over what the array has there. -/
theorem memcpy_append {α : Type} (front rest src : List α) {offset : ℕ}
    (hoffset : offset = front.length) (h : src.length ≤ rest.length) :
    memcpy (front ++ rest) offset src = some (front ++ src ++ rest.drop src.length) := by
  subst hoffset
  have hfit : front.length + src.length ≤ (front ++ rest).length := by
    rw [List.length_append]
    omega
  rw [memcpy, if_pos hfit, List.take_left, List.drop_length_add_append]

/-! ### Sequential writing -/

/-- A `WritableFile`. A failed `Append` adds nothing. -/
structure WritableFile where
  /-- The bytes in the file. -/
  contents : Bytes
  /-- Calls of `Append` and `Flush` made so far. -/
  calls : ℕ
  /-- What each call returns. -/
  fate : ℕ → Status

namespace WritableFile

def append (f : WritableFile) (data : Bytes) : Status × WritableFile :=
  let s := f.fate f.calls
  (s, { f with
    contents := if s.ok then f.contents ++ data else f.contents
    calls := f.calls + 1 })

def flush (f : WritableFile) : Status × WritableFile :=
  (f.fate f.calls, { f with calls := f.calls + 1 })

/-- Every call on the file succeeds. -/
def Sound (f : WritableFile) : Prop := ∀ n, f.fate n = .success

/-- A new file, none of whose calls will fail. -/
def fresh : WritableFile := ⟨[], 0, fun _ => .success⟩

/-- A new file whose call number `k` will fail. -/
def failingAt (k : ℕ) : WritableFile :=
  ⟨[], 0, fun n => if n = k then .error .kIOError "" else .success⟩

theorem append_of_sound {f : WritableFile} (h : f.Sound) (data : Bytes) :
    f.append data
      = (.success, { f with contents := f.contents ++ data, calls := f.calls + 1 }) := by
  simp [append, h f.calls]

theorem flush_of_sound {f : WritableFile} (h : f.Sound) :
    f.flush = (.success, { f with calls := f.calls + 1 }) := by
  simp [flush, h f.calls]

end WritableFile

/-! ### Sequential reading -/

/-- A `SequentialFile`, as the bytes not read yet. -/
structure SequentialFile where
  /-- The bytes from the current position on. -/
  contents : Bytes
  /-- Calls of `Read` and `Skip` made so far. -/
  calls : ℕ
  /-- What each call returns. -/
  fate : ℕ → Status

namespace SequentialFile

/-- `Read(n)`: up to `n` bytes, fewer only at the end of the file. A failed read returns no
bytes. -/
def read (f : SequentialFile) (n : ℕ) : Status × Bytes × SequentialFile :=
  let s := f.fate f.calls
  if s.ok then (s, f.contents.take n,
    { f with contents := f.contents.drop n, calls := f.calls + 1 })
  else (s, [], { f with calls := f.calls + 1 })

/-- `Skip(n)`: skipping stops at the end of the file. -/
def skip (f : SequentialFile) (n : ℕ) : Status × SequentialFile :=
  let s := f.fate f.calls
  (s, { f with
    contents := if s.ok then f.contents.drop n else f.contents
    calls := f.calls + 1 })

/-- What a read returns is what the file loses. -/
theorem length_add_length_of_read {f f' : SequentialFile} {n : ℕ} {s : Status} {data : Bytes}
    (h : f.read n = (s, data, f')) : data.length + f'.contents.length = f.contents.length := by
  simp only [read] at h
  split at h
  · obtain ⟨-, rfl, rfl⟩ := h
    simp only [List.length_take, List.length_drop]
    omega
  · obtain ⟨-, rfl, rfl⟩ := h
    simp

/-- Every call on the file succeeds. -/
def Sound (f : SequentialFile) : Prop := ∀ n, f.fate n = .success

theorem read_of_sound {f : SequentialFile} (h : f.Sound) (n : ℕ) :
    f.read n = (.success, f.contents.take n,
      { f with contents := f.contents.drop n, calls := f.calls + 1 }) := by
  simp [read, h f.calls]

end SequentialFile

end Squirrel
