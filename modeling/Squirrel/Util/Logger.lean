import Squirrel.Lib.Decimal
import Squirrel.Util.Env

/-!
# Log messages

`Logv` prints a header and a message into a buffer on the stack and writes that as one line. If the
message does not fit it prints both again, into a buffer that has been allocated for them. A line
needs room for a newline, which is not added to a message that ends with one, and for the null that
`snprintf` puts behind what it prints.

The two loggers differ in where the time comes from. What `vsnprintf` prints is not in the source: a
call of `Logv` is given the text, or what a failure leaves in the buffer, for each of the two
attempts.

## Main definitions

* `logv`, and with their headers `PosixLogger.logv` and `WindowsLogger.logv`

## Main results

* `logv_writes` — the line that is written, whatever has been in the buffers, and when there is none
-/

namespace Squirrel

open Decimal

namespace Logger

/-- `kMaxThreadIdSize`. -/
def kMaxThreadIdSize : ℕ := 32

/-- `kStackBufferSize`. -/
def kStackBufferSize : ℕ := 512

/-- The newline. -/
def newline : UInt8 := 10

/-- What `vsnprintf` prints: a text, of which it returns the length, or not more than what is left
there when it fails and returns -1. -/
inductive Printed
  | text (t : Bytes)
  | failed (left : Bytes)
  deriving DecidableEq

/-- `snprintf(buffer + offset, size)` of a text: what fits in front of the null. -/
def snprintf (buffer : Bytes) (offset size : ℕ) (text : Bytes) : Option Bytes :=
  if size = 0 then some buffer else memcpy buffer offset (text.take (size - 1) ++ [0])

/-- The header and the message in the buffer, with the offset behind them. The assertions are on the
header. -/
def printLine (header : Bytes) (message : Printed) (buffer : Bytes) (bufferSize : ℕ) :
    Option (ℕ × Bytes) := do
  let buffer ← snprintf buffer 0 bufferSize header
  let bufferOffset := header.length
  if ¬ bufferOffset ≤ 28 + kMaxThreadIdSize ∨ ¬ bufferOffset < bufferSize then none
  else
    match message with
    | .text t => do
      let buffer ← snprintf buffer bufferOffset (bufferSize - bufferOffset) t
      some (bufferOffset + t.length, buffer)
    | .failed left => do
      let buffer ← memcpy buffer bufferOffset (left.take (bufferSize - bufferOffset))
      some (bufferOffset - 1, buffer)

/-- What goes to `fwrite`: the buffer up to the offset, with a newline at the end. -/
def finishLine (bufferOffset : ℕ) (buffer : Bytes) (bufferSize : ℕ) : Option Bytes := do
  let last ← buffer[bufferOffset - 1]?
  let (buffer, bufferOffset) ←
    if last ≠ newline then
      if bufferOffset < buffer.length then some (buffer.set bufferOffset newline, bufferOffset + 1)
        else none
    else some (buffer, bufferOffset)
  if bufferOffset ≤ bufferSize then some (buffer.take bufferOffset) else none

/-- `Logv`, with what the first and the second call of `vsnprintf` print, the bytes in the stack
buffer, and those in a buffer of a given size that has just been allocated. The offset is an
`int`. -/
def logv (header : Bytes) (first second : Printed) (stackBuffer : Bytes) (newChar : ℕ → Bytes) :
    Option Bytes := do
  let (bufferOffset, buffer) ← printLine header first stackBuffer kStackBufferSize
  if kStackBufferSize - 1 ≤ bufferOffset then
    let dynamicBufferSize := bufferOffset + 2
    if 2 ^ 31 ≤ dynamicBufferSize then none
    else
      let (bufferOffset, buffer) ← printLine header second (newChar dynamicBufferSize)
        dynamicBufferSize
      if dynamicBufferSize - 1 ≤ bufferOffset then none
      else finishLine bufferOffset buffer dynamicBufferSize
  else finishLine bufferOffset buffer kStackBufferSize

/-- `"%04d/%02d/%02d-%02d:%02d:%02d.%06d %s "`. -/
def header (year month day hour minute second micros : ℕ) (threadId : Bytes) : Bytes :=
  padded 4 year ++ (ascii "/" ++ (padded 2 month ++ (ascii "/" ++ (padded 2 day ++ (ascii "-" ++
    (padded 2 hour
      ++ (ascii ":"
        ++ (padded 2 minute
          ++ (ascii ":"
            ++ (padded 2 second
              ++ (ascii "." ++ (padded 6 micros
                ++ (ascii " " ++ (threadId.take kMaxThreadIdSize ++ ascii " "))))))))))))))

end Logger

/-- The fields of `struct tm` that are printed, with `tv_usec`. -/
structure PosixTime where
  tmYear : ℕ
  tmMon : ℕ
  tmMday : ℕ
  tmHour : ℕ
  tmMin : ℕ
  tmSec : ℕ
  tvUsec : ℕ

/-- The fields of `SYSTEMTIME` that are printed. -/
structure SystemTime where
  wYear : ℕ
  wMonth : ℕ
  wDay : ℕ
  wHour : ℕ
  wMinute : ℕ
  wSecond : ℕ
  wMilliseconds : ℕ

/-- The header of a `PosixLogger`. -/
def PosixLogger.header (now : PosixTime) (threadId : Bytes) : Bytes :=
  Logger.header (now.tmYear + 1900) (now.tmMon + 1) now.tmMday now.tmHour now.tmMin now.tmSec
    now.tvUsec threadId

/-- `PosixLogger::Logv`. -/
def PosixLogger.logv (now : PosixTime) (threadId : Bytes) :
    Logger.Printed → Logger.Printed → Bytes → (ℕ → Bytes) → Option Bytes :=
  Logger.logv (PosixLogger.header now threadId)

/-- The header of a `WindowsLogger`. -/
def WindowsLogger.header (now : SystemTime) (threadId : Bytes) : Bytes :=
  Logger.header now.wYear now.wMonth now.wDay now.wHour now.wMinute now.wSecond
    (now.wMilliseconds * 1000) threadId

/-- `WindowsLogger::Logv`. -/
def WindowsLogger.logv (now : SystemTime) (threadId : Bytes) :
    Logger.Printed → Logger.Printed → Bytes → (ℕ → Bytes) → Option Bytes :=
  Logger.logv (WindowsLogger.header now threadId)

namespace Logger

/-! ### Lines -/

/-- A line ends with a newline. -/
def line (text : Bytes) : Bytes := if text.getLast? = some newline then text else text ++ [newline]

/-- The header and the message. A failure of `vsnprintf` takes the last blank of the header back. -/
def shown (header : Bytes) : Printed → Bytes
  | .text t => header ++ t
  | .failed _ => header.dropLast

/-- There is room for the message in one of the buffers: it leaves the stack buffer a byte for a
newline, or its length and two more is an `int`, and the second attempt prints no more than the
first. -/
def Fits (header : Bytes) (first second : Printed) : Prop :=
  kStackBufferSize - 1 ≤ (shown header first).length →
    (shown header first).length + 2 < 2 ^ 31 ∧ (shown header second).length
      ≤ (shown header first).length

instance (header : Bytes) (first second : Printed) : Decidable (Fits header first second) :=
  inferInstanceAs (Decidable (_ → _))

/-- The line that is logged. -/
def logged (header : Bytes) (first second : Printed) : Bytes :=
  if kStackBufferSize - 1 ≤ (shown header first).length then line (shown header second)
  else line (shown header first)

/-- `vsnprintf` prints the same both times. -/
theorem fits_self {header : Bytes} {message : Printed}
    (h : (shown header message).length + 2 < 2 ^ 31) :
    Fits header message message := fun _ => ⟨h, le_rfl⟩

theorem logged_self (header : Bytes) (message : Printed) :
    logged header message message = line (shown header message) := ite_self _

variable {text buffer : Bytes} {size : ℕ}

/-- What is at the front of the buffer, up to the offset, becomes a line. -/
theorem finishLine_eq (hfront : text <+: buffer) (hne : text ≠ []) (hlt : text.length < size)
    (hbuffer : buffer.length = size) : finishLine text.length buffer size = some (line text) := by
  obtain ⟨rest, rfl⟩ := hfront
  rw [List.length_append] at hbuffer
  have hlast : (text ++ rest)[text.length - 1]? = some (text.getLast hne) := by
    have hpos := List.length_pos_iff.mpr hne
    rw [List.getElem?_append_left (by omega), ← List.getLast?_eq_getElem?,
      List.getLast?_eq_some_getLast hne]
  rw [finishLine, hlast, Option.bind_eq_bind, Option.bind_some, line,
    List.getLast?_eq_some_getLast hne]
  by_cases hnewline : text.getLast hne = newline
  · rw [if_neg (not_not.mpr hnewline), hnewline, if_pos rfl, Option.bind_eq_bind, Option.bind_some]
    dsimp only
    rw [if_pos hlt.le, List.take_left]
  · obtain ⟨c, rest, rfl⟩ : ∃ c rest', rest = c :: rest' :=
      List.exists_cons_of_length_pos (by omega)
    have hfit : text.length < (text ++ c :: rest).length := by
      rw [List.length_append]
      omega
    have hset : (text ++ c :: rest).set text.length newline = text ++ [newline] ++ rest := by
      rw [List.set_append_right _ _ le_rfl, Nat.sub_self, List.set_cons_zero, List.append_assoc]
      rfl
    rw [if_pos hnewline, if_pos hfit, if_neg fun h => hnewline (Option.some.inj h), hset,
      Option.bind_eq_bind, Option.bind_some]
    dsimp only
    rw [if_pos (Nat.succ_le_of_lt hlt), List.take_left' (by rw [List.length_append]; rfl)]

/-- A text that fits, in front of what the buffer has behind it. -/
theorem snprintf_behind (front : Bytes) {tail : Bytes} (hpos : 0 < tail.length) (text : Bytes) :
    ∃ tail', tail'.length = tail.length ∧
      snprintf (front ++ tail) front.length tail.length text = some (front ++ tail') ∧
      (text.length < tail.length → text <+: tail') := by
  have hlen : (text.take (tail.length - 1) ++ [0]).length ≤ tail.length := by
    rw [List.length_append, List.length_take, List.length_singleton]
    omega
  refine ⟨text.take (tail.length - 1) ++ [0]
    ++ tail.drop (text.take (tail.length - 1) ++ [0]).length, ?_, ?_, fun hlt => ?_⟩
  · rw [List.length_append, List.length_drop]
    omega
  · rw [snprintf, if_neg (Nat.ne_of_gt hpos), memcpy_append front tail _ rfl hlen,
      List.append_assoc]
  · rw [List.take_of_length_le (by omega), List.append_assoc]
    exact List.prefix_append _ _

/-- The header in the buffer, with room behind it. -/
theorem snprintf_header {header : Bytes} (hlt : header.length < size)
    (hbuffer : buffer.length = size) :
    ∃ tail, header.length + tail.length = size ∧ snprintf buffer 0 size header
      = some (header ++ tail) := by
  obtain ⟨tail', hlen, hprint, hfront⟩ :=
    snprintf_behind [] (hbuffer ▸ Nat.zero_lt_of_lt hlt) header
  obtain ⟨tail, rfl⟩ := hfront (hbuffer ▸ hlt)
  rw [List.length_append, hbuffer] at hlen
  rw [hbuffer] at hprint
  exact ⟨tail, hlen, hprint⟩

/-- The header and the message in the buffer, as far as they fit. -/
theorem printLine_spec {header : Bytes} (hheader : header.length ≤ 28 + kMaxThreadIdSize)
    (hlt : header.length < size) (hbuffer : buffer.length = size) (message : Printed) :
    ∃ buffer', printLine header message buffer size
        = some (match message with
          | .text t => header.length + t.length
          | .failed _ => header.length - 1, buffer') ∧
      buffer'.length = size ∧
        ((shown header message).length < size → shown header message <+: buffer') := by
  obtain ⟨tail, hsize, hprint⟩ := snprintf_header hlt hbuffer
  have hroom : size - header.length = tail.length := by omega
  cases message with
  | text t =>
    obtain ⟨tail', hlen, hprint', hfront⟩ :=
      snprintf_behind header (hroom ▸ Nat.sub_pos_of_lt hlt) t
    refine ⟨header ++ tail', ?_, ?_, fun hfit => ?_⟩
    · rw [printLine, hprint, Option.bind_eq_bind, Option.bind_some, if_neg (by omega), hroom]
      dsimp only
      rw [hprint', Option.bind_some]
    · rw [List.length_append]
      omega
    · rw [shown, List.length_append] at hfit
      exact (List.prefix_append_right_inj header).mpr (hfront (by omega))
  | failed left =>
    have hlen : (left.take tail.length).length ≤ tail.length := by
      rw [List.length_take]
      exact Nat.min_le_left _ _
    have hcopy := memcpy_append header tail (left.take tail.length) rfl hlen
    refine ⟨header ++ left.take tail.length ++ tail.drop (left.take tail.length).length, ?_, ?_,
      fun _ => ?_⟩
    · rw [printLine, hprint, Option.bind_eq_bind, Option.bind_some, if_neg (by omega), hroom]
      dsimp only
      rw [hcopy, Option.bind_some]
    · rw [List.length_append, List.length_append, List.length_drop]
      omega
    · rw [shown, List.append_assoc]
      exact (List.dropLast_prefix header).trans (List.prefix_append _ _)

/-- The offset is behind what is shown. -/
theorem printLine_shown {header : Bytes} (hheader : header.length ≤ 28 + kMaxThreadIdSize)
    (hlt : header.length < size) (hbuffer : buffer.length = size) (message : Printed) :
    ∃ buffer', printLine header message buffer size
      = some ((shown header message).length, buffer') ∧
      buffer'.length = size ∧
        ((shown header message).length < size → shown header message <+: buffer') := by
  obtain ⟨buffer', hprint, hrest⟩ := printLine_spec hheader hlt hbuffer message
  refine ⟨buffer', hprint.trans ?_, hrest⟩
  cases message with
  | text t => rw [shown, List.length_append]
  | failed left => rw [shown, List.length_dropLast]

theorem shown_ne_nil {header : Bytes} (hlong : 2 ≤ header.length) (message : Printed) :
    shown header message ≠ [] := by
  refine List.ne_nil_of_length_pos ?_
  cases message with
  | text t =>
    rw [shown, List.length_append]
    omega
  | failed left =>
    rw [shown, List.length_dropLast]
    omega

/-- **What is logged**, whatever is in the buffers: the header and the message as one line, if there
is room for it. -/
theorem logv_eq {header : Bytes}
    (hheader : 2 ≤ header.length ∧ header.length ≤ 28 + kMaxThreadIdSize) {stackBuffer : Bytes}
    (hstack : stackBuffer.length = kStackBufferSize) {newChar : ℕ → Bytes}
    (hnew : ∀ n, (newChar n).length = n) (first second : Printed) :
    logv header first second stackBuffer newChar
      = if Fits header first second then some (logged header first second) else none := by
  obtain ⟨hlong, hshort⟩ := hheader
  have hroom : header.length < kStackBufferSize := by
    simp only [kMaxThreadIdSize] at hshort
    rw [kStackBufferSize]
    omega
  obtain ⟨buffer, hprint, hlen, hfront⟩ := printLine_shown hshort hroom hstack first
  rw [logv, hprint, Option.bind_eq_bind, Option.bind_some]
  dsimp only
  by_cases hfull : kStackBufferSize - 1 ≤ (shown header first).length
  swap
  · have hfits : Fits header first second := fun h => absurd h hfull
    rw [if_neg hfull, if_pos hfits, logged, if_neg hfull]
    rw [kStackBufferSize] at hfull
    exact finishLine_eq (hfront (by rw [kStackBufferSize]; omega)) (shown_ne_nil hlong first)
      (by rw [kStackBufferSize]; omega) hlen
  -- the second attempt
  rw [if_pos hfull]
  by_cases hint : 2 ^ 31 ≤ (shown header first).length + 2
  · have hfits : ¬ Fits header first second := fun h => Nat.not_lt.mpr hint (h hfull).1
    rw [if_pos hint, if_neg hfits]
  · rw [if_neg hint]
    have hgrown : header.length < (shown header first).length + 2 := by
      cases first with
      | text t =>
        rw [shown, List.length_append]
        omega
      | failed left =>
        rw [shown, List.length_dropLast]
        omega
    obtain ⟨buffer', hprint', hlen', hfront'⟩ := printLine_shown hshort hgrown (hnew _) second
    rw [hprint', Option.bind_some]
    dsimp only
    by_cases hmore : (shown header first).length + 2 - 1 ≤ (shown header second).length
    · have hfits : ¬ Fits header first second := fun h => by
        have := (h hfull).2
        omega
      rw [if_pos hmore, if_neg hfits]
    · have hfits : Fits header first second := fun _ => ⟨by omega, by omega⟩
      rw [if_neg hmore, if_pos hfits, logged, if_pos hfull]
      exact finishLine_eq (hfront' (by omega)) (shown_ne_nil hlong second) (by omega) hlen'

theorem length_header {year month day hour minute second micros : ℕ} (hyear : year < 10 ^ 4)
    (hmonth : month < 10 ^ 2) (hday : day < 10 ^ 2) (hhour : hour < 10 ^ 2)
    (hminute : minute < 10 ^ 2) (hsecond : second < 10 ^ 2) (hmicros : micros < 10 ^ 6)
    (threadId : Bytes) : (header year month day hour minute second micros threadId).length
      = 28 + min kMaxThreadIdSize threadId.length := by
  have hpadded : ∀ w n, n < 10 ^ w → (padded w n).length = w := by
    intro w n hn
    rw [length_padded, Nat.max_eq_left (length_digits_le hn)]
  have hmark : ∀ mark ∈ ["/", "-", ":", ".", " "], (ascii mark).length = 1 := by decide
  simp only [header, List.length_append, hpadded 4 _ hyear, hpadded 2 _ hmonth, hpadded 2 _ hday,
    hpadded 2 _ hhour, hpadded 2 _ hminute, hpadded 2 _ hsecond, hpadded 6 _ hmicros,
    List.length_take, hmark "/" (by decide), hmark "-" (by decide), hmark ":" (by decide),
    hmark "." (by decide), hmark " " (by decide)]
  omega

end Logger

/-- A time that `localtime_r` and `gettimeofday` give, up to the year 9999. -/
structure PosixTime.Valid (now : PosixTime) : Prop where
  year : now.tmYear + 1900 < 10 ^ 4
  month : now.tmMon < 12
  day : now.tmMday ≤ 31
  hour : now.tmHour < 24
  minute : now.tmMin < 60
  second : now.tmSec ≤ 60
  micros : now.tvUsec < 10 ^ 6

/-- A time that `GetLocalTime` gives, up to the year 9999. -/
structure SystemTime.Valid (now : SystemTime) : Prop where
  year : now.wYear < 10 ^ 4
  month : now.wMonth ≤ 12
  day : now.wDay ≤ 31
  hour : now.wHour < 24
  minute : now.wMinute < 60
  second : now.wSecond < 60
  milliseconds : now.wMilliseconds < 1000

namespace Logger

theorem length_posixHeader {now : PosixTime} (h : now.Valid) (threadId : Bytes) :
    (PosixLogger.header now threadId).length = 28 + min kMaxThreadIdSize threadId.length := by
  obtain ⟨hyear, hmonth, hday, hhour, hminute, hsecond, hmicros⟩ := h
  exact length_header hyear (by omega) (by omega) (by omega) (by omega) (by omega) hmicros threadId

theorem length_windowsHeader {now : SystemTime} (h : now.Valid) (threadId : Bytes) :
    (WindowsLogger.header now threadId).length = 28 + min kMaxThreadIdSize threadId.length := by
  obtain ⟨hyear, hmonth, hday, hhour, hminute, hsecond, hmilliseconds⟩ := h
  exact length_header hyear (by omega) (by omega) (by omega) (by omega) (by omega)
    (by omega) threadId

/-- **Both loggers** write the header and the message as one line, whatever is in the buffers,
exactly if there is room for it: what is longer than the stack buffer fits into the other one, and
neither is written behind its end. -/
theorem logv_writes {stackBuffer : Bytes} (hstack : stackBuffer.length = kStackBufferSize)
    {newChar : ℕ → Bytes} (hnew : ∀ n, (newChar n).length = n) (threadId : Bytes)
    (first second : Printed) :
    (∀ now : PosixTime, now.Valid → PosixLogger.logv now threadId first second stackBuffer newChar
      = if Fits (PosixLogger.header now threadId) first second
        then some (logged (PosixLogger.header now threadId) first second) else none) ∧
    ∀ now : SystemTime, now.Valid → WindowsLogger.logv now threadId first second stackBuffer newChar
      = if Fits (WindowsLogger.header now threadId) first second
        then some (logged (WindowsLogger.header now threadId) first second) else none := by
  have hmin : min kMaxThreadIdSize threadId.length ≤ kMaxThreadIdSize := Nat.min_le_left _ _
  have hmax : kMaxThreadIdSize = 32 := rfl
  constructor
  · intro now hnow
    have hlen := length_posixHeader hnow threadId
    exact logv_eq ⟨by omega, by omega⟩ hstack hnew first second
  · intro now hnow
    have hlen := length_windowsHeader hnow threadId
    exact logv_eq ⟨by omega, by omega⟩ hstack hnew first second

/-- A message that does not fit into the stack buffer. -/
theorem logv_writes_long :
    WindowsLogger.logv ⟨2024, 1, 31, 23, 59, 0, 7⟩ [49] (.text (List.replicate 600 97))
      (.text (List.replicate 600 97)) (List.replicate kStackBufferSize 0)
      (fun n => List.replicate n 0)
      = some (line (WindowsLogger.header ⟨2024, 1, 31, 23, 59, 0, 7⟩ [49]
        ++ List.replicate 600 97)) := by
  have hvalid : SystemTime.Valid ⟨2024, 1, 31, 23, 59, 0, 7⟩ := by constructor <;> decide
  have hstack : (List.replicate kStackBufferSize 0 : Bytes).length = kStackBufferSize :=
    List.length_replicate
  have hnew : ∀ n, (List.replicate n 0 : Bytes).length = n := fun _ => List.length_replicate
  have hwrites := (logv_writes hstack hnew [49] (.text (List.replicate 600 97))
    (.text (List.replicate 600 97))).2 _ hvalid
  have hlen := length_windowsHeader hvalid [49]
  have hfits : Fits (WindowsLogger.header ⟨2024, 1, 31, 23, 59, 0, 7⟩ [49])
      (.text (List.replicate 600 97)) (.text (List.replicate 600 97)) := by
    refine fits_self ?_
    rw [shown, List.length_append, hlen, List.length_replicate]
    decide
  rw [hwrites, if_pos hfits, logged_self]
  rfl

end Logger

end Squirrel
