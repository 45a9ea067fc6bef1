import Squirrel.Lib.Decimal
import Squirrel.Lib.LittleEndian
import Squirrel.Util.Env

/-!
# How a status is stored

`state_` is null, or it points at an array that holds the length of the message in four bytes, the
code in one, and the message. The constructor writes the length as a `size_t`, which has eight
bytes: what is too much is overwritten by the code and the message, if the message has three bytes
at least. If it is shorter, the write ends behind the array.

A write or a read outside of an array is no result, nor is a read of what has not been written, or
the use of an array that has been deleted. Statuses that are stored as the comment says behave as
values: copies are independent of each other, and each array is deleted once.

## Main definitions

* `StatusLayout.construct`, `StatusLayout.copyState` — what the functions of `Status` do with arrays
* `StatusLayout.Memory.step` — what they do with pointers

## Main results

* `StatusLayout.run_represents` — statuses behave as values
* `StatusLayout.faithful_iff` — exactly when the constructor stays in its array
-/

namespace Squirrel

open LittleEndian Decimal

/-- The number of a code; that of `kOk` is zero. -/
def Code.number : Code → ℕ
  | kNotFound => 1
  | kCorruption => 2
  | kNotSupported => 3
  | kInvalidArgument => 4
  | kIOError => 5

/-- The text in front of a message. -/
def Code.type : Code → Bytes
  | kNotFound => ascii "NotFound: "
  | kCorruption => ascii "Corruption: "
  | kNotSupported => ascii "Not implemented: "
  | kInvalidArgument => ascii "Invalid argument: "
  | kIOError => ascii "IO error: "

namespace StatusLayout

/-! ### Arrays -/

/-- An array of `char`, in which nothing stands for what has not been written. -/
abbrev Buffer := List (Option UInt8)

/-- `new char[n]`. -/
def newChars (n : ℕ) : Buffer := List.replicate n none

/-- `n` bytes of the array from `offset` on, to be copied. -/
def slice (buf : Buffer) (offset n : ℕ) : Option Buffer :=
  if offset + n ≤ buf.length then some ((buf.drop offset).take n) else none

/-- `n` bytes of the array from `offset` on, to be looked at. -/
def read (buf : Buffer) (offset n : ℕ) : Option Bytes := do (← slice buf offset n).mapM id

/-- Bytes that have been written. -/
def stored (bytes : Bytes) : Buffer := bytes.map some

/-! ### The functions of `Status` -/

/-- The constructor. The assertion that the code is not `kOk` holds of every `Code`. -/
def construct (code : Code) (msg msg2 : Bytes) : Option Buffer := do
  let len1 := msg.length
  let len2 := msg2.length
  let size := (len1 + if len2 ≠ 0 then 2 + len2 else 0) % 2 ^ 64
  let result := newChars ((size + 5) % 2 ^ 64)
  -- `sizeof(size)` is eight
  let result ← memcpy result 0 (stored (leBytes 8 size))
  let result ← memcpy result 4 (stored [UInt8.ofNat code.number])
  let result ← memcpy result 5 (stored msg)
  if len2 ≠ 0 then
    let result ← memcpy result (5 + len1) (stored (ascii ":"))
    let result ← memcpy result (6 + len1) (stored (ascii " "))
    memcpy result (7 + len1) (stored msg2)
  else some result

/-- `CopyState`, in which `size` is a `uint32_t`. -/
def copyState (state : Buffer) : Option Buffer := do
  let size := leValue (← read state 0 4)
  let n := (size + 5) % 2 ^ 32
  memcpy (newChars n) 0 (← slice state 0 n)

/-- `code`. -/
def code : Option Buffer → Option ℤ
  | none => some 0
  | some state => do
    let bytes ← read state 4 1
    some (bytes.head?.getD 0).toInt8.toInt

/-- The text in front of the message. `temp`, which holds that of an unknown code, is gone when it
is used. -/
def type (code : ℤ) : Option Bytes :=
  if code = 0 then some (ascii "OK")
  else if code = 1 then some (ascii "NotFound: ")
  else if code = 2 then some (ascii "Corruption: ")
  else if code = 3 then some (ascii "Not implemented: ")
  else if code = 4 then some (ascii "Invalid argument: ")
  else if code = 5 then some (ascii "IO error: ")
  else none

/-- `ToString`. -/
def toString : Option Buffer → Option Bytes
  | none => some (ascii "OK")
  | some state => do
    let result ← type (← code (some state))
    let length := leValue (← read state 0 4)
    some (result ++ (← read state 5 length))

/-! ### Pointers -/

/-- The arrays on the heap, of which some have been deleted, and the `state_` of each `Status`
object that has not been destroyed. -/
structure Memory where
  arrays : List (Option Buffer)
  statuses : List (Option (Option ℕ))
  deriving DecidableEq

/-- What a program does with statuses. An object is named by the number of those made before it. -/
inductive Op
  /-- `Status()`, `Status::OK()`. -/
  | ok
  /-- `Status::NotFound(msg, msg2)` and so on. -/
  | make (code : Code) (msg msg2 : Bytes)
  /-- The copy constructor. -/
  | copy (i : ℕ)
  /-- `operator=`. -/
  | assign (i j : ℕ)
  /-- The destructor. -/
  | destroy (i : ℕ)

/-- What is in a list at `i`, if it is there still. -/
def look {α : Type} (l : List (Option α)) (i : ℕ) : Option α := (l[i]?).join

namespace Memory

def empty : Memory := ⟨[], []⟩

/-- The `state_` of an object. -/
def state (m : Memory) (i : ℕ) : Option (Option ℕ) := look m.statuses i

/-- The array at a pointer. -/
def deref (m : Memory) (p : ℕ) : Option Buffer := look m.arrays p

/-- `delete[]`; nothing if the array has been deleted before. -/
def delete (m : Memory) : Option ℕ → Option Memory
  | none => some m
  | some p => do
    let _ ← m.deref p
    some { m with arrays := m.arrays.set p none }

/-- A new array, with its address. -/
def alloc (m : Memory) (buf : Buffer) : Memory × ℕ :=
  ({ m with arrays := m.arrays ++ [some buf] }, m.arrays.length)

/-- `s.state_ == nullptr ? nullptr : CopyState(s.state_)`. -/
def copyOf (m : Memory) : Option ℕ → Option (Memory × Option ℕ)
  | none => some (m, none)
  | some p => do
    let (m, q) := m.alloc (← copyState (← m.deref p))
    some (m, some q)

/-- A new object. -/
def push (m : Memory) (state : Option ℕ) : Memory :=
  { m with statuses := m.statuses ++ [some state] }

def step (m : Memory) : Op → Option Memory
  | .ok => some (m.push none)
  | .make code msg msg2 => do
    let (m, p) := m.alloc (← construct code msg msg2)
    some (m.push (some p))
  | .copy i => do
    let (m, state) ← m.copyOf (← m.state i)
    some (m.push state)
  | .assign i j => do
    let target ← m.state i
    let source ← m.state j
    if target ≠ source then
      let m ← m.delete target
      let (m, state) ← m.copyOf source
      some { m with statuses := m.statuses.set i (some state) }
    else some m
  | .destroy i => do
    let m ← m.delete (← m.state i)
    some { m with statuses := m.statuses.set i none }

def run (m : Memory) (ops : List Op) : Option Memory := ops.foldlM step m

/-- The array of an object. -/
def array (m : Memory) (i : ℕ) : Option (Option Buffer) := do
  match ← m.state i with
  | none => some none
  | some p => some (some (← m.deref p))

end Memory

/-! ### Values -/

/-- What a status says: nothing if it is `OK`, or a code with its message. -/
abbrev Value := Option (Code × Bytes)

/-- The message of a status that is made of two. -/
def message (msg msg2 : Bytes) : Bytes := if msg2 = [] then msg else msg ++ (ascii ": " ++ msg2)

def Value.number : Value → ℤ
  | none => 0
  | some (c, _) => c.number

def Value.toString : Value → Bytes
  | none => ascii "OK"
  | some (c, text) => c.type ++ text

/-- Values in place of objects; there is nothing that could go wrong, but the use of an object that
has been destroyed. -/
def valueStep (vals : List (Option Value)) : Op → Option (List (Option Value))
  | .ok => some (vals ++ [some none])
  | .make code msg msg2 => some (vals ++ [some (some (code, message msg msg2))])
  | .copy i => do some (vals ++ [some (← look vals i)])
  | .assign i j => do
    let _ ← look vals i
    some (vals.set i (some (← look vals j)))
  | .destroy i => do
    let _ ← look vals i
    some (vals.set i none)

def valueRun (vals : List (Option Value)) (ops : List Op) : Option (List (Option Value)) :=
  ops.foldlM valueStep vals

/-! ### The layout -/

/-- The layout that the comment in `Status` describes. -/
def pack (c : Code) (text : Bytes) : Buffer :=
  stored (leBytes 4 text.length ++ ([UInt8.ofNat c.number] ++ text))

/-- Its length is a `uint32_t`. -/
def Short (text : Bytes) : Prop := text.length + 5 < 2 ^ 32

variable {c : Code} {text msg msg2 : Bytes}

@[simp] theorem length_stored (bytes : Bytes) : (stored bytes).length = bytes.length :=
  List.length_map _

theorem stored_append (a b : Bytes) : stored (a ++ b) = stored a ++ stored b := List.map_append

theorem length_pack (c : Code) (text : Bytes) : (pack c text).length = text.length + 5 := by
  rw [pack, length_stored, List.length_append, length_leBytes, List.length_append,
    List.length_singleton]
  omega

theorem length_message (msg msg2 : Bytes) :
    (message msg msg2).length = msg.length + if msg2.length ≠ 0 then 2 + msg2.length else 0 := by
  rw [message]
  by_cases h : msg2 = []
  · simp [h]
  · have hlen : msg2.length ≠ 0 := fun h0 => h (List.length_eq_zero_iff.mp h0)
    have hascii : (ascii ": ").length = 2 := by decide
    rw [if_neg h, if_pos hlen, List.length_append, List.length_append, hascii]

theorem memcpy_stored (front src : Bytes) (rest : Buffer) {offset : ℕ}
    (hoffset : offset = front.length) (h : src.length ≤ rest.length) :
    memcpy (stored front ++ rest) offset (stored src)
      = some (stored (front ++ src) ++ rest.drop src.length) := by
  have hfront : offset = (stored front).length := by rw [length_stored, hoffset]
  have hcopy := memcpy_append (stored front) rest (stored src) hfront (by rwa [length_stored])
  rwa [length_stored, ← stored_append] at hcopy

theorem read_stored {bytes : Bytes} {offset n : ℕ} (h : offset + n ≤ bytes.length) :
    read (stored bytes) offset n = some ((bytes.drop offset).take n) := by
  have hmap : ∀ l : Bytes, (l.map some).mapM id = some l := by
    intro l
    induction l with
    | nil => rfl
    | cons b l ih => rw [List.map_cons, List.mapM_cons, ih]; rfl
  have hslice : slice (stored bytes) offset n = some (((bytes.drop offset).take n).map some) := by
    rw [slice, if_pos (by rwa [length_stored]), stored, List.map_take, List.map_drop]
  rw [read, hslice]
  exact hmap _

/-- The length that is stored. -/
theorem read_length (h : Short text) :
    (read (pack c text) 0 4).map leValue = some text.length := by
  have hlen : text.length < 2 ^ 32 := by
    rw [Short] at h
    omega
  have hfit : 0 + 4 ≤ (leBytes 4 text.length ++ ([UInt8.ofNat c.number] ++ text)).length := by
    rw [List.length_append, length_leBytes]
    omega
  rw [pack, read_stored hfit, List.drop_zero, List.take_left' (length_leBytes 4 _), Option.map_some,
    leValue_leBytes, show 256 ^ 4 = 2 ^ 32 by norm_num, Nat.mod_eq_of_lt hlen]

/-- A copy is the same. -/
theorem copyState_pack (h : Short text) : copyState (pack c text) = some (pack c text) := by
  obtain ⟨bytes, hread, hsize⟩ := Option.map_eq_some_iff.mp (read_length (c := c) h)
  have hslice : slice (pack c text) 0 (text.length + 5) = some (pack c text) := by
    rw [slice, Nat.zero_add, if_pos (length_pack c text).ge, List.drop_zero,
      List.take_of_length_le (length_pack c text).le]
  have hwrite : memcpy (newChars (text.length + 5)) 0 (pack c text) = some (pack c text) := by
    have hlen : (pack c text).length = (newChars (text.length + 5)).length := by
      rw [length_pack, newChars, List.length_replicate]
    rw [memcpy, Nat.zero_add, if_pos hlen.le, List.take_zero, List.nil_append,
      List.drop_of_length_le hlen.ge, List.append_nil]
  rw [copyState, hread]
  simp only [Option.bind_eq_bind, Option.bind_some, hsize, Nat.mod_eq_of_lt h, hslice, hwrite]

theorem code_pack (c : Code) (text : Bytes) : code (some (pack c text)) = some (c.number : ℤ) := by
  have hfit : 4 + 1 ≤ (leBytes 4 text.length ++ ([UInt8.ofNat c.number] ++ text)).length := by
    rw [List.length_append, length_leBytes, List.length_append, List.length_singleton]
    omega
  have hread : read (pack c text) 4 1 = some [UInt8.ofNat c.number] := by
    rw [pack, read_stored hfit, List.drop_left' (length_leBytes 4 _)]
    rfl
  rw [code, hread]
  cases c <;> decide

theorem toString_pack (h : Short text) :
    toString (some (pack c text)) = some (c.type ++ text) := by
  obtain ⟨bytes, hread, hsize⟩ := Option.map_eq_some_iff.mp (read_length (c := c) h)
  have hfit : 5 + text.length
      ≤ (leBytes 4 text.length ++ ([UInt8.ofNat c.number] ++ text)).length := by
    rw [List.length_append, length_leBytes, List.length_append, List.length_singleton]
    omega
  have hfront : (leBytes 4 text.length ++ [UInt8.ofNat c.number]).length = 5 := by
    rw [List.length_append, length_leBytes, List.length_singleton]
  have htext : read (pack c text) 5 text.length = some text := by
    rw [pack, read_stored hfit, ← List.append_assoc, List.drop_left' hfront, List.take_length]
  have htype : type c.number = some c.type := by cases c <;> rfl
  rw [toString, code_pack]
  simp only [Option.bind_eq_bind, Option.bind_some, htype, hread, hsize, htext]

theorem leBytes_eight (v : ℕ) : leBytes 8 v = leBytes 4 v ++ leBytes 4 (v / 256 ^ 4) := by
  simp only [leBytes, Nat.div_div_eq_div_mul, List.cons_append, List.nil_append]
  norm_num

/-- **The constructor** leaves the layout, if there is room for what it writes as the length. -/
theorem construct_eq (hlen : msg.length + msg2.length < 2 ^ 32 - 7)
    (h : 3 ≤ (message msg msg2).length) :
    construct c msg msg2 = some (pack c (message msg msg2)) := by
  have hmessage := length_message msg msg2
  obtain ⟨n, hn⟩ : ∃ n, n = (message msg msg2).length := ⟨_, rfl⟩
  rw [← hn] at h hmessage
  have hsmall : n + 5 < 2 ^ 64 := by
    rw [hmessage]
    split <;> omega
  have hsize : (msg.length + if msg2.length ≠ 0 then 2 + msg2.length else 0) % 2 ^ 64 = n := by
    rw [← hmessage, Nat.mod_eq_of_lt (Nat.lt_of_le_of_lt (Nat.le_add_right n 5) hsmall)]
  -- the length, of which four bytes are too much
  have hchars : (newChars (n + 5)).length = n + 5 := List.length_replicate
  obtain ⟨rest, hrest⟩ : ∃ rest, rest = stored (leBytes 4 (n / 256 ^ 4))
      ++ (newChars (n + 5)).drop 8 :=
    ⟨_, rfl⟩
  have hlenRest : rest.length = n + 1 := by
    rw [hrest, List.length_append, length_stored, length_leBytes, List.length_drop, hchars]
    omega
  have hfirst : memcpy (newChars (n + 5)) 0 (stored (leBytes 8 n))
      = some (stored (leBytes 4 n) ++ rest) := by
    have hw := memcpy_stored [] (leBytes 8 n)
      (newChars (n + 5)) rfl (by rw [length_leBytes, hchars]; omega)
    rw [length_leBytes, List.nil_append, leBytes_eight, stored_append, List.append_assoc, ← hrest]
      at hw
    rw [leBytes_eight]
    exact hw
  -- the code, and the message behind it
  have hcode := memcpy_stored (leBytes 4 n) [UInt8.ofNat c.number] rest (length_leBytes 4 n).symm
    (by rw [hlenRest]; exact Nat.le_add_left 1 n)
  have hmsg := memcpy_stored (leBytes 4 n ++ [UInt8.ofNat c.number]) msg (rest.drop 1)
    (by rw [List.length_append, length_leBytes, List.length_singleton])
    (by rw [List.length_drop, hlenRest, hmessage]; omega)
  obtain ⟨front, hfront⟩ : ∃ front, front = leBytes 4 n ++ [UInt8.ofNat c.number] ++ msg := ⟨_, rfl⟩
  obtain ⟨back, hback⟩ : ∃ back, back = (rest.drop 1).drop msg.length := ⟨_, rfl⟩
  have hlenFront : front.length = 5 + msg.length := by
    rw [hfront, List.length_append, List.length_append, length_leBytes, List.length_singleton]
  have hlenBack : back.length = n - msg.length := by
    rw [hback, List.length_drop, List.length_drop, hlenRest, Nat.add_sub_cancel]
  rw [construct, hsize, Nat.mod_eq_of_lt hsmall, hfirst]
  simp only [Option.bind_eq_bind, Option.bind_some]
  rw [hcode]
  simp only [Option.bind_some, List.length_singleton]
  rw [hmsg, ← hfront, ← hback, Option.bind_some]
  by_cases hnil : msg2 = []
  · have hnone : back = [] := by
      rw [hnil] at hmessage
      rw [← List.length_eq_zero_iff, hlenBack, hmessage]
      simp
    have hzero : ¬ msg2.length ≠ 0 := fun hne => hne (List.length_eq_zero_iff.mpr hnil)
    rw [if_neg hzero, hnone, List.append_nil, pack, ← hn, message, if_pos hnil, hfront,
      List.append_assoc]
  · have hpos : msg2.length ≠ 0 := fun h0 => hnil (List.length_eq_zero_iff.mp h0)
    have hroom : back.length = 2 + msg2.length := by
      rw [hlenBack, hmessage, if_pos hpos, Nat.add_sub_cancel_left]
    have hcolon := memcpy_stored front (ascii ":") back hlenFront.symm
      (by rw [hroom]; exact Nat.le_add_right_of_le (by decide))
    have hspace := memcpy_stored (front ++ ascii ":") (ascii " ") (back.drop 1)
      (show 6 + msg.length
        = _ by rw [List.length_append, hlenFront]; exact Nat.add_right_comm 5 1 _)
      (by rw [List.length_drop, hroom]; show 1 ≤ _; omega)
    have hmsg2 := memcpy_stored (front ++ ascii ":" ++ ascii " ") msg2 ((back.drop 1).drop 1)
      (show 7 + msg.length = _ by
        rw [List.length_append, List.length_append, hlenFront]
        exact Nat.add_right_comm 5 2 _)
      (by rw [List.length_drop, List.length_drop, hroom]; omega)
    have hnone : ((back.drop 1).drop 1).drop msg2.length = [] := by
      rw [← List.length_eq_zero_iff, List.length_drop, List.length_drop, List.length_drop, hroom]
      omega
    rw [if_pos hpos, hcolon]
    simp only [Option.bind_some]
    rw [show (ascii ":").length = 1 from rfl, hspace]
    simp only [Option.bind_some]
    rw [show (ascii " ").length = 1 from rfl, hmsg2, hnone, List.append_nil, pack, ← hn, message,
      if_neg hnil, hfront]
    simp only [List.append_assoc]
    rfl

/-- Otherwise it writes behind the array. -/
theorem construct_eq_none (h : (message msg msg2).length < 3) : construct c msg msg2 = none := by
  have hmessage := length_message msg msg2
  have hsize : (msg.length + if msg2.length ≠ 0 then 2 + msg2.length else 0) % 2 ^ 64 + 5 < 8 := by
    rw [← hmessage, Nat.mod_eq_of_lt (h.trans (by norm_num))]
    omega
  have hwrite : ∀ n, n < 8 → ∀ src, memcpy (newChars n) 0 (stored (leBytes 8 src)) = none := by
    intro n hn src
    refine if_neg ?_
    rw [length_stored, length_leBytes, newChars, List.length_replicate]
    omega
  have hmod : ((msg.length + if msg2.length ≠ 0 then 2 + msg2.length else 0) % 2 ^ 64 + 5) % 2 ^ 64
      < 8 :=
    Nat.lt_of_le_of_lt (Nat.mod_le _ _) hsize
  rw [construct, hwrite _ hmod]
  rfl

/-! ### Statuses are values -/

section Look

variable {α : Type} {l : List (Option α)} {i : ℕ}

theorem look_append (l : List (Option α)) (x : Option α) :
    look (l ++ [x]) = Function.update (look l) l.length x := by
  funext j
  rw [look, Function.update_apply]
  rcases Nat.lt_trichotomy j l.length with hlt | rfl | hgt
  · rw [if_neg hlt.ne, List.getElem?_append_left hlt, look]
  · rw [if_pos rfl, List.getElem?_concat_length, Option.join_some]
  · have hnone : (l ++ [x])[j]? = none := List.getElem?_eq_none (by simp; omega)
    rw [if_neg hgt.ne', hnone, look, List.getElem?_eq_none hgt.le]

theorem lt_of_look {a : α} (h : look l i = some a) : i < l.length := by
  by_contra hge
  rw [look, List.getElem?_eq_none (Nat.not_lt.mp hge)] at h
  cases h

theorem look_length (l : List (Option α)) : look l l.length = none := by
  rw [look, List.getElem?_eq_none le_rfl, Option.join_none]

theorem look_set (h : i < l.length) (x : Option α) :
    look (l.set i x) = Function.update (look l) i x := by
  funext j
  rw [look, Function.update_apply]
  by_cases hj : j = i
  · subst hj
    rw [if_pos rfl, List.getElem?_set_self h, Option.join_some]
  · rw [if_neg hj, List.getElem?_set_ne (Ne.symm hj), look]

theorem set_of_look {a : α} (h : look l i = some a) : l.set i (some a) = l := by
  have hget : l[i]? = some (some a) := Option.join_eq_some_iff.mp h
  obtain ⟨hi, hget⟩ := List.getElem?_eq_some_iff.mp hget
  rw [← hget, List.set_getElem_self]

end Look

/-- The state `s` stands for the value. -/
def Stands (arrays : ℕ → Option Buffer) (s : Option ℕ) : Value → Prop
  | none => s = none
  | some (c, text) => ∃ p, s = some p ∧ arrays p = some (pack c text) ∧ Short text

theorem Stands.eq_none {arrays : ℕ → Option Buffer} {v : Value} (h : Stands arrays none v) :
    v = none := by
  cases v with
  | none => rfl
  | some a =>
    obtain ⟨p, hp, -⟩ := h
    cases hp

/-- Objects that have not been destroyed stand for their values, and no two share an array. -/
structure Rep (arrays : ℕ → Option Buffer) (states : ℕ → Option (Option ℕ))
    (vals : ℕ → Option Value) :
    Prop where
  dead : ∀ i, vals i = none → states i = none
  live : ∀ i v, vals i = some v → ∃ s, states i = some s ∧ Stands arrays s v
  distinct : ∀ i j p, states i = some (some p) → states j = some (some p) → i = j

namespace Rep

variable {arrays : ℕ → Option Buffer} {states : ℕ → Option (Option ℕ)} {vals : ℕ → Option Value}
  {i p : ℕ} {v : Value} {s : Option ℕ}

theorem val_of_state (h : Rep arrays states vals) (hs : states i = some s) :
    ∃ v, vals i = some v ∧ Stands arrays s v := by
  cases hv : vals i with
  | none =>
    rw [h.dead i hv] at hs
    cases hs
  | some v =>
    obtain ⟨s', hs', hstands⟩ := h.live i v hv
    rw [hs] at hs'
    cases hs'
    exact ⟨v, rfl, hstands⟩

theorem array_of_state (h : Rep arrays states vals) (hs : states i = some (some p)) :
    ∃ buf, arrays p = some buf := by
  obtain ⟨v, -, hstands⟩ := h.val_of_state hs
  cases v with
  | none => cases hstands
  | some a =>
    obtain ⟨p', hp, harray, -⟩ := hstands
    cases hp
    exact ⟨_, harray⟩

/-- An array that no object has may change. -/
theorem frame (h : Rep arrays states vals) (hp : ∀ i, states i ≠ some (some p))
    (x : Option Buffer) :
    Rep (Function.update arrays p x) states vals where
  dead := h.dead
  live := by
    intro i v hv
    obtain ⟨s, hs, hstands⟩ := h.live i v hv
    refine ⟨s, hs, ?_⟩
    cases v with
    | none => exact hstands
    | some a =>
      obtain ⟨q, rfl, harray, hshort⟩ := hstands
      have hne : q ≠ p := by
        rintro rfl
        exact hp i hs
      exact ⟨q, rfl, by rw [Function.update_of_ne hne, harray], hshort⟩
  distinct := h.distinct

/-- An object is destroyed, its array aside. -/
theorem forget (h : Rep arrays states vals) (i : ℕ) :
    Rep arrays (Function.update states i none) (Function.update vals i none) where
  dead := by
    intro j hj
    by_cases hji : j = i
    · rw [hji, Function.update_self]
    · rw [Function.update_of_ne hji] at hj ⊢
      exact h.dead j hj
  live := by
    intro j v hj
    have hji : j ≠ i := by
      rintro rfl
      rw [Function.update_self] at hj
      cases hj
    rw [Function.update_of_ne hji] at hj ⊢
    exact h.live j v hj
  distinct := by
    intro j k q hj hk
    have hne : ∀ {j}, Function.update states i none j = some (some q) → j ≠ i := by
      rintro j hj rfl
      rw [Function.update_self] at hj
      cases hj
    rw [Function.update_of_ne (hne hj)] at hj
    rw [Function.update_of_ne (hne hk)] at hk
    exact h.distinct j k q hj hk

/-- Where there is no object, one may be put that has no array in common with the others. -/
theorem put (h : Rep arrays states vals) (hi : vals i = none) (hs : Stands arrays s v)
    (hfresh : ∀ p, s = some p → ∀ j, states j ≠ some (some p)) :
    Rep arrays (Function.update states i (some s)) (Function.update vals i (some v)) where
  dead := by
    intro j hj
    have hji : j ≠ i := by
      rintro rfl
      rw [Function.update_self] at hj
      cases hj
    rw [Function.update_of_ne hji] at hj ⊢
    exact h.dead j hj
  live := by
    intro j v' hj
    by_cases hji : j = i
    · subst hji
      rw [Function.update_self] at hj ⊢
      cases hj
      exact ⟨s, rfl, hs⟩
    · rw [Function.update_of_ne hji] at hj ⊢
      exact h.live j v' hj
  distinct := by
    intro j k q hj hk
    by_cases hji : j = i <;> by_cases hki : k = i
    · rw [hji, hki]
    · rw [hji, Function.update_self] at hj
      rw [Function.update_of_ne hki] at hk
      exact absurd hk (hfresh q (Option.some.inj hj) k)
    · rw [hki, Function.update_self] at hk
      rw [Function.update_of_ne hji] at hj
      exact absurd hj (hfresh q (Option.some.inj hk) j)
    · rw [Function.update_of_ne hji] at hj
      rw [Function.update_of_ne hki] at hk
      exact h.distinct j k q hj hk

end Rep

/-- The objects of the program stand for the values. -/
structure Represents (m : Memory) (vals : List (Option Value)) : Prop where
  length_eq : vals.length = m.statuses.length
  rep : Rep (look m.arrays) (look m.statuses) (look vals)

/-- Calls of the constructor whose text has three bytes, and a length for which there is a
`uint32_t`. -/
def Op.Fits : Op → Prop
  | .make _ msg msg2 => msg.length + msg2.length < 2 ^ 32 - 7 ∧ 3 ≤ (message msg msg2).length
  | _ => True

theorem short_message (h : msg.length + msg2.length < 2 ^ 32 - 7) : Short (message msg msg2) := by
  rw [Short, length_message]
  split <;> omega

section Steps

variable {m : Memory} {states : ℕ → Option (Option ℕ)} {vals : ℕ → Option Value} {i : ℕ} {v : Value}
  {s : Option ℕ} {l : List (Option Value)}

theorem Rep.alloc (h : Rep (look m.arrays) states vals) (hi : vals i = none) (hshort : Short text) :
    Rep (look (m.alloc (pack c text)).1.arrays)
      (Function.update states i (some (some (m.alloc (pack c text)).2)))
      (Function.update vals i (some (some (c, text)))) := by
  have hfree : ∀ j, states j ≠ some (some m.arrays.length) := by
    intro j hj
    obtain ⟨buf, hbuf⟩ := h.array_of_state hj
    rw [look_length] at hbuf
    cases hbuf
  have harrays : look (m.alloc (pack c text)).1.arrays
      = Function.update (look m.arrays) m.arrays.length (some (pack c text)) := look_append _ _
  rw [harrays]
  refine (h.frame hfree _).put hi ⟨m.arrays.length, rfl, Function.update_self .., hshort⟩ ?_
  rintro p hp j
  cases hp
  exact hfree j

/-- A copy of a state, for an object that there is not yet. -/
theorem Rep.copyOf (h : Rep (look m.arrays) states vals) (hi : vals i = none)
    (hs : Stands (look m.arrays) s v) :
    ∃ m' s', m.copyOf s = some (m', s') ∧ m'.statuses = m.statuses ∧
      Rep (look m'.arrays) (Function.update states i (some s'))
        (Function.update vals i (some v)) := by
  cases v with
  | none =>
    obtain rfl : s = none := hs
    exact ⟨m, none, rfl, rfl, h.put hi rfl (by rintro _ ⟨⟩)⟩
  | some a =>
    obtain ⟨p, rfl, harray, hshort⟩ := hs
    refine ⟨(m.alloc (pack a.1 a.2)).1, some (m.alloc (pack a.1 a.2)).2, ?_, rfl, h.alloc hi hshort⟩
    have hderef : m.deref p = some (pack a.1 a.2) := harray
    rw [Memory.copyOf, hderef, Option.bind_eq_bind, Option.bind_some, copyState_pack hshort]
    rfl

/-- What the destructor does with the state of an object. -/
theorem Rep.delete (h : Rep (look m.arrays) states vals) (hs : states i = some s) :
    ∃ m', m.delete s = some m' ∧ m'.statuses = m.statuses ∧
      Rep (look m'.arrays) (Function.update states i none) (Function.update vals i none) := by
  cases s with
  | none => exact ⟨m, rfl, rfl, h.forget i⟩
  | some p =>
    obtain ⟨buf, hbuf⟩ := h.array_of_state hs
    refine ⟨{ m with arrays := m.arrays.set p none }, ?_, rfl, ?_⟩
    · have hderef : m.deref p = some buf := hbuf
      rw [Memory.delete, hderef]
      rfl
    · rw [look_set (lt_of_look hbuf)]
      refine (h.forget i).frame (fun j hj => ?_) none
      have hji : j ≠ i := by
        rintro rfl
        rw [Function.update_self] at hj
        cases hj
      rw [Function.update_of_ne hji] at hj
      exact hji (h.distinct j i p hj hs)

/-- A new object stands for the new value. -/
theorem Represents.push (h : Represents m l) (m' : Memory) (hstatuses : m'.statuses = m.statuses)
    (hrep : Rep (look m'.arrays) (Function.update (look m.statuses) l.length (some s))
      (Function.update (look l) l.length (some v))) :
    Represents (m'.push s) (l ++ [some v]) where
  length_eq := by
    rw [Memory.push, List.length_append, List.length_append, hstatuses, h.length_eq]
    rfl
  rep := by
    have hpush : look (m'.push s).statuses
        = Function.update (look m.statuses) l.length (some s) := by
      rw [Memory.push, look_append, hstatuses, ← h.length_eq]
    rw [hpush, look_append]
    exact hrep

/-- An object has changed. -/
theorem Represents.set (h : Represents m l) (m' : Memory) (hi : i < l.length)
    {x : Option (Option ℕ)} {y : Option Value} (hstatuses : m'.statuses = m.statuses)
    (hrep : Rep (look m'.arrays) (Function.update (look m.statuses) i x)
      (Function.update (look l) i y)) :
    Represents { m' with statuses := m'.statuses.set i x } (l.set i y) where
  length_eq := by rw [List.length_set, List.length_set, hstatuses, h.length_eq]
  rep := by
    rw [look_set hi, look_set (by rw [hstatuses, ← h.length_eq]; exact hi), hstatuses]
    exact hrep

/-- **One operation.** -/
theorem Represents.step (h : Represents m l) {op : Op} (hop : op.Fits) {l' : List (Option Value)}
    (hvals : valueStep l op = some l') : ∃ m', m.step op = some m' ∧ Represents m' l' := by
  have hrep := h.rep
  cases op with
  | ok =>
    cases hvals
    exact ⟨m.push none, rfl, h.push m rfl (hrep.put (look_length l) rfl (by rintro _ ⟨⟩))⟩
  | make code msg msg2 =>
    cases hvals
    have hconstruct := construct_eq (c := code) hop.1 hop.2
    refine ⟨_, ?_, h.push (m.alloc _).1 rfl (hrep.alloc (look_length l) (short_message hop.1))⟩
    rw [Memory.step, hconstruct]
    rfl
  | copy i =>
    obtain ⟨v, hv, hl⟩ := Option.bind_eq_some_iff.mp hvals
    cases hl
    obtain ⟨s, hs, hstands⟩ := hrep.live i v hv
    obtain ⟨m', s', hcopy, hstatuses, hrep'⟩ := hrep.copyOf (look_length l) hstands
    refine ⟨m'.push s', ?_, h.push m' hstatuses hrep'⟩
    have hstate : m.state i = some s := hs
    simp only [Memory.step, hstate, Option.bind_eq_bind, Option.bind_some, hcopy]
  | assign i j =>
    obtain ⟨v₀, hi, hvals⟩ := Option.bind_eq_some_iff.mp hvals
    obtain ⟨v, hj, hl⟩ := Option.bind_eq_some_iff.mp hvals
    cases hl
    obtain ⟨target, htarget, hstands₀⟩ := hrep.live i v₀ hi
    obtain ⟨source, hsource, hstands⟩ := hrep.live j v hj
    have hstateI : m.state i = some target := htarget
    have hstateJ : m.state j = some source := hsource
    by_cases heq : target = source
    · -- both are null, or they are the same object
      subst heq
      have hv : v₀ = v := by
        cases target with
        | none => rw [hstands₀.eq_none, hstands.eq_none]
        | some p =>
          obtain rfl := hrep.distinct i j p htarget hsource
          exact Option.some.inj (hi.symm.trans hj)
      subst hv
      rw [set_of_look hi]
      refine ⟨m, ?_, h⟩
      have hsame : ¬ target ≠ target := fun hne => hne rfl
      simp only [Memory.step, hstateI, hstateJ, Option.bind_eq_bind, Option.bind_some, if_neg hsame]
    · have hne : j ≠ i := by
        rintro rfl
        exact heq (Option.some.inj (htarget.symm.trans hsource))
      obtain ⟨m₁, hdelete, hstatuses₁, hrep₁⟩ := hrep.delete htarget
      obtain ⟨s₁, hs₁, hstands₁⟩ := hrep₁.live j v (by rw [Function.update_of_ne hne]; exact hj)
      rw [Function.update_of_ne hne, hsource] at hs₁
      cases hs₁
      obtain ⟨m', s', hcopy, hstatuses', hrep'⟩ := hrep₁.copyOf (Function.update_self ..) hstands₁
      rw [Function.update_idem, Function.update_idem] at hrep'
      refine ⟨_, ?_, h.set m' (lt_of_look hi) (hstatuses'.trans hstatuses₁) hrep'⟩
      simp only [Memory.step, hstateI, hstateJ, Option.bind_eq_bind, Option.bind_some, if_pos heq,
        hdelete, hcopy]
  | destroy i =>
    obtain ⟨v, hv, hl⟩ := Option.bind_eq_some_iff.mp hvals
    cases hl
    obtain ⟨s, hs, -⟩ := hrep.live i v hv
    obtain ⟨m', hdelete, hstatuses, hrep'⟩ := hrep.delete hs
    refine ⟨_, ?_, h.set m' (lt_of_look hv) hstatuses hrep'⟩
    have hstate : m.state i = some s := hs
    simp only [Memory.step, hstate, Option.bind_eq_bind, Option.bind_some, hdelete]

end Steps

/-! ### Runs -/

variable {m : Memory} {vals vals' : List (Option Value)} {ops : List Op}

/-- What a program gets to see of the statuses that it has. -/
def Shows (m : Memory) (vals : List (Option Value)) : Prop :=
  ∀ i v, look vals i = some v → ∃ state, m.array i = some state ∧ code state = some v.number ∧
    toString state = some v.toString

theorem Represents.shows (h : Represents m vals) : Shows m vals := by
  intro i v hv
  obtain ⟨s, hs, hstands⟩ := h.rep.live i v hv
  have hstate : m.state i = some s := hs
  cases v with
  | none =>
    obtain rfl : s = none := hstands
    refine ⟨none, ?_, rfl, rfl⟩
    rw [Memory.array, hstate]
    rfl
  | some a =>
    obtain ⟨p, rfl, harray, hshort⟩ := hstands
    have hderef : m.deref p = some (pack a.1 a.2) := harray
    refine ⟨some (pack a.1 a.2), ?_, code_pack a.1 a.2, toString_pack hshort⟩
    rw [Memory.array, hstate]
    simp only [Option.bind_eq_bind, Option.bind_some, hderef]

theorem represents_empty : Represents .empty [] where
  length_eq := rfl
  rep := ⟨fun _ _ => rfl, by rintro _ _ ⟨⟩, by rintro _ _ _ ⟨⟩⟩

/-- **Statuses behave as values**: whatever is done with values can be done with the objects,
without a bad access and with each array deleted at most once, and they show what the values say. -/
theorem run_represents (h : Represents m vals) (hops : ∀ op ∈ ops, op.Fits)
    (hrun : valueRun vals ops = some vals') :
    ∃ m', m.run ops = some m' ∧ Represents m' vals' := by
  induction ops generalizing m vals with
  | nil =>
    cases hrun
    exact ⟨m, rfl, h⟩
  | cons op ops ih =>
    rw [valueRun, List.foldlM_cons] at hrun
    obtain ⟨vals₁, hstep, hrest⟩ := Option.bind_eq_some_iff.mp hrun
    obtain ⟨m₁, hm₁, h₁⟩ := h.step (hops op List.mem_cons_self) hstep
    obtain ⟨m', hm', h'⟩ := ih h₁ (fun op' hop' => hops op' (List.mem_cons_of_mem op hop')) hrest
    refine ⟨m', ?_, h'⟩
    rw [Memory.run, List.foldlM_cons, hm₁]
    exact hm'

/-- The constructor stays in its array, and whatever is done then, the status and its copies keep
the code and the text. -/
def Faithful (code : Code) (msg msg2 : Bytes) : Prop :=
  ∃ m, Memory.empty.step (.make code msg msg2) = some m ∧
    ∀ ops vals, (∀ op ∈ ops, op.Fits) →
      valueRun [some (some (code, message msg msg2))] ops = some vals →
      ∃ m', m.run ops = some m' ∧ Shows m' vals

/-- **When the constructor stays in its array.** -/
theorem faithful_iff (code : Code) (hlen : msg.length + msg2.length < 2 ^ 32 - 7) :
    Faithful code msg msg2 ↔ 3 ≤ msg.length + if msg2 = [] then 0 else 2 + msg2.length := by
  have hcount : (message msg msg2).length
      = msg.length + if msg2 = [] then 0 else 2 + msg2.length := by
    rw [length_message]
    by_cases h : msg2 = []
    · simp [h]
    · rw [if_neg h, if_pos fun h0 => h (List.length_eq_zero_iff.mp h0)]
  rw [← hcount]
  constructor
  · rintro ⟨m, hm, -⟩
    by_contra hlt
    rw [Memory.step, construct_eq_none (Nat.not_le.mp hlt)] at hm
    cases hm
  · intro h
    have hfits : (Op.make code msg msg2).Fits := ⟨hlen, h⟩
    obtain ⟨m, hm, hrep⟩ := represents_empty.step hfits rfl
    refine ⟨m, hm, fun ops vals hops hrun => ?_⟩
    obtain ⟨m', hm', hrep'⟩ := run_represents hrep hops hrun
    exact ⟨m', hm', hrep'.shows⟩

/-- A message of three bytes. -/
theorem faithful_three : Faithful .kCorruption [98, 97, 100] [] :=
  (faithful_iff .kCorruption (by decide)).mpr (by decide)

/-- **The empty message** of `MemTable::Get`: eight bytes are written to an array of five. -/
theorem not_faithful_nil : ¬ Faithful .kNotFound [] [] := by
  rintro ⟨m, hm, -⟩
  rw [Memory.step, construct_eq_none (by decide)] at hm
  cases hm

end StatusLayout

end Squirrel
