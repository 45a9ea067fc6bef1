import Squirrel.Lib.Carving
import Squirrel.Lib.LittleEndian

/-!
# Bytes in memory

A memory in which each byte has an address. A byte that has not been written yet cannot be read.
Words have eight bytes, the low one first.

Two memories agree on an extent if they have the same bytes there. A write changes nothing on
extents that are apart from it, and what has been read from an extent is read from every memory that
agrees.

## Main results

* `read_write` — what has been written is read
* `agreeOn_write`, `AgreeOn.read`, `AgreeOn.loadWord` — what a write leaves alone
-/

namespace Squirrel

open Carving LittleEndian

/-- What is at each address, if something has been written there. -/
abbrev ByteMemory := ℕ → Option UInt8

namespace ByteMemory

/-- Nothing has been written. -/
def empty : ByteMemory := fun _ => none

/-- `n` bytes from `a` on. -/
def read (m : ByteMemory) (a n : ℕ) : Option Bytes := (List.range' a n).mapM m

/-- Put bytes at `a`. -/
def write (m : ByteMemory) (a : ℕ) (bytes : Bytes) : ByteMemory :=
  fun x => if a ≤ x ∧ x < a + bytes.length then bytes[x - a]? else m x

/-- The bytes from `a` on, at most `n`, up to one that has not been written. -/
def span (m : ByteMemory) : ℕ → ℕ → Bytes
  | _, 0 => []
  | a, n + 1 =>
    match m a with
    | none => []
    | some b => b :: m.span (a + 1) n

/-- The word at `a`. -/
def loadWord (m : ByteMemory) (a : ℕ) : Option ℕ := (m.read a 8).map leValue

def storeWord (m : ByteMemory) (a v : ℕ) : ByteMemory := m.write a (leBytes 8 v)

/-- The memories have the same bytes in the extent. -/
def AgreeOn (e : Extent) (m m' : ByteMemory) : Prop := ∀ x ∈ e.cells, m' x = m x

variable {m m' m'' : ByteMemory} {a n : ℕ} {bytes : Bytes} {e o : Extent}

/-! ### Reading -/

theorem read_zero (m : ByteMemory) (a : ℕ) : m.read a 0 = some [] := rfl

theorem read_succ (m : ByteMemory) (a n : ℕ) :
    m.read a (n + 1) = (m a).bind fun b => (m.read (a + 1) n).map (b :: ·) := by
  rw [read, List.range'_succ, List.mapM_cons]
  cases m a with
  | none => rfl
  | some b =>
    rw [Option.bind_eq_bind, Option.bind_some, Option.bind_some, Option.map_eq_bind]
    rfl

/-- The bytes one by one. -/
theorem read_eq_some_iff :
    m.read a n = some bytes ↔ bytes.length = n ∧ ∀ i < n, m (a + i) = bytes[i]? := by
  induction n generalizing a bytes with
  | zero =>
    rw [read_zero, Option.some.injEq, List.length_eq_zero_iff]
    exact ⟨fun h => ⟨h.symm, by simp⟩, fun h => h.1.symm⟩
  | succ n ih =>
    rw [read_succ, Option.bind_eq_some_iff]
    constructor
    · rintro ⟨b, hb, h⟩
      obtain ⟨rest, hrest, rfl⟩ := Option.map_eq_some_iff.mp h
      obtain ⟨rfl, hget⟩ := ih.mp hrest
      refine ⟨rfl, fun i hi => ?_⟩
      cases i with
      | zero => exact hb
      | succ i =>
        rw [List.getElem?_cons_succ, ← hget i (by omega), Nat.add_assoc, Nat.add_comm 1 i]
    · rintro ⟨hlen, hget⟩
      cases bytes with
      | nil => cases hlen
      | cons b rest =>
        refine ⟨b, hget 0 (Nat.succ_pos n), Option.map_eq_some_iff.mpr ⟨rest, ih.mpr ⟨?_, ?_⟩, rfl⟩⟩
        · exact Nat.succ.inj hlen
        · intro i hi
          rw [Nat.add_assoc, Nat.add_comm 1 i, hget (i + 1) (by omega), List.getElem?_cons_succ]

/-- The first part of what is read. -/
theorem read_left {x y : Bytes} (h : m.read a (x ++ y).length = some (x ++ y)) :
    m.read a x.length = some x := by
  obtain ⟨-, hget⟩ := read_eq_some_iff.mp h
  refine read_eq_some_iff.mpr ⟨rfl, fun i hi => ?_⟩
  rw [hget i (by rw [List.length_append]; omega), List.getElem?_append_left hi]

/-- What is behind it. -/
theorem read_right {x y : Bytes} (h : m.read a (x ++ y).length = some (x ++ y)) :
    m.read (a + x.length) y.length = some y := by
  obtain ⟨-, hget⟩ := read_eq_some_iff.mp h
  refine read_eq_some_iff.mpr ⟨rfl, fun i hi => ?_⟩
  rw [Nat.add_assoc, hget (x.length + i) (by rw [List.length_append]; omega),
    List.getElem?_append_right (Nat.le_add_right _ _), Nat.add_sub_cancel_left]

/-- A span begins with what can be read. -/
theorem span_of_read (h : m.read a n = some bytes) (k : ℕ) :
    m.span a (n + k) = bytes ++ m.span (a + n) k := by
  induction n generalizing a bytes with
  | zero =>
    rw [read_zero] at h
    cases h
    rw [Nat.zero_add, Nat.add_zero, List.nil_append]
  | succ n ih =>
    rw [read_succ, Option.bind_eq_some_iff] at h
    obtain ⟨b, hb, h⟩ := h
    obtain ⟨rest, hrest, rfl⟩ := Option.map_eq_some_iff.mp h
    rw [Nat.add_right_comm, span, hb]
    dsimp only
    rw [ih hrest, List.cons_append, Nat.add_assoc, Nat.add_comm 1 n]

/-! ### Writing -/

/-- **What has been written is read.** -/
theorem read_write (m : ByteMemory) (a : ℕ) (bytes : Bytes) :
    (m.write a bytes).read a bytes.length = some bytes := by
  refine read_eq_some_iff.mpr ⟨rfl, fun i hi => ?_⟩
  rw [write, if_pos (by omega), Nat.add_sub_cancel_left]

theorem loadWord_storeWord (m : ByteMemory) (a : ℕ) {v : ℕ} (hv : v < 2 ^ 64) :
    (m.storeWord a v).loadWord a = some v := by
  have hread := read_write m a (leBytes 8 v)
  rw [length_leBytes] at hread
  rw [loadWord, storeWord, hread, Option.map_some, leValue_leBytes, Nat.mod_eq_of_lt (by omega)]

/-! ### What is left alone -/

namespace AgreeOn

theorem refl (e : Extent) (m : ByteMemory) : AgreeOn e m m := fun _ _ => rfl

theorem trans (h : AgreeOn e m m') (h' : AgreeOn e m' m'') : AgreeOn e m m'' :=
  fun x hx => (h' x hx).trans (h x hx)

theorem read (h : AgreeOn e m m') (hle : e.start ≤ a) (hstop : a + n ≤ e.stop) :
    m'.read a n = m.read a n := by
  induction n generalizing a with
  | zero => rfl
  | succ n ih =>
    rw [read_succ, read_succ, h a ⟨hle, by omega⟩, ih (by omega) (by omega)]

theorem loadWord (h : AgreeOn e m m') (hle : e.start ≤ a) (hstop : a + 8 ≤ e.stop) :
    m'.loadWord a = m.loadWord a := by
  rw [ByteMemory.loadWord, ByteMemory.loadWord, h.read hle hstop]

end AgreeOn

/-- **A write changes nothing on extents that are apart from it.** -/
theorem agreeOn_write (h : e.Apart ⟨a, bytes.length⟩) (m : ByteMemory) :
    AgreeOn e m (m.write a bytes) := by
  intro x hx
  have hx' := h x hx
  rw [Extent.mem_cells, Extent.stop] at hx'
  rw [write, if_neg hx']

theorem agreeOn_storeWord (h : e.Apart ⟨a, 8⟩) (m : ByteMemory) (v : ℕ) :
    AgreeOn e m (m.storeWord a v) := by
  rw [storeWord]
  exact agreeOn_write (by rwa [length_leBytes]) m

/-! ### What has been written -/

/-- One write behind the other. -/
theorem write_append (m : ByteMemory) (a : ℕ) (x y : Bytes) :
    (m.write a x).write (a + x.length) y = m.write a (x ++ y) := by
  funext z
  simp only [write, List.length_append]
  by_cases hx : a ≤ z ∧ z < a + x.length
  · rw [if_neg (by omega), if_pos hx, if_pos (by omega), List.getElem?_append_left (by omega)]
  · rw [if_neg hx]
    by_cases hy : a + x.length ≤ z ∧ z < a + x.length + y.length
    · rw [if_pos hy, if_pos (by omega), List.getElem?_append_right (by omega), Nat.sub_sub]
    · rw [if_neg hy, if_neg (by omega)]

/-- A write into one of the extents keeps to them. -/
theorem written_write {extents : List Extent} (h : ∀ x, m x ≠ none → ∃ e ∈ extents, x ∈ e.cells)
    (he : e ∈ extents) (hwithin : Extent.Within ⟨a, bytes.length⟩ e) :
    ∀ x, m.write a bytes x ≠ none → ∃ e ∈ extents, x ∈ e.cells := by
  intro x hx
  rw [write] at hx
  split at hx
  case isTrue hin => exact ⟨e, he, hwithin.mem hin⟩
  case isFalse => exact h x hx

theorem written_storeWord {extents : List Extent} (h : ∀ x, m x ≠ none → ∃ e ∈ extents, x ∈ e.cells)
    (he : e ∈ extents) (hwithin : Extent.Within ⟨a, 8⟩ e) (v : ℕ) :
    ∀ x, m.storeWord a v x ≠ none → ∃ e ∈ extents, x ∈ e.cells := by
  rw [storeWord]
  exact written_write h he (by rwa [length_leBytes])

end ByteMemory

end Squirrel
