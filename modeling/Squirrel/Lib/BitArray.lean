import Squirrel.Lib.LittleEndian

/-!
# Bit arrays

A byte string read as an array of bits, bit `i` being bit `i % 8` of byte `i / 8`. Bits are set with
a disjunction and tested with a conjunction, as C code does it. The only facts that matter are that
a bit that was set is set, and that setting another one does not clear it.

## Main results

* `test_foldl_set` — after setting a list of bits, each of them tests true
* `modify_append` — a bit array between other bytes
-/

namespace Squirrel

namespace BitArray

/-- `1 << (i % 8)`, as a byte. -/
def mask (i : ℕ) : UInt8 := UInt8.ofNat (1 <<< (i % 8))

/-- `array[i / 8] |= (1 << (i % 8))`. -/
def set (array : Bytes) (i : ℕ) : Bytes := array.modify (i / 8) (· ||| mask i)

/-- `(array[i / 8] & (1 << (i % 8))) != 0`. -/
def test (array : Bytes) (i : ℕ) : Bool := array.getD (i / 8) 0 &&& mask i != 0

theorem toNat_mask (i : ℕ) : (mask i).toNat = 2 ^ (i % 8) := by
  have hlt : 2 ^ (i % 8) < 2 ^ 8 := Nat.pow_lt_pow_right (by decide) (Nat.mod_lt _ (by decide))
  rw [mask, UInt8.toNat_ofNat', Nat.one_shiftLeft, Nat.mod_eq_of_lt hlt]

theorem and_mask_ne_zero_iff (b : UInt8) (i : ℕ) :
    (b &&& mask i != 0) = b.toNat.testBit (i % 8) := by
  rw [Bool.eq_iff_iff, bne_iff_ne, ne_eq, ← UInt8.toNat_inj, UInt8.toNat_and, toNat_mask,
    Nat.and_two_pow]
  cases b.toNat.testBit (i % 8) <;> simp

theorem test_eq (array : Bytes) (i : ℕ) :
    test array i = (array.getD (i / 8) 0).toNat.testBit (i % 8) := and_mask_ne_zero_iff _ i

@[simp] theorem length_set (array : Bytes) (i : ℕ) : (set array i).length = array.length :=
  List.length_modify ..

theorem test_set_self {array : Bytes} {i : ℕ} (h : i < array.length * 8) :
    test (set array i) i = true := by
  have hlt : i / 8 < array.length := by omega
  rw [test_eq, set, List.getD_eq_getElem?_getD, List.getElem?_modify_eq,
    List.getElem?_eq_getElem hlt]
  simp [toNat_mask, Nat.testBit_two_pow_self]

theorem test_set_of_test {array : Bytes} {i j : ℕ} (h : test array j = true) :
    test (set array i) j = true := by
  rw [test_eq] at h ⊢
  rw [set, List.getD_eq_getElem?_getD, List.getElem?_modify]
  rw [List.getD_eq_getElem?_getD] at h
  cases hget : array[j / 8]? with
  | none => rw [hget] at h; exact h
  | some b =>
    rw [hget] at h
    split
    · show (b ||| mask i).toNat.testBit (j % 8) = true
      rw [UInt8.toNat_or, Nat.testBit_or, show b.toNat.testBit (j % 8) = true from h, Bool.true_or]
    · exact h

theorem test_foldl_set_of_test (is : List ℕ) {array : Bytes} {j : ℕ} (h : test array j = true) :
    test (is.foldl set array) j = true := by
  induction is generalizing array with
  | nil => exact h
  | cons i is ih => exact ih (test_set_of_test h)

@[simp] theorem length_foldl_set (is : List ℕ) (array : Bytes) :
    (is.foldl set array).length = array.length := by
  induction is generalizing array with
  | nil => rfl
  | cons i is ih => rw [List.foldl_cons, ih, length_set]

/-- What was set is set. -/
theorem test_foldl_set {is : List ℕ} {array : Bytes} {j : ℕ} (hj : j ∈ is)
    (hlt : j < array.length * 8) : test (is.foldl set array) j = true := by
  induction is generalizing array with
  | nil => cases hj
  | cons i is ih =>
    rcases List.mem_cons.mp hj with rfl | hj
    · exact test_foldl_set_of_test is (test_set_self hlt)
    · exact ih hj (by rw [length_set]; exact hlt)

/-- A bit array between other bytes. -/
theorem modify_append (f : UInt8 → UInt8) (init array rest : Bytes) {j : ℕ}
    (hj : j < array.length) :
    (init ++ (array ++ rest)).modify (init.length + j) f = init ++ (array.modify j f ++ rest) := by
  induction init with
  | nil =>
    rw [List.length_nil, Nat.zero_add, List.nil_append, List.nil_append]
    induction array generalizing j with
    | nil => exact absurd hj (Nat.not_lt_zero j)
    | cons b array ih =>
      cases j with
      | zero => rfl
      | succ j =>
        rw [List.cons_append, List.modify_succ_cons, List.modify_succ_cons, List.cons_append,
          ih (Nat.lt_of_succ_lt_succ hj)]
  | cons b init ih =>
    rw [List.cons_append, List.cons_append, List.length_cons, Nat.succ_add, List.modify_succ_cons,
      ih]

/-- Bytes behind a bit array do not change its bits. -/
theorem test_append {array : Bytes} {i : ℕ} (rest : Bytes) (h : i < array.length * 8) :
    test (array ++ rest) i = test array i := by
  rw [test, test, List.getD_append _ _ _ _ (by omega)]

end BitArray

end Squirrel
