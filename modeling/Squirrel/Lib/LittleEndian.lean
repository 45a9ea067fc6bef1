import Mathlib.Data.Nat.Bitwise
import Mathlib.Tactic.Ring

/-!
# Numbers written with their low digit first

Two positional codes over bytes, both with the least significant digit first. `leBytes n v` is the
fixed-width one: exactly `n` base-`256` digits, high digits dropped. `base128 v` is the
self-delimiting one: base-`128` digits, with the top bit of a byte saying that another byte follows.

Decoding is stated through values rather than through bit patterns. The bridge to code that
assembles a number with shifts and `|||` is `or_shiftLeft`: below the shift the accumulator has no
bits to collide with, so the disjunction is a sum.

## Main results

* `leValue_leBytes` — the fixed-width code keeps a number modulo `256 ^ n`
* `length_base128_le`, `base128_ne_nil` — the self-delimiting code is short and never empty
-/

namespace Squirrel

/-- A byte string. Slices, strings and raw buffers of the source are all byte strings here. -/
abbrev Bytes : Type := List UInt8

namespace LittleEndian

/-! ### Assembling a number from disjoint parts -/

/-- A part shifted past the accumulator's bits is simply added. -/
theorem or_shiftLeft {acc s : ℕ} (x : ℕ) (h : acc < 2 ^ s) :
    acc ||| (x <<< s) = acc + x * 2 ^ s := by
  rw [Nat.shiftLeft_eq, Nat.or_comm, Nat.mul_comm, ← Nat.two_pow_add_eq_or_of_lt h]
  ring

/-- Adding a part below `2 ^ k` at position `s` keeps the accumulator below `2 ^ (s + k)`. -/
theorem add_mul_two_pow_lt {acc s x k : ℕ} (h : acc < 2 ^ s) (hx : x < 2 ^ k) :
    acc + x * 2 ^ s < 2 ^ (s + k) := by
  calc acc + x * 2 ^ s < 2 ^ s + x * 2 ^ s := by omega
    _ = (x + 1) * 2 ^ s := by ring
    _ ≤ 2 ^ k * 2 ^ s := Nat.mul_le_mul_right _ hx
    _ = 2 ^ (s + k) := by ring

/-! ### Fixed width -/

/-- The low `n` base-`256` digits of `v`. -/
def leBytes : ℕ → ℕ → Bytes
  | 0, _ => []
  | n + 1, v => UInt8.ofNat v :: leBytes n (v / 256)

/-- The number a byte string denotes, low byte first. -/
def leValue : Bytes → ℕ
  | [] => 0
  | b :: bs => b.toNat + 256 * leValue bs

@[simp] theorem length_leBytes (n v : ℕ) : (leBytes n v).length = n := by
  induction n generalizing v with
  | zero => rfl
  | succ n ih => simp [leBytes, ih]

theorem leValue_leBytes (n v : ℕ) : leValue (leBytes n v) = v % 256 ^ n := by
  induction n generalizing v with
  | zero => simp [leBytes, leValue, Nat.mod_one]
  | succ n ih =>
    have h : (UInt8.ofNat v).toNat = v % 256 := UInt8.toNat_ofNat'
    rw [leBytes, leValue, ih, h, pow_succ', Nat.mod_mul]

theorem leValue_lt (bs : Bytes) : leValue bs < 256 ^ bs.length := by
  induction bs with
  | nil => simp [leValue]
  | cons b bs ih =>
    have hb : b.toNat < 256 := b.toNat_lt
    rw [leValue, List.length_cons, pow_succ']
    omega

/-- Reading back and writing again is the identity on strings of the right length. -/
theorem leBytes_leValue (bs : Bytes) : leBytes bs.length (leValue bs) = bs := by
  induction bs with
  | nil => rfl
  | cons b bs ih =>
    have hb : b.toNat < 256 := b.toNat_lt
    have hlow : UInt8.ofNat (b.toNat + 256 * leValue bs) = b := by
      apply UInt8.toNat_inj.mp
      rw [UInt8.toNat_ofNat']
      omega
    have hhigh : (b.toNat + 256 * leValue bs) / 256 = leValue bs := by omega
    rw [List.length_cons, leBytes, leValue, hlow, hhigh, ih]

/-! ### Self-delimiting -/

/-- Base-`128` digits, low digit first; the top bit of a byte announces another byte. -/
def base128 (v : ℕ) : Bytes :=
  if v < 128 then [UInt8.ofNat v] else UInt8.ofNat (v % 128 + 128) :: base128 (v / 128)

theorem base128_of_lt {v : ℕ} (h : v < 128) : base128 v = [UInt8.ofNat v] := by
  rw [base128, if_pos h]

theorem base128_of_ge {v : ℕ} (h : 128 ≤ v) :
    base128 v = UInt8.ofNat (v % 128 + 128) :: base128 (v / 128) := by
  rw [base128, if_neg (Nat.not_lt.mpr h)]

theorem base128_ne_nil (v : ℕ) : base128 v ≠ [] := by
  rw [base128]
  split <;> simp

theorem length_base128_pos (v : ℕ) : 0 < (base128 v).length :=
  List.length_pos_iff.mpr (base128_ne_nil v)

theorem length_base128_le {v n : ℕ} (h : v < 128 ^ (n + 1)) : (base128 v).length ≤ n + 1 := by
  induction n generalizing v with
  | zero => rw [base128_of_lt (by simpa using h)]; simp
  | succ n ih =>
    rcases Nat.lt_or_ge v 128 with hv | hv
    · rw [base128_of_lt hv]; simp
    · have hdiv : v / 128 < 128 ^ (n + 1) := Nat.div_lt_of_lt_mul (by rwa [← pow_succ'])
      rw [base128_of_ge hv, List.length_cons]
      exact Nat.succ_le_succ (ih hdiv)

end LittleEndian

end Squirrel
