import Mathlib.Data.Nat.Digits.Lemmas
import Squirrel.Lib.LittleEndian

/-!
# Decimal numbers in byte strings

Digits are the bytes `'0'` to `'9'`, and a string of them stands for a number, most significant
digit first. Leading zeros do not change the number, so a number has one shortest string and one for
every width.

## Main results

* `value_padded` — a number can be read back, whatever it was padded to
* `takeWhile_append`, `dropWhile_append` — where a run of digits ends
-/

namespace Squirrel

/-- The bytes of an ASCII string. -/
def ascii (s : String) : Bytes := s.toList.map fun c => UInt8.ofNat c.toNat

namespace Decimal

def isDigit (c : UInt8) : Bool := 48 ≤ c.toNat ∧ c.toNat ≤ 57

theorem isDigit_iff {c : UInt8} : isDigit c = true ↔ 48 ≤ c.toNat ∧ c.toNat ≤ 57 :=
  decide_eq_true_iff

/-- One more digit behind a number. -/
def push (v : ℕ) (c : UInt8) : ℕ := v * 10 + (c.toNat - 48)

/-- The number that digits stand for. -/
def value (ds : Bytes) : ℕ := ds.foldl push 0

/-- The digits of a number; none for zero. -/
def digits (n : ℕ) : Bytes := (Nat.digits 10 n).reverse.map fun d => UInt8.ofNat (48 + d)

/-- A number with zeros in front, at least `w` digits in all. -/
def padded (w n : ℕ) : Bytes := (digits n).leftpad w 48

/-! ### Reading back -/

theorem toNat_digit {d : ℕ} (h : d < 10) : (UInt8.ofNat (48 + d)).toNat = 48 + d := by
  rw [UInt8.toNat_ofNat']
  omega

theorem le_foldl_push (ds : Bytes) (v : ℕ) : v ≤ ds.foldl push v := by
  induction ds generalizing v with
  | nil => exact le_rfl
  | cons c ds ih =>
    refine le_trans ?_ (ih (push v c))
    rw [push]
    omega

theorem value_digits (n : ℕ) : value (digits n) = n := by
  have hdigits : ∀ l : List ℕ, (∀ d ∈ l, d < 10) →
      l.foldr (fun d v => push v (UInt8.ofNat (48 + d))) 0 = Nat.ofDigits 10 l := by
    intro l hl
    induction l with
    | nil => rfl
    | cons d l ih =>
      rw [List.foldr_cons, ih fun e he => hl e (List.mem_cons_of_mem d he), push,
        toNat_digit (hl d List.mem_cons_self), Nat.ofDigits_cons]
      omega
  rw [value, digits, List.foldl_map, List.foldl_reverse,
    hdigits _ fun d hd => Nat.digits_lt_base (by decide) hd, Nat.ofDigits_digits]

theorem value_replicate_append (k : ℕ) (ds : Bytes) :
    value (List.replicate k 48 ++ ds) = value ds := by
  induction k with
  | zero => rfl
  | succ k ih =>
    rw [List.replicate_succ, List.cons_append, value, List.foldl_cons]
    exact ih

/-- Padding does not change the number. -/
theorem value_padded (w n : ℕ) : value (padded w n) = n := by
  rw [padded, List.leftpad, value_replicate_append, value_digits]

theorem isDigit_of_mem_padded {w n : ℕ} {c : UInt8} (h : c ∈ padded w n) : isDigit c = true := by
  rw [padded, List.leftpad] at h
  rcases List.mem_append.mp h with h | h
  · rw [List.eq_of_mem_replicate h]
    rfl
  · obtain ⟨d, hd, rfl⟩ := List.mem_map.mp h
    have hlt : d < 10 := Nat.digits_lt_base (by decide) (List.mem_reverse.mp hd)
    rw [isDigit_iff, toNat_digit hlt]
    omega

theorem length_padded (w n : ℕ) : (padded w n).length = max w (Nat.digits 10 n).length := by
  rw [padded, List.length_leftpad, digits, List.length_map, List.length_reverse]

theorem length_digits_le {n k : ℕ} (h : n < 10 ^ k) : (Nat.digits 10 n).length ≤ k :=
  (Nat.digits_length_le_iff (by decide) n).mpr h

/-! ### Runs of digits -/

/-- What follows a run of digits. -/
def EndsRun (rest : Bytes) : Prop := ∀ c, rest.head? = some c → isDigit c = false

theorem takeWhile_append {ds rest : Bytes} (hds : ∀ c ∈ ds, isDigit c = true)
    (hrest : EndsRun rest) : (ds ++ rest).takeWhile isDigit = ds := by
  induction ds with
  | nil =>
    cases rest with
    | nil => rfl
    | cons c rest =>
      exact List.takeWhile_cons_of_neg (by rw [hrest c rfl]; exact Bool.false_ne_true)
  | cons c ds ih =>
    rw [List.cons_append, List.takeWhile_cons_of_pos (hds c List.mem_cons_self),
      ih fun e he => hds e (List.mem_cons_of_mem c he)]

theorem dropWhile_append {ds rest : Bytes} (hds : ∀ c ∈ ds, isDigit c = true)
    (hrest : EndsRun rest) : (ds ++ rest).dropWhile isDigit = rest := by
  have hsplit := List.takeWhile_append_dropWhile (p := isDigit) (l := ds ++ rest)
  rw [takeWhile_append hds hrest] at hsplit
  exact List.append_cancel_left hsplit

end Decimal

end Squirrel
