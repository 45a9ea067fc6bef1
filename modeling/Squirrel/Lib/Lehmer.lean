import Mathlib.FieldTheory.Finite.Basic

/-!
# Multiplicative congruential generators

A generator multiplies its state by `a` modulo a prime `p`. If `a` is a primitive root, the states
other than zero form a single cycle: from any of them, every other one is reached, and the same one
again.

Where the modulus is `2 ^ s - 1`, the remainder needs no division. Its high part and its low part
are added, and one subtraction is enough, except for multiples of the modulus, for which the sum may
be the modulus itself.

## Main results

* `exists_pow_mul_mod_eq` — every state other than zero is reached from every other
* `fold_eq_mod` — the remainder modulo `2 ^ s - 1`
-/

namespace Squirrel

namespace Lehmer

/-! ### The cycle -/

variable {p a : ℕ}

/-- Every element other than zero is a power of a primitive root. -/
theorem exists_pow_eq [Fact p.Prime] {g : ZMod p} (hg : orderOf g = p - 1) {z : ZMod p}
    (hz : z ≠ 0) :
    ∃ k, g ^ k = z := by
  have hone := (Fact.out : p.Prime).two_le
  have hg₀ : g ≠ 0 := by
    rintro rfl
    rw [orderOf_zero] at hg
    omega
  have hunit : orderOf (Units.mk0 g hg₀) = p - 1 := by
    rw [← orderOf_units, Units.val_mk0, hg]
  have htop : Subgroup.zpowers (Units.mk0 g hg₀) = ⊤ := by
    apply Subgroup.eq_top_of_card_eq
    rw [Nat.card_zpowers, hunit, Nat.card_eq_fintype_card, ZMod.card_units]
  have hmem : Units.mk0 z hz ∈ Subgroup.zpowers (Units.mk0 g hg₀) := htop ▸ Subgroup.mem_top _
  obtain ⟨k, hk⟩ := mem_powers_iff_mem_zpowers.mpr hmem
  exact ⟨k, by simpa using congrArg Units.val hk⟩

/-- **All states other than zero are on one cycle.** -/
theorem exists_pow_mul_mod_eq (hp : p.Prime) (ha : orderOf (a : ZMod p) = p - 1) {x y : ℕ}
    (hx : 0 < x) (hxp : x < p) (hy : 0 < y) (hyp : y < p) : ∃ k, 0 < k ∧ a ^ k * x % p = y := by
  have hfact : Fact p.Prime := ⟨hp⟩
  have hne : ∀ n, 0 < n → n < p → (n : ZMod p) ≠ 0 := by
    intro n hn hnp hzero
    exact Nat.not_le_of_lt hnp (Nat.le_of_dvd hn ((ZMod.natCast_eq_zero_iff n p).mp hzero))
  have hquot : (y : ZMod p) / x ≠ 0 := div_ne_zero (hne y hy hyp) (hne x hx hxp)
  obtain ⟨k, hk⟩ := exists_pow_eq ha hquot
  -- one more round, so that there is at least one step
  refine ⟨k + (p - 1), by have := hp.two_le; omega, ?_⟩
  have hround : (a : ZMod p) ^ (p - 1) = 1 := by rw [← ha, pow_orderOf_eq_one]
  have hcast : ((a ^ (k + (p - 1)) * x : ℕ) : ZMod p) = (y : ℕ) := by
    rw [Nat.cast_mul, Nat.cast_pow, pow_add, hround, mul_one, hk,
      div_mul_cancel₀ _ (hne x hx hxp)]
  rw [ZMod.natCast_eq_natCast_iff'] at hcast
  rw [hcast, Nat.mod_eq_of_lt hyp]

/-! ### Remainders modulo `2 ^ s - 1` -/

/-- The low `s` bits, and the bits above them, added. -/
def fold (s x : ℕ) : ℕ := x / 2 ^ s + x % 2 ^ s

/-- **Folded once and with at most one subtraction**, a number that is no multiple of `2 ^ s - 1` is
its remainder. -/
theorem fold_eq_mod {s m x : ℕ} (hm : 2 ^ s = m + 1) (hhigh : x / 2 ^ s < m) (hne : x % m ≠ 0) :
    (if m < fold s x then fold s x - m else fold s x) = x % m := by
  have hlow : x % 2 ^ s < 2 ^ s := Nat.mod_lt _ (Nat.two_pow_pos s)
  have hsplit : x = m * (x / 2 ^ s) + fold s x := by
    have hdiv := Nat.div_add_mod x (2 ^ s)
    calc x = 2 ^ s * (x / 2 ^ s) + x % 2 ^ s := hdiv.symm
      _ = (m + 1) * (x / 2 ^ s) + x % 2 ^ s := by rw [hm]
      _ = m * (x / 2 ^ s) + fold s x := by rw [fold]; ring
  have hmod : x % m = fold s x % m := by
    conv_lhs => rw [hsplit]
    rw [Nat.mul_add_mod]
  have hle : fold s x < 2 * m := by
    rw [fold]
    omega
  rw [hmod] at hne ⊢
  by_cases hlt : m < fold s x
  · rw [if_pos hlt, Nat.mod_eq_sub_mod (Nat.le_of_lt hlt), Nat.mod_eq_of_lt (by omega)]
  · have hne' : fold s x ≠ m := by
      intro heq
      rw [heq, Nat.mod_self] at hne
      exact hne rfl
    rw [if_neg hlt, Nat.mod_eq_of_lt (by omega)]

end Lehmer

end Squirrel
