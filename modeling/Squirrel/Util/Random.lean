import Squirrel.Lib.Lehmer
import Mathlib.NumberTheory.LucasPrimality
import Mathlib.Tactic.ReduceModChar
import Mathlib.Tactic.Simproc.Factors

/-!
# The random number generator

`Random` is the multiplicative congruential generator with multiplier `16807` and modulus
`2 ^ 31 - 1`, whose remainder is computed by folding. The multiplier is a primitive root of the
modulus, so all states but zero and the modulus itself lie on one cycle.

The constructor only clears the top bit of the seed. It leaves two seeds of each half, zero and
`2 ^ 31 - 1`, from which `Next` goes nowhere.

## Main results

* `next_spec` — one call, from a good state
* `exists_after_eq` — every number in `[1, 2 ^ 31 - 2]` is drawn, from every good state
* `good_new_iff` — the seeds that give a good state
* `degenerate_uniform_iff`, `degenerate_oneIn_iff` — when the results become constant
-/

namespace Squirrel

/-- `Random`, which has only the member `seed_`. -/
structure Random where
  seed : UInt32
  deriving DecidableEq

namespace Random

def M : UInt32 := 2147483647

def A : UInt64 := 16807

/-- The constructor. -/
def new (s : UInt32) : Random := ⟨s &&& 0x7fffffff⟩

/-- The 64-bit `product` of `Next`. -/
def product (r : Random) : UInt64 := r.seed.toUInt64 * A

/-- The 64-bit sum of its high and low part, before the cast. -/
def folded (r : Random) : UInt64 := (r.product >>> 31) + (r.product &&& M.toUInt64)

/-- `Next`: the result, and the state that is left. -/
def next (r : Random) : UInt32 × Random :=
  let seed := r.folded.toUInt32
  let seed := if M < seed then seed - M else seed
  (seed, ⟨seed⟩)

/-- `Uniform`; `n` is a positive `int`. -/
def uniform (n : UInt32) (r : Random) : UInt32 × Random := (r.next.1 % n, r.next.2)

/-- `OneIn`; `n` is a positive `int`. -/
def oneIn (n : UInt32) (r : Random) : Bool × Random := (r.next.1 % n == 0, r.next.2)

/-- The state after `n` calls of `Next`. -/
def after (r : Random) : ℕ → Random
  | 0 => r
  | n + 1 => (r.after n).next.2

/-! ### The multiplier is a primitive root -/

theorem mem_factors {q : ℕ} (hq : q.Prime) (h : q ∣ 2147483646) :
    q = 2 ∨ q = 3 ∨ q = 7 ∨ q = 11 ∨ q = 31 ∨ q = 151 ∨ q = 331 := by
  have hmem : q ∈ Nat.primeFactorsList 2147483646 :=
    (Nat.mem_primeFactorsList (by norm_num)).mpr ⟨hq, h⟩
  simp only [Nat.primeFactorsList_ofNat, List.mem_cons, List.not_mem_nil, or_false] at hmem
  tauto

theorem pow_period : (16807 : ZMod 2147483647) ^ (2147483647 - 1) = 1 := by
  norm_num only
  reduce_mod_char

theorem pow_ne_one {q : ℕ} (hq : q.Prime) (h : q ∣ 2147483647 - 1) :
    (16807 : ZMod 2147483647) ^ ((2147483647 - 1) / q) ≠ 1 := by
  rcases mem_factors hq h with rfl | rfl | rfl | rfl | rfl | rfl | rfl <;>
    (norm_num only; reduce_mod_char; decide)

theorem prime_modulus : Nat.Prime 2147483647 :=
  lucas_primality _ 16807 pow_period fun _ hq h => pow_ne_one hq h

theorem orderOf_multiplier : orderOf ((16807 : ℕ) : ZMod 2147483647) = 2147483647 - 1 :=
  orderOf_eq_of_pow_and_pow_div_prime (by norm_num) pow_period fun _ hq h => pow_ne_one hq h

/-! ### One call -/

/-- A state on the cycle. -/
def Good (r : Random) : Prop := 0 < r.seed.toNat ∧ r.seed.toNat < 2147483647

instance (r : Random) : Decidable r.Good := inferInstanceAs (Decidable (_ ∧ _))

/-- A product of a 31-bit state does not overflow. -/
theorem toNat_product {r : Random} (h : r.seed.toNat < 2 ^ 31) :
    r.product.toNat = r.seed.toNat * 16807 := by
  rw [product, UInt64.toNat_mul, UInt32.toNat_toUInt64, show A.toNat = 16807 from rfl]
  exact Nat.mod_eq_of_lt (by omega)

/-- Nor does the sum of its parts, which has 32 bits. -/
theorem toNat_folded {r : Random} (h : r.seed.toNat < 2 ^ 31) :
    r.folded.toNat = Lehmer.fold 31 (r.seed.toNat * 16807) ∧ r.folded.toNat < 2 ^ 32 := by
  have hhigh : (r.product >>> 31).toNat = r.seed.toNat * 16807 / 2 ^ 31 := by
    rw [UInt64.toNat_shiftRight, toNat_product h, show (31 : UInt64).toNat % 64 = 31 from rfl,
      Nat.shiftRight_eq_div_pow]
  have hlow : (r.product &&& M.toUInt64).toNat = r.seed.toNat * 16807 % 2 ^ 31 := by
    rw [UInt64.toNat_and, toNat_product h, show M.toUInt64.toNat = 2 ^ 31 - 1 from rfl,
      Nat.and_two_pow_sub_one_eq_mod]
  have hsum : r.folded.toNat = Lehmer.fold 31 (r.seed.toNat * 16807) := by
    rw [folded, UInt64.toNat_add, hhigh, hlow, Lehmer.fold]
    exact Nat.mod_eq_of_lt (by omega)
  refine ⟨hsum, ?_⟩
  rw [hsum, Lehmer.fold]
  omega

/-- The result of `Next`, as a number. -/
theorem toNat_next {r : Random} (h : r.seed.toNat < 2 ^ 31) :
    r.next.1.toNat = if 2147483647 < Lehmer.fold 31 (r.seed.toNat * 16807)
      then Lehmer.fold 31 (r.seed.toNat * 16807) - 2147483647
      else Lehmer.fold 31 (r.seed.toNat * 16807) := by
  obtain ⟨hfolded, hlt⟩ := toNat_folded h
  have hcast : r.folded.toUInt32.toNat = Lehmer.fold 31 (r.seed.toNat * 16807) := by
    rw [UInt64.toNat_toUInt32, Nat.mod_eq_of_lt hlt, hfolded]
  have hM : M.toNat = 2147483647 := rfl
  simp only [next, UInt32.lt_iff_toNat_lt, hcast, hM]
  split
  · next hgt =>
    rw [UInt32.toNat_sub_of_le _ _ (UInt32.le_iff_toNat_le.mpr (by omega)), hcast, hM]
  · exact hcast

/-- **One call, from a good state**: the product modulo `2 ^ 31 - 1`, which is a good state
again. -/
theorem next_spec {r : Random} (h : r.Good) :
    r.next.1.toNat = r.seed.toNat * 16807 % 2147483647 ∧ r.next.2.Good := by
  obtain ⟨hpos, hlt⟩ := h
  have hne : r.seed.toNat * 16807 % 2147483647 ≠ 0 := by
    intro hzero
    rcases prime_modulus.dvd_mul.mp (Nat.dvd_of_mod_eq_zero hzero) with hdvd | hdvd
    · exact Nat.not_le_of_lt hlt (Nat.le_of_dvd hpos hdvd)
    · exact absurd (Nat.le_of_dvd (by norm_num) hdvd) (by norm_num)
  have heq : r.next.1.toNat = r.seed.toNat * 16807 % 2147483647 := by
    rw [toNat_next (by omega)]
    exact Lehmer.fold_eq_mod (by norm_num) (by omega) hne
  have hmod : r.seed.toNat * 16807 % 2147483647 < 2147483647 := Nat.mod_lt _ (by norm_num)
  refine ⟨heq, ?_, ?_⟩
  · show 0 < r.next.1.toNat
    omega
  · show r.next.1.toNat < 2147483647
    omega

/-! ### The cycle -/

theorem after_add (r : Random) (m n : ℕ) : r.after (m + n) = (r.after m).after n := by
  induction n with
  | zero => rfl
  | succ n ih => rw [← Nat.add_assoc, after, after, ih]

theorem Good.after {r : Random} (h : r.Good) (n : ℕ) : (r.after n).Good := by
  induction n with
  | zero => exact h
  | succ n ih => exact (next_spec ih).2

/-- `n` calls multiply the state by the multiplier's power. -/
theorem toNat_after {r : Random} (h : r.Good) (n : ℕ) :
    (r.after n).seed.toNat = 16807 ^ n * r.seed.toNat % 2147483647 := by
  induction n with
  | zero =>
    rw [pow_zero, one_mul, Nat.mod_eq_of_lt h.2]
    rfl
  | succ n ih =>
    have hnext := (next_spec (h.after n)).1
    show (r.after n).next.1.toNat = _
    rw [hnext, ih, Nat.mod_mul_mod, pow_succ]
    congr 1
    ring

/-- **Every number in the range is drawn**, from every good state. -/
theorem exists_after_eq {r : Random} (h : r.Good) {y : UInt32} (hpos : 0 < y.toNat)
    (hlt : y.toNat < 2147483647) : ∃ k, 0 < k ∧ (r.after k).seed = y := by
  obtain ⟨k, hk, heq⟩ := Lehmer.exists_pow_mul_mod_eq prime_modulus orderOf_multiplier h.1 h.2
    hpos hlt
  refine ⟨k, hk, ?_⟩
  apply UInt32.toNat_inj.mp
  rw [toNat_after h, heq]

/-! ### Seeds -/

/-- **The good seeds**: the low 31 bits are neither zero nor the modulus. -/
theorem good_new_iff (s : UInt32) :
    (new s).Good ↔ s &&& 0x7fffffff ≠ 0 ∧ s &&& 0x7fffffff ≠ 0x7fffffff := by
  have hmask : (s &&& 0x7fffffff).toNat < 2 ^ 31 := by
    rw [UInt32.toNat_and, show (0x7fffffff : UInt32).toNat = 2 ^ 31 - 1 from rfl,
      Nat.and_two_pow_sub_one_eq_mod]
    exact Nat.mod_lt _ (by norm_num)
  have hval : (0x7fffffff : UInt32).toNat = 2147483647 := rfl
  simp only [Good, new, ne_eq, ← UInt32.toNat_inj, UInt32.toNat_zero, hval]
  omega

/-! ### Streams of results -/

section

variable {β : Type*}

/-- The state in front of the `k`-th call of `f`. -/
def stateAt (f : Random → β × Random) (r : Random) : ℕ → Random
  | 0 => r
  | k + 1 => (f (stateAt f r k)).2

/-- The results of one call of `f` after another. -/
def stream (f : Random → β × Random) (r : Random) (k : ℕ) : β := (f (stateAt f r k)).1

/-- From some place on, the results are all the same. -/
def Degenerate (results : ℕ → β) : Prop := ∃ N c, ∀ k, N ≤ k → results k = c

theorem stateAt_add (f : Random → β × Random) (r : Random) (m n : ℕ) :
    stateAt f r (m + n) = stateAt f (stateAt f r m) n := by
  induction n with
  | zero => rfl
  | succ n ih => rw [← Nat.add_assoc, stateAt, stateAt, ih]

/-- A function of one number of the generator. -/
def draw (g : UInt32 → β) (r : Random) : β × Random := (g r.next.1, r.next.2)

theorem stateAt_draw (g : UInt32 → β) (r : Random) (k : ℕ) : stateAt (draw g) r k = r.after k := by
  induction k with
  | zero => rfl
  | succ k ih =>
    rw [stateAt, ih]
    rfl

/-- Whatever number is asked for, it is drawn as late as one likes. -/
theorem exists_stream_eq {r : Random} (h : r.Good) (g : UInt32 → β) (N : ℕ) {y : UInt32}
    (hpos : 0 < y.toNat) (hlt : y.toNat < 2147483647) : ∃ k, N ≤ k ∧ stream (draw g) r k = g y := by
  obtain ⟨k, hk, hseed⟩ := exists_after_eq (h.after N) hpos hlt
  obtain ⟨k, rfl⟩ : ∃ j, k = j + 1 := ⟨k - 1, by omega⟩
  refine ⟨N + k, Nat.le_add_right N k, ?_⟩
  rw [stream, stateAt_draw, after_add]
  exact congrArg g hseed

/-- The results do not become constant if two numbers of the range give different ones. -/
theorem not_degenerate_draw {r : Random} (h : r.Good) {g : UInt32 → β} {y z : UInt32}
    (hy : 0 < y.toNat ∧ y.toNat < 2147483647) (hz : 0 < z.toNat ∧ z.toNat < 2147483647)
    (hne : g y ≠ g z) : ¬ Degenerate (stream (draw g) r) := by
  rintro ⟨N, c, hconst⟩
  obtain ⟨k, hk, hgy⟩ := exists_stream_eq h g N hy.1 hy.2
  obtain ⟨l, hl, hgz⟩ := exists_stream_eq h g N hz.1 hz.2
  exact hne (by rw [← hgy, ← hgz, hconst k hk, hconst l hl])

/-- They are constant if all numbers of the range give the same one. -/
theorem degenerate_draw {r : Random} (h : r.Good) {g : UInt32 → β} {c : β}
    (hg : ∀ y : UInt32, 0 < y.toNat → y.toNat < 2147483647 → g y = c) :
    Degenerate (stream (draw g) r) := by
  refine ⟨0, c, fun k _ => ?_⟩
  have hgood := (next_spec (h.after k)).2
  rw [stream, stateAt_draw]
  exact hg _ hgood.1 hgood.2

end

/-- **`Uniform(n)` becomes constant only for `n = 1`.** -/
theorem degenerate_uniform_iff {r : Random} (h : r.Good) {n : UInt32} (hn : 0 < n.toNat) :
    Degenerate (stream (uniform n) r) ↔ n = 1 := by
  constructor
  · intro hdeg
    by_contra hne
    have hne' : n.toNat ≠ 1 := fun heq => hne (UInt32.toNat_inj.mp heq)
    refine not_degenerate_draw h (g := fun x => x % n) (y := 1) (z := 2) (by decide) (by decide) ?_
      hdeg
    intro heq
    have heq := congrArg UInt32.toNat heq
    rw [UInt32.toNat_mod, UInt32.toNat_mod, show (1 : UInt32).toNat = 1 from rfl,
      show (2 : UInt32).toNat = 2 from rfl, Nat.mod_eq_of_lt (by omega)] at heq
    rcases Nat.lt_or_ge 2 n.toNat with hlt | hge
    · rw [Nat.mod_eq_of_lt hlt] at heq
      omega
    · rw [show n.toNat = 2 by omega] at heq
      omega
  · rintro rfl
    refine degenerate_draw h (g := fun x => x % 1) (c := 0) fun y _ _ => ?_
    exact UInt32.toNat_inj.mp (by simp)

/-- **`OneIn(n)` becomes constant only for `n = 1` and for the modulus**, of which no number of the
range is a multiple. -/
theorem degenerate_oneIn_iff {r : Random} (h : r.Good) {n : UInt32} (hn : 0 < n.toNat)
    (hle : n.toNat ≤ 2147483647) :
    Degenerate (stream (oneIn n) r) ↔ n = 1 ∨ n = M := by
  have hzero : ∀ y : UInt32, (y % n == 0) = true ↔ n.toNat ∣ y.toNat := by
    intro y
    rw [beq_iff_eq, ← UInt32.toNat_inj, UInt32.toNat_mod, UInt32.toNat_zero,
      Nat.dvd_iff_mod_eq_zero]
  constructor
  · intro hdeg
    by_contra hne
    have hone : n.toNat ≠ 1 := fun heq => hne (.inl (UInt32.toNat_inj.mp heq))
    have hmod : n.toNat ≠ 2147483647 := fun heq => hne (.inr (UInt32.toNat_inj.mp heq))
    refine not_degenerate_draw h (g := fun x => x % n == 0) (y := 1) (z := n) (by decide) (by omega)
      ?_ hdeg
    intro heq
    have hself : ((1 : UInt32) % n == 0) = true := heq.trans ((hzero n).mpr dvd_rfl)
    exact hone (Nat.dvd_one.mp ((hzero 1).mp hself))
  · rintro (rfl | rfl)
    · refine degenerate_draw h (g := fun x => x % 1 == 0) (c := true) fun y _ _ => ?_
      exact (hzero y).mpr (one_dvd _)
    · refine degenerate_draw h (g := fun x => x % M == 0) (c := false) fun y hpos hlt => ?_
      rw [Bool.eq_false_iff, ne_eq, hzero]
      exact fun hdvd => Nat.not_le_of_lt hlt (Nat.le_of_dvd hpos hdvd)

end Random

end Squirrel
