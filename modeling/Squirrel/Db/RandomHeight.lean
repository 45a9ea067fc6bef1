import Squirrel.Db.SkipList
import Squirrel.Util.Random

/-!
# The heights of a skip list

`RandomHeight` draws numbers until one is no multiple of `kBranching`, at most as many as there are
levels to add. A call therefore ends right behind every number that is no multiple, wherever the
calls began; that is how results about the numbers carry over to the heights.

The last section puts together what is asked of the generator, and for which seeds it holds.

## Main results

* `SkipList.randomHeight_mem` — the assertions at the end of `RandomHeight`
* `SkipList.exists_stateAt_eq` — some call begins behind every number that is no multiple
* `SkipList.not_degenerate_randomHeight` — the heights do not become constant
* `Random.works_iff` — the seeds from which all of this holds
-/

namespace Squirrel

open Squirrel.Random

namespace SkipList

def kBranching : UInt32 := 4

/-- The loop of `RandomHeight`. -/
def randomHeightLoop (rnd : Random) (height : ℕ) : ℕ × Random :=
  if height < kMaxHeight then
    if rnd.next.1 % kBranching = 0 then randomHeightLoop rnd.next.2 (height + 1)
    else (height, rnd.next.2)
  else (height, rnd)
termination_by kMaxHeight - height

/-- `RandomHeight`. -/
def randomHeight (rnd : Random) : ℕ × Random := randomHeightLoop rnd 1

/-- What the loop draws: of its numbers only the last can be no multiple of `kBranching`, and each
of the others has added a level. -/
theorem randomHeightLoop_spec (rnd : Random) {height : ℕ} (h : height ≤ kMaxHeight) :
    ∃ drawn, (randomHeightLoop rnd height).2 = rnd.after drawn ∧
      (height < kMaxHeight → 0 < drawn) ∧
      (∀ i, i + 1 < drawn → (rnd.after i).next.1 % kBranching = 0) ∧
      height ≤ (randomHeightLoop rnd height).1 ∧ (randomHeightLoop rnd height).1 ≤ kMaxHeight := by
  induction hn : kMaxHeight - height generalizing rnd height with
  | zero =>
    rw [randomHeightLoop, if_neg (by omega)]
    exact ⟨0, rfl, fun hlt => absurd hlt (by omega), fun i hi => absurd hi (by omega), le_rfl, h⟩
  | succ n ih =>
    have hlt : height < kMaxHeight := by omega
    rw [randomHeightLoop, if_pos hlt]
    by_cases hzero : rnd.next.1 % kBranching = 0
    · obtain ⟨drawn, hstate, -, hmultiples, hge, hle⟩ :=
        ih rnd.next.2 (show height + 1 ≤ kMaxHeight by omega) (by omega)
      have hshift : ∀ k, rnd.next.2.after k = rnd.after (k + 1) := by
        intro k
        rw [Nat.add_comm, after_add]
        rfl
      rw [if_pos hzero]
      refine ⟨drawn + 1, by rw [hstate, hshift], fun _ => Nat.succ_pos _, fun i hi => ?_, by omega,
        hle⟩
      cases i with
      | zero => exact hzero
      | succ i =>
        rw [← hshift]
        exact hmultiples i (by omega)
    · rw [if_neg hzero]
      exact ⟨1, rfl, fun _ => Nat.one_pos, fun i hi => absurd hi (by omega), le_rfl, h⟩

/-- **The height is one that a node can have.** -/
theorem randomHeight_mem (rnd : Random) :
    1 ≤ (randomHeight rnd).1 ∧ (randomHeight rnd).1 ≤ kMaxHeight := by
  obtain ⟨-, -, -, -, hge, hle⟩ := randomHeightLoop_spec rnd (show 1 ≤ kMaxHeight by decide)
  exact ⟨hge, hle⟩

theorem randomHeight_eq_one_iff (rnd : Random) :
    (randomHeight rnd).1 = 1 ↔ rnd.next.1 % kBranching ≠ 0 := by
  rw [randomHeight, randomHeightLoop, if_pos (by decide)]
  by_cases hzero : rnd.next.1 % kBranching = 0
  · obtain ⟨-, -, -, -, hge, -⟩ :=
      randomHeightLoop_spec rnd.next.2 (show 1 + 1 ≤ kMaxHeight by decide)
    rw [if_pos hzero]
    constructor
    · intro hone
      omega
    · intro hne
      exact absurd hzero hne
  · rw [if_neg hzero]
    simp [hzero]

/-- The states in front of the calls are among the states of the generator. -/
theorem exists_after_eq_stateAt (rnd : Random) (k : ℕ) :
    ∃ drawn, stateAt randomHeight rnd k = rnd.after drawn := by
  induction k with
  | zero => exact ⟨0, rfl⟩
  | succ k ih =>
    obtain ⟨drawn, hdrawn⟩ := ih
    obtain ⟨more, hmore, -⟩ :=
      randomHeightLoop_spec (stateAt randomHeight rnd k) (show 1 ≤ kMaxHeight by decide)
    refine ⟨drawn + more, ?_⟩
    rw [after_add, ← hdrawn]
    exact hmore

/-- **A call begins behind every number that is no multiple.** The call that draws it ends there. -/
theorem exists_stateAt_eq (rnd : Random) {n : ℕ} (hn : 0 < n)
    (hne : (rnd.after n).seed % kBranching ≠ 0) :
    ∃ k, stateAt randomHeight rnd k = rnd.after n := by
  induction n using Nat.strongRecOn generalizing rnd with
  | ind n ih =>
    obtain ⟨drawn, hstate, hpos, hmultiples, -⟩ :=
      randomHeightLoop_spec rnd (show 1 ≤ kMaxHeight by decide)
    have hpos := hpos (by decide)
    have hle : drawn ≤ n := by
      by_contra hlt
      have hzero := hmultiples (n - 1) (by omega)
      obtain ⟨m, rfl⟩ : ∃ m, n = m + 1 := ⟨n - 1, by omega⟩
      exact hne hzero
    have hfirst : stateAt randomHeight rnd 1 = rnd.after drawn := hstate
    rcases Nat.lt_or_eq_of_le hle with hlt | rfl
    · have hrest : (rnd.after drawn).after (n - drawn) = rnd.after n := by
        rw [← after_add, Nat.add_sub_cancel' hle]
      obtain ⟨k, hk⟩ := ih (n - drawn) (by omega) (rnd.after drawn) (by omega) (by rwa [hrest])
      exact ⟨1 + k, by rw [stateAt_add, hfirst, hk, hrest]⟩
    · exact ⟨1, hfirst⟩

/-- **The heights do not become constant.** Behind `1` the next number is `16807`, and behind
`1335740706` it is `4`; neither of the two is a multiple of four. -/
theorem not_degenerate_randomHeight {rnd : Random} (h : rnd.Good) :
    ¬ Degenerate (stream randomHeight rnd) := by
  rintro ⟨N, c, hconst⟩
  have hreach : ∀ seed : UInt32, 0 < seed.toNat → seed.toNat < 2147483647 →
      seed % kBranching ≠ 0 → (randomHeight ⟨seed⟩).1 = c := by
    intro seed hpos hlt hne
    obtain ⟨drawn, hdrawn⟩ := exists_after_eq_stateAt rnd N
    obtain ⟨n, hn, hseed⟩ := exists_after_eq (h.after drawn) hpos hlt
    have hstate : (rnd.after drawn).after n = ⟨seed⟩ := by rw [← hseed]
    obtain ⟨k, hk⟩ := exists_stateAt_eq (rnd.after drawn) hn (by rwa [hseed])
    rw [← hconst (N + k) (Nat.le_add_right N k), stream, stateAt_add, hdrawn, hk, hstate]
  have hlow := hreach 1 (by decide) (by decide) (by decide)
  have hhigh := hreach 1335740706 (by decide) (by decide) (by decide)
  have hone : (randomHeight ⟨1⟩).1 = 1 := (randomHeight_eq_one_iff _).mpr (by decide)
  have hmore : (randomHeight ⟨1335740706⟩).1 ≠ 1 := by
    rw [ne_eq, randomHeight_eq_one_iff]
    decide
  exact hmore (by rw [hhigh, ← hlow, hone])

end SkipList

/-! ### Seeds -/

namespace Random

/-- What is asked of the generator that is made from a seed, after any number of calls. -/
structure Works (s : UInt32) : Prop where
  range : ∀ n, 1 ≤ ((new s).after n).next.1.toNat ∧ ((new s).after n).next.1.toNat ≤ 2 ^ 31 - 2
  remainder : ∀ n, ((new s).after n).next.1.toNat
    = ((new s).after n).seed.toNat * 16807 % (2 ^ 31 - 1)
  product_exact : ∀ n, ((new s).after n).product.toNat = ((new s).after n).seed.toNat * 16807
  sum_exact : ∀ n, ((new s).after n).folded.toUInt32.toNat
    = ((new s).after n).product.toNat / 2 ^ 31 + ((new s).after n).product.toNat % 2 ^ 31
  uniform : ∀ k : UInt32, 2 ≤ k.toNat → ¬ Degenerate (stream (Random.uniform k) (new s))
  oneIn : ∀ k : UInt32, 2 ≤ k.toNat → k.toNat < 2 ^ 31 - 1 →
    ¬ Degenerate (stream (Random.oneIn k) (new s))
  randomHeight : ¬ Degenerate (stream SkipList.randomHeight (new s))

theorem works_of_good {s : UInt32} (h : (new s).Good) : Works s where
  range := by
    intro n
    obtain ⟨hpos, hlt⟩ := (next_spec (h.after n)).2
    have hpos : 0 < ((new s).after n).next.1.toNat := hpos
    have hlt : ((new s).after n).next.1.toNat < 2147483647 := hlt
    omega
  remainder := fun n => (next_spec (h.after n)).1
  product_exact := by
    intro n
    have hlt := (h.after n).2
    exact toNat_product (by omega)
  sum_exact := by
    intro n
    have hlt := (h.after n).2
    obtain ⟨hfolded, hfits⟩ := toNat_folded (r := (new s).after n) (by omega)
    rw [UInt64.toNat_toUInt32, Nat.mod_eq_of_lt hfits, hfolded, Lehmer.fold,
      toNat_product (by omega)]
  uniform := by
    intro k hk hdeg
    have hone := (degenerate_uniform_iff h (by omega)).mp hdeg
    rw [hone] at hk
    exact absurd hk (by decide)
  oneIn := by
    intro k hk hlt hdeg
    rcases (degenerate_oneIn_iff h (by omega) (by omega)).mp hdeg with rfl | rfl
    · exact absurd hk (by decide)
    · exact absurd hlt (by decide)
  randomHeight := SkipList.not_degenerate_randomHeight h

/-- **The seeds that work.** The constructor does not keep the others out: `Next` returns zero for
ever from zero, and the modulus from the modulus. -/
theorem works_iff (s : UInt32) :
    Works s ↔ s &&& 0x7fffffff ≠ 0 ∧ s &&& 0x7fffffff ≠ 0x7fffffff := by
  rw [← good_new_iff]
  constructor
  · intro h
    -- the first number is out of range
    by_contra hbad
    have hrange := h.range 0
    rw [good_new_iff, not_and_or, not_not, not_not] at hbad
    rcases hbad with hzero | hmod
    · have hnew : new s = ⟨0⟩ := congrArg Random.mk hzero
      rw [hnew] at hrange
      exact absurd hrange (by decide)
    · have hnew : new s = ⟨0x7fffffff⟩ := congrArg Random.mk hmod
      rw [hnew] at hrange
      exact absurd hrange (by decide)
  · exact works_of_good

/-- A generator with seed zero. -/
theorem not_works_zero : ¬ Works 0 := by
  intro h
  exact absurd (h.range 0) (by decide)

end Random

end Squirrel
