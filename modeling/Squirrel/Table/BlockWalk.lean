import Squirrel.Table.Block

/-!
# The loops of a block iterator

Whether an operation returns depends on what `ParseNextKey` does where the iterator looks for an
entry, and on nothing else about the entries. `Walk` lists what is needed: the offset of the next
entry grows and stays in front of the restart points, and every state between two calls is one from
which the walk can go on. From there on, each loop is an induction on its fuel, and `Walk.step` is
the one result about all operations.

The contract is about two decoders that agree wherever the iterator looks, so that it can also say
that a decoder that is lenient elsewhere makes no difference.

## Main results

* `Region.skipRestarts_eq` — the loop of `ParseNextKey` over the restart points is not cut short
* `Walk.parseUntil`, `Walk.parseUpTo`, `Walk.bisect` — the other loops
* `Walk.step` — every operation returns
-/

namespace Squirrel

open Coding

namespace Block

/-! ### Restart points -/

namespace Region

variable {r : Region}

section

variable (hle : r.restarts + r.numRestarts * 4 ≤ r.data.length)

include hle

theorem exists_restart {i : ℕ} (h : i < r.numRestarts) :
    ∃ p, r.getRestartPoint i = some p ∧ p < 2 ^ 32 := by
  refine ⟨decodeFixed32 ((r.data.drop (r.restarts + i * 4)).take 4), ?_, decodeFixed32_lt _⟩
  rw [getRestartPoint, if_pos h, read, if_pos (by omega)]
  rfl

theorem exists_skipRestarts (current fuel : ℕ) {index : ℕ} (h : index < r.numRestarts) :
    ∃ index', r.skipRestarts current fuel index = some index' ∧ index' < r.numRestarts := by
  induction fuel generalizing index with
  | zero => exact ⟨index, rfl, h⟩
  | succ fuel ih =>
    rw [skipRestarts]
    by_cases hlt : index + 1 < r.numRestarts
    · obtain ⟨p, hp, -⟩ := exists_restart hle hlt
      rw [if_pos hlt, hp]
      by_cases hcur : p < current
      · obtain ⟨index', hskip, hindex⟩ := ih hlt
        exact ⟨index', by simp [hcur, hskip], hindex⟩
      · exact ⟨index, by simp [hcur], h⟩
    · exact ⟨index, if_neg hlt, h⟩

theorem exists_scanBack (original : ℕ) {index : ℕ} (h : index < r.numRestarts) :
    ∃ found, r.scanBack original index = some found ∧ ∀ i ∈ found, i < r.numRestarts := by
  induction index with
  | zero =>
    obtain ⟨p, hp, -⟩ := exists_restart hle h
    rw [scanBack, hp]
    by_cases hle : original ≤ p
    · exact ⟨none, by simp [hle], by simp⟩
    · exact ⟨some 0, by simp [hle], by simpa using h⟩
  | succ index ih =>
    obtain ⟨p, hp, -⟩ := exists_restart hle h
    rw [scanBack, hp]
    by_cases hle : original ≤ p
    · obtain ⟨found, hscan, hfound⟩ := ih (by omega)
      exact ⟨found, by simp [hle, hscan], hfound⟩
    · exact ⟨some (index + 1), by simp [hle], by simpa using h⟩

end

/-- **With a round for each restart point that is left, the loop ends by its own condition**: more
rounds make no difference. -/
theorem skipRestarts_eq (current : ℕ) {fuel index : ℕ} (h : r.numRestarts ≤ index + fuel) (k : ℕ) :
    r.skipRestarts current (fuel + k) index = r.skipRestarts current fuel index := by
  induction fuel generalizing index with
  | zero =>
    cases k with
    | zero => rfl
    | succ k => rw [Nat.zero_add, skipRestarts, skipRestarts, if_neg (by omega)]
  | succ fuel ih =>
    have hnext := ih (show r.numRestarts ≤ index + 1 + fuel by omega)
    rw [show fuel + 1 + k = fuel + k + 1 by omega, skipRestarts, skipRestarts, hnext]

end Region

/-! ### The loops -/

/-- What the loops rely on. `Ready p it` says that the iterator will look for an entry at `p` next,
and `Done it` is what holds between operations. -/
structure Walk (decode decode' : Bytes → ℕ → ℕ → Option Entry) (r : Region)
    (Ready : ℕ → Iter → Prop) (Done : Iter → Prop) : Prop where
  numRestarts_pos : 0 < r.numRestarts
  restarts_le : r.restarts + r.numRestarts * 4 ≤ r.data.length
  nextEntryOffset_eq : ∀ {p it}, Ready p it → it.nextEntryOffset = some p
  restartIndex_lt : ∀ {p it}, Ready p it → it.restartIndex < r.numRestarts
  /-- An operation can start where the last one has ended. -/
  ready_of_valid : ∀ {it}, Done it → it.Valid r → ∃ p, Ready p it
  done_of_not_valid : ∀ {it : Iter}, ¬ it.Valid r → Done it
  seekToRestartPoint : ∀ (it : Iter) {i : ℕ}, i < r.numRestarts →
    ∃ it' p, it.seekToRestartPoint r i = some it' ∧ Ready p it'
  /-- What the binary search looks at. -/
  probe : ∀ {i p : ℕ}, r.getRestartPoint i = some p →
    decode r.data r.restarts p = decode' r.data r.restarts p ∧
      ∀ e ∈ decode' r.data r.restarts p, ∃ key, r.read e.keyPtr e.nonShared = some key
  parseNextKey : ∀ {p it}, Ready p it → ∃ more it',
    it.parseNextKey decode r = some (more, it') ∧ it.parseNextKey decode' r = some (more, it') ∧
      Done it' ∧ (more = true → ∃ p', Ready p' it' ∧ p < p' ∧ p' ≤ r.restarts)

namespace Walk

variable {decode decode' : Bytes → ℕ → ℕ → Option Entry} {r : Region} {Ready : ℕ → Iter → Prop}
  {Done : Iter → Prop} (w : Walk decode decode' r Ready Done)

include w

/-- There are more rounds than offsets left in front of the restart points. -/
theorem parseUntil (bound : ℕ) {fuel : ℕ} {it : Iter} {p : ℕ} (h : Ready p it)
    (hfuel : r.restarts < p + fuel) (hpos : 0 < fuel) :
    ∃ it', it.parseUntil decode r bound fuel = some it' ∧
      it.parseUntil decode' r bound fuel = some it' ∧ Done it' := by
  induction fuel generalizing it p with
  | zero => exact absurd hpos (Nat.lt_irrefl 0)
  | succ fuel ih =>
    obtain ⟨more, it', hcode, hspec, hdone, hmore⟩ := w.parseNextKey h
    rw [Iter.parseUntil, Iter.parseUntil, hcode, hspec]
    cases more with
    | false => exact ⟨it', rfl, rfl, hdone⟩
    | true =>
      obtain ⟨p', hready, hlt, hle⟩ := hmore rfl
      simp only [Option.bind_eq_bind, Option.bind_some, w.nextEntryOffset_eq hready]
      by_cases hbound : p' < bound
      · simp only [if_pos hbound]
        exact ih hready (by omega) (by omega)
      · simp only [if_neg hbound]
        exact ⟨it', rfl, rfl, hdone⟩

theorem parseUpTo (cmp : Bytes → Bytes → Ordering) (target : Bytes) {fuel : ℕ} {it : Iter} {p : ℕ}
    (h : Ready p it) (hfuel : r.restarts < p + fuel) (hpos : 0 < fuel) :
    ∃ it', it.parseUpTo cmp decode r target fuel = some it' ∧
      it.parseUpTo cmp decode' r target fuel = some it' ∧ Done it' := by
  induction fuel generalizing it p with
  | zero => exact absurd hpos (Nat.lt_irrefl 0)
  | succ fuel ih =>
    obtain ⟨more, it', hcode, hspec, hdone, hmore⟩ := w.parseNextKey h
    rw [Iter.parseUpTo, Iter.parseUpTo, hcode, hspec]
    cases more with
    | false => exact ⟨it', rfl, rfl, hdone⟩
    | true =>
      obtain ⟨p', hready, hlt, hle⟩ := hmore rfl
      simp only [Option.bind_eq_bind, Option.bind_some]
      by_cases hcmp : cmp it'.key target ≠ .lt
      · simp only [if_pos hcmp]
        exact ⟨it', rfl, rfl, hdone⟩
      · simp only [if_neg hcmp]
        exact ih hready (by omega) (by omega)

/-- The binary search halves the restart points that are left. -/
theorem bisect (cmp : Bytes → Bytes → Ordering) (target : Bytes) (fuel left right : ℕ)
    (hleft : left ≤ right) (hright : right < r.numRestarts) (hfuel : right < left + fuel) :
    ∃ found, Iter.bisect cmp decode r target fuel left right = some found ∧
      Iter.bisect cmp decode' r target fuel left right = some found ∧
      ∀ index ∈ found, index < r.numRestarts := by
  induction fuel generalizing left right with
  | zero => omega
  | succ fuel ih =>
    rw [Iter.bisect, Iter.bisect]
    by_cases hlt : left < right
    · simp only [if_pos hlt]
      obtain ⟨p, hp, -⟩ := Region.exists_restart w.restarts_le
        (i := (left + right + 1) / 2) (by omega)
      obtain ⟨hdecode, hread⟩ := w.probe hp
      simp only [hp, Option.bind_eq_bind, Option.bind_some, hdecode]
      cases he : decode' r.data r.restarts p with
      | none => exact ⟨none, rfl, rfl, by simp⟩
      | some e =>
        by_cases hshared : e.shared ≠ 0
        · simp only [if_pos hshared]
          exact ⟨none, rfl, rfl, by simp⟩
        obtain ⟨key, hkey⟩ := hread e he
        simp only [if_neg hshared, hkey, Option.bind_some]
        by_cases hcmp : cmp key target = .lt
        · simp only [if_pos hcmp]
          exact ih _ _ (by omega) hright (by omega)
        · simp only [if_neg hcmp]
          exact ih _ _ (by omega) (by omega) (by omega)
    · simp only [if_neg hlt]
      exact ⟨some left, rfl, rfl, by simp; omega⟩

/-- **Every operation returns**, with either decoder and the same result. -/
theorem step (cmp : Bytes → Bytes → Ordering) {it : Iter} (hit : Done it) (op : Cursor.Op Bytes)
    (hop : op = .next ∨ op = .prev → it.Valid r) :
    ∃ it', it.step cmp decode r op = some it' ∧ it.step cmp decode' r op = some it' ∧ Done it' := by
  have hpos := w.numRestarts_pos
  cases op with
  | seek target =>
    obtain ⟨found, hcode, hspec, hindex⟩ := w.bisect cmp target
      r.numRestarts 0 (r.numRestarts - 1) (by omega) (by omega) (by omega)
    simp only [Iter.step, Iter.seek, hcode, hspec, Option.bind_eq_bind, Option.bind_some]
    cases found with
    | none => exact ⟨_, rfl, rfl, w.done_of_not_valid (Nat.lt_irrefl _)⟩
    | some left =>
      obtain ⟨it₁, p, hseek, hready⟩ := w.seekToRestartPoint it (hindex left rfl)
      simp only [hseek, Option.bind_some]
      exact w.parseUpTo cmp target hready (by omega) (by omega)
  | seekToFirst =>
    obtain ⟨it₁, p, hseek, hready⟩ := w.seekToRestartPoint it hpos
    obtain ⟨more, it', hcode, hspec, hdone, -⟩ := w.parseNextKey hready
    refine ⟨it', ?_, ?_, hdone⟩
    · simp [Iter.step, Iter.seekToFirst, hseek, hcode]
    · simp [Iter.step, Iter.seekToFirst, hseek, hspec]
  | seekToLast =>
    obtain ⟨it₁, p, hseek, hready⟩ := w.seekToRestartPoint it (i := r.numRestarts - 1) (by omega)
    simp only [Iter.step, Iter.seekToLast, hseek, Option.bind_eq_bind, Option.bind_some]
    exact w.parseUntil r.restarts hready (by omega) (by omega)
  | next =>
    have hvalid := hop (.inl rfl)
    obtain ⟨p, hready⟩ := w.ready_of_valid hit hvalid
    obtain ⟨more, it', hcode, hspec, hdone, -⟩ := w.parseNextKey hready
    refine ⟨it', ?_, ?_, hdone⟩
    · simp [Iter.step, Iter.next, hvalid, hcode]
    · simp [Iter.step, Iter.next, hvalid, hspec]
  | prev =>
    have hvalid := hop (.inr rfl)
    obtain ⟨p, hready⟩ := w.ready_of_valid hit hvalid
    obtain ⟨found, hscan, hindex⟩ := Region.exists_scanBack w.restarts_le it.current
      (w.restartIndex_lt hready)
    simp only [Iter.step, Iter.prev, if_pos hvalid, hscan, Option.bind_eq_bind, Option.bind_some]
    cases found with
    | none => exact ⟨_, rfl, rfl, w.done_of_not_valid (Nat.lt_irrefl _)⟩
    | some index =>
      obtain ⟨it₁, p, hseek, hready⟩ := w.seekToRestartPoint it (hindex index rfl)
      simp only [hseek, Option.bind_some]
      exact w.parseUntil it.current hready (by omega) (by omega)

end Walk

/-- `Next` and `Prev` assert that the iterator is valid. -/
theorem AnyIter.valid_of_step {cmp : Bytes → Bytes → Ordering}
    {decode : Bytes → ℕ → ℕ → Option Entry} {it it' : AnyIter} {op : Cursor.Op Bytes}
    (h : it.step cmp decode op = some it') (hop : op = .next ∨ op = .prev) : it.Valid := by
  cases it with
  | empty s =>
    rcases hop with rfl | rfl
    · cases h
    · cases h
  | entries r it =>
    by_contra hvalid
    have hvalid : ¬ it.Valid r := hvalid
    rcases hop with rfl | rfl
    · simp [step, Iter.step, Iter.next, hvalid] at h
    · simp [step, Iter.step, Iter.prev, hvalid] at h

end Block

end Squirrel
