import Mathlib.Data.List.Basic

/-!
# Cursors

What an iterator over an ordered collection is for: a position in a list, moved by the five
operations. `before a target` says that the item `a` comes before `target` in the list's order; a
cursor knows nothing else about keys.

`step` is partial: `next` and `prev` are only allowed at a valid position. An implementation is a
partial step function on states of its own, and refines the cursor if a relation between its states
and positions is preserved by every allowed operation; `run_simulates` carries that to all
sequences.

`Iterator.Behaves` says the same of an iterator as its user sees it: whatever allowed operations are
applied from here on, it shows the entry at the cursor's position. It is what an iterator built from
other iterators may assume of its parts and has to promise itself.
-/

namespace Squirrel

namespace Cursor

/-- The operations of an iterator. -/
inductive Op (κ : Type*)
  | seek (target : κ)
  | seekToFirst
  | seekToLast
  | next
  | prev

/-- The operation with another target. -/
def Op.map {κ κ' : Type*} (f : κ → κ') : Op κ → Op κ'
  | .seek target => .seek (f target)
  | .seekToFirst => .seekToFirst
  | .seekToLast => .seekToLast
  | .next => .next
  | .prev => .prev

variable {α κ σ : Type*}

/-- Position `i`, if there is one. -/
def place (l : List α) (i : ℕ) : Option ℕ := if i < l.length then some i else none

theorem place_of_lt {l : List α} {i : ℕ} (h : i < l.length) : place l i = some i := if_pos h

theorem place_of_ge {l : List α} {i : ℕ} (h : l.length ≤ i) : place l i = none :=
  if_neg (Nat.not_lt.mpr h)

theorem place_length_sub_one (l : List α) :
    place l (l.length - 1) = if l.length = 0 then none else some (l.length - 1) := by
  by_cases h : l.length = 0
  · rw [if_pos h, place_of_ge (Nat.le_of_eq (by omega))]
  · rw [if_neg h, place_of_lt (Nat.sub_one_lt h)]

/-- What each operation does to a position. -/
def step (before : α → κ → Bool) (l : List α) (pos : Option ℕ) : Op κ → Option (Option ℕ)
  | .seek target => some (place l (l.findIdx fun a => !before a target))
  | .seekToFirst => some (place l 0)
  | .seekToLast => some (place l (l.length - 1))
  | .next => pos.map fun i => place l (i + 1)
  | .prev => pos.map fun i => if i = 0 then none else some (i - 1)

/-- A cursor does not care what its items are, only which come before a target. -/
theorem step_map {β : Type*} (f : β → α) (before : α → κ → Bool) (l : List β) (pos : Option ℕ)
    (op : Op κ) : step before (l.map f) pos op = step (fun b k => before (f b) k) l pos op := by
  have hplace : ∀ i, place (l.map f) i = place l i := fun i => by
    rw [place, place, List.length_map]
  cases op <;> simp only [step, hplace, List.length_map, List.findIdx_map]
  all_goals rfl

/-- A sequence of operations. -/
def run (istep : σ → Op κ → Option σ) (s : σ) (ops : List (Op κ)) : Option σ := ops.foldlM istep s

@[simp] theorem run_nil (istep : σ → Op κ → Option σ) (s : σ) : run istep s [] = some s := rfl

theorem run_cons (istep : σ → Op κ → Option σ) (s : σ) (op : Op κ) (ops : List (Op κ)) :
    run istep s (op :: ops) = (istep s op).bind fun s' => run istep s' ops := rfl

/-- Refinement, from one operation to all sequences of operations that are `allowed`. -/
theorem run_simulates_of {τ : Type*} {istep : σ → Op κ → Option σ} {astep : τ → Op κ → Option τ}
    {R : σ → τ → Prop} {allowed : Op κ → Prop}
    (hstep : ∀ s pos op pos', allowed op → R s pos → astep pos op = some pos' →
      ∃ s', istep s op = some s' ∧ R s' pos')
    {s : σ} {pos pos' : τ} {ops : List (Op κ)} (hops : ∀ op ∈ ops, allowed op) (hR : R s pos)
    (h : run astep pos ops = some pos') :
    ∃ s', run istep s ops = some s' ∧ R s' pos' := by
  induction ops generalizing s pos with
  | nil =>
    cases h
    exact ⟨s, rfl, hR⟩
  | cons op ops ih =>
    rw [run_cons, Option.bind_eq_some_iff] at h
    obtain ⟨pos₁, hpos, hrest⟩ := h
    obtain ⟨s₁, hs, hR₁⟩ := hstep s pos op pos₁ (hops op List.mem_cons_self) hR hpos
    obtain ⟨s', hrun, hR'⟩ := ih (fun op' h => hops op' (List.mem_cons_of_mem op h)) hR₁ hrest
    refine ⟨s', ?_, hR'⟩
    rw [run_cons, hs]
    exact hrun

/-- **Refinement, from one operation to all sequences.** -/
theorem run_simulates {τ : Type*} {istep : σ → Op κ → Option σ} {astep : τ → Op κ → Option τ}
    {R : σ → τ → Prop}
    (hstep : ∀ s pos op pos', R s pos → astep pos op = some pos' →
      ∃ s', istep s op = some s' ∧ R s' pos')
    {s : σ} {pos pos' : τ} {ops : List (Op κ)} (hR : R s pos) (h : run astep pos ops = some pos') :
    ∃ s', run istep s ops = some s' ∧ R s' pos' :=
  @run_simulates_of _ _ _ istep astep R (fun _ => True) (fun s pos op pos' _ => hstep s pos op pos')
    _ _ _ _ (fun _ _ => trivial) hR h

/-- On a list in which the items that come before `target` come first, seeking counts them. -/
theorem findIdx_not_eq_countP {p : α → Bool} {l : List α}
    (h : l.Pairwise fun a b => p b → p a) : (l.findIdx fun a => !p a) = l.countP p := by
  induction l with
  | nil => rfl
  | cons a l ih =>
    rw [List.pairwise_cons] at h
    cases ha : p a with
    | true => rw [List.findIdx_cons, ha, List.countP_cons_of_pos ha, ← ih h.2]; rfl
    | false =>
      have hnone : ∀ b ∈ a :: l, ¬ p b := by
        intro b hb
        rcases List.mem_cons.mp hb with rfl | hb
        · exact Bool.eq_false_iff.mp ha
        · exact fun hpb => Bool.eq_false_iff.mp ha (h.1 b hb hpb)
      rw [List.countP_eq_zero.mpr hnone, List.findIdx_cons, ha]
      rfl

theorem take_countP {p : α → Bool} {l : List α} (h : l.Pairwise fun a b => p b → p a) :
    l.take (l.countP p) = l.filter p := by
  rw [← findIdx_not_eq_countP h, ← List.takeWhile_eq_take_findIdx_not]
  induction l with
  | nil => rfl
  | cons a l ih =>
    rw [List.pairwise_cons] at h
    cases ha : p a with
    | true => rw [List.takeWhile_cons_of_pos ha, List.filter_cons_of_pos ha, ih h.2]
    | false =>
      rw [List.takeWhile_cons_of_neg (Bool.eq_false_iff.mp ha)]
      refine (List.filter_eq_nil_iff.mpr fun b hb => ?_).symm
      rcases List.mem_cons.mp hb with rfl | hb
      · exact Bool.eq_false_iff.mp ha
      · exact fun hpb => Bool.eq_false_iff.mp ha (h.1 b hb hpb)

/-- The items that satisfy `p` are counted by the position at which they end. -/
theorem countP_eq_of_getElem? {p : α → Bool} {l : List α} {r : ℕ} (hr : r ≤ l.length)
    (h : ∀ i a, l[i]? = some a → (p a ↔ i < r)) : l.countP p = r := by
  induction l generalizing r with
  | nil => exact (Nat.le_zero.mp hr).symm
  | cons a l ih =>
    cases r with
    | zero =>
      refine List.countP_eq_zero.mpr fun b hb hpb => ?_
      obtain ⟨i, hi⟩ := List.mem_iff_getElem?.mp hb
      exact Nat.not_lt_zero i ((h i b hi).mp hpb)
    | succ r =>
      rw [List.countP_cons_of_pos ((h 0 a rfl).mpr (Nat.succ_pos r)),
        ih (Nat.le_of_succ_le_succ hr) fun i b hb => (h (i + 1) b hb).trans Nat.succ_lt_succ_iff]

end Cursor

/-! ### Iterators -/

/-- An iterator: its operations, and the entry that it shows, if it is valid. -/
structure Iterator (σ κ ν : Type*) where
  step : σ → Cursor.Op κ → Option σ
  entry : σ → Option (κ × ν)

namespace Iterator

variable {σ κ ν : Type*} {I : Iterator σ κ ν} {before : κ × ν → κ → Bool} {l : List (κ × ν)}

/-- From state `s` on, the iterator behaves as a cursor on `l` does from `pos` on, and all its
states are `good`. -/
def BehavesWith (I : Iterator σ κ ν) (good : σ → Prop) (before : κ × ν → κ → Bool)
    (l : List (κ × ν)) (s : σ) (pos : Option ℕ) : Prop :=
  ∀ ops pos', Cursor.run (Cursor.step before l) pos ops = some pos' →
    ∃ s', Cursor.run I.step s ops = some s' ∧ I.entry s' = (pos'.bind fun i => l[i]?) ∧ good s'

/-- From state `s` on, the iterator behaves as a cursor on `l` does from `pos` on. -/
def Behaves (I : Iterator σ κ ν) (before : κ × ν → κ → Bool) (l : List (κ × ν)) (s : σ)
    (pos : Option ℕ) : Prop :=
  I.BehavesWith (fun _ => True) before l s pos

variable {good : σ → Prop}

theorem BehavesWith.entry_eq {s : σ} {pos : Option ℕ} (h : I.BehavesWith good before l s pos) :
    I.entry s = pos.bind fun i => l[i]? := by
  obtain ⟨s', hrun, hentry, -⟩ := h [] pos rfl
  cases hrun
  exact hentry

theorem BehavesWith.good_self {s : σ} {pos : Option ℕ} (h : I.BehavesWith good before l s pos) :
    good s := by
  obtain ⟨s', hrun, -, hgood⟩ := h [] pos rfl
  cases hrun
  exact hgood

theorem BehavesWith.step {s : σ} {pos pos' : Option ℕ} {op : Cursor.Op κ}
    (h : I.BehavesWith good before l s pos) (hop : Cursor.step before l pos op = some pos') :
    ∃ s', I.step s op = some s' ∧ I.BehavesWith good before l s' pos' := by
  obtain ⟨s', hrun, -⟩ := h [op] pos' (by rw [Cursor.run_cons, hop]; rfl)
  rw [Cursor.run_cons, Option.bind_eq_some_iff] at hrun
  obtain ⟨s₁, hs, hrun⟩ := hrun
  cases hrun
  refine ⟨s', hs, ?_⟩
  intro ops pos'' hops
  obtain ⟨s'', hrun, hentry⟩ := h (op :: ops) pos'' (by rw [Cursor.run_cons, hop]; exact hops)
  rw [Cursor.run_cons, hs] at hrun
  exact ⟨s'', hrun, hentry⟩

theorem BehavesWith.imp {good' : σ → Prop} {s : σ} {pos : Option ℕ}
    (h : I.BehavesWith good before l s pos) (himp : ∀ s, good s → good' s) :
    I.BehavesWith good' before l s pos := by
  intro ops pos' hops
  obtain ⟨s', hrun, hentry, hgood⟩ := h ops pos' hops
  exact ⟨s', hrun, hentry, himp s' hgood⟩

/-- An invariant that ties states to positions is all it takes. -/
theorem behavesWith_of_refines {R : σ → Option ℕ → Prop}
    (hstep : ∀ s pos op pos', R s pos → Cursor.step before l pos op = some pos' →
      ∃ s', I.step s op = some s' ∧ R s' pos')
    (hentry : ∀ s pos, R s pos → I.entry s = pos.bind fun i => l[i]?)
    (hgood : ∀ s pos, R s pos → good s)
    {s : σ} {pos : Option ℕ} (hR : R s pos) : I.BehavesWith good before l s pos := by
  intro ops pos' hops
  obtain ⟨s', hrun, hR'⟩ := Cursor.run_simulates hstep hR hops
  exact ⟨s', hrun, hentry s' pos' hR', hgood s' pos' hR'⟩

theorem behaves_of_refines {R : σ → Option ℕ → Prop}
    (hstep : ∀ s pos op pos', R s pos → Cursor.step before l pos op = some pos' →
      ∃ s', I.step s op = some s' ∧ R s' pos')
    (hentry : ∀ s pos, R s pos → I.entry s = pos.bind fun i => l[i]?)
    {s : σ} {pos : Option ℕ} (hR : R s pos) : I.Behaves before l s pos :=
  behavesWith_of_refines hstep hentry (fun _ _ _ => trivial) hR

/-! ### Scans -/

/-- The entries that the iterator shows while it is moved on, until it is no longer valid. -/
def collect (I : Iterator σ κ ν) (op : Cursor.Op κ) : ℕ → σ → Option (List (κ × ν))
  | 0, _ => none
  | fuel + 1, s =>
    match I.entry s with
    | none => some []
    | some a => (I.step s op).bind fun s => (I.collect op fuel s).map (a :: ·)

/-- A scan from the first entry on. -/
def scanForward (I : Iterator σ κ ν) (fuel : ℕ) (s : σ) : Option (List (κ × ν)) :=
  (I.step s .seekToFirst).bind (I.collect .next fuel)

/-- A scan from the last entry back. -/
def scanBackward (I : Iterator σ κ ν) (fuel : ℕ) (s : σ) : Option (List (κ × ν)) :=
  (I.step s .seekToLast).bind (I.collect .prev fuel)

theorem collect_next {R : σ → Option ℕ → Prop}
    (hstep : ∀ s i, R s (some i) → ∃ s', I.step s .next = some s' ∧ R s' (Cursor.place l (i + 1)))
    (hentry : ∀ s pos, R s pos → I.entry s = pos.bind fun i => l[i]?) {s : σ} {i fuel : ℕ}
    (hR : R s (Cursor.place l i)) (hfuel : l.length - i < fuel) :
    I.collect .next fuel s = some (l.drop i) := by
  induction fuel generalizing s i with
  | zero => exact absurd hfuel (Nat.not_lt_zero _)
  | succ fuel ih =>
    rw [collect, hentry s _ hR]
    rcases Nat.lt_or_ge i l.length with hlt | hge
    · rw [Cursor.place_of_lt hlt] at hR ⊢
      rw [Option.bind_some, List.getElem?_eq_getElem hlt]
      obtain ⟨s', hs', hR'⟩ := hstep s i hR
      simp only [hs', Option.bind_some, ih hR' (by omega), Option.map_some]
      rw [← List.drop_eq_getElem_cons hlt]
    · rw [Cursor.place_of_ge hge, Option.bind_none, List.drop_of_length_le hge]

theorem collect_prev {R : σ → Option ℕ → Prop}
    (hstep : ∀ s i, R s (some i) →
      ∃ s', I.step s .prev = some s' ∧ R s' (if i = 0 then none else some (i - 1)))
    (hentry : ∀ s pos, R s pos → I.entry s = pos.bind fun i => l[i]?) {s : σ} {m fuel : ℕ}
    (hR : R s (if m = 0 then none else some (m - 1))) (hm : m ≤ l.length) (hfuel : m < fuel) :
    I.collect .prev fuel s = some (l.take m).reverse := by
  induction fuel generalizing s m with
  | zero => exact absurd hfuel (Nat.not_lt_zero _)
  | succ fuel ih =>
    rw [collect, hentry s _ hR]
    cases m with
    | zero => rfl
    | succ m =>
      rw [if_neg (Nat.succ_ne_zero m), Nat.add_sub_cancel] at hR ⊢
      rw [Option.bind_some, List.getElem?_eq_getElem hm]
      obtain ⟨s', hs', hR'⟩ := hstep s m hR
      simp only [hs', Option.bind_some, Option.map_some,
        ih hR' (Nat.le_of_succ_le hm) (Nat.lt_of_succ_lt_succ hfuel)]
      rw [List.take_add_one, List.getElem?_eq_getElem hm, Option.toList_some, List.reverse_append]
      rfl

/-- The iterator that is a cursor: a list and a position in it. -/
def ofList (before : κ × ν → κ → Bool) : Iterator (List (κ × ν) × Option ℕ) κ ν where
  step s op := (Cursor.step before s.1 s.2 op).map fun pos => (s.1, pos)
  entry s := s.2.bind fun i => s.1[i]?

theorem behaves_ofList (before : κ × ν → κ → Bool) (l : List (κ × ν)) (pos : Option ℕ) :
    (ofList before).Behaves before l (l, pos) pos := by
  refine behaves_of_refines (R := fun s pos => s = (l, pos)) ?_ ?_ rfl
  · rintro _ pos op pos' rfl hop
    refine ⟨(l, pos'), ?_, rfl⟩
    simp only [ofList, hop, Option.map_some]
  · rintro _ pos rfl
    rfl

end Iterator

end Squirrel
