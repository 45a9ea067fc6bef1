import Mathlib.Data.List.Basic

/-!
# Simulation of partial computations

A computation that keeps its state in memory and may stop with an error does what a plain
computation does that fails or returns: whatever it returns is related to what the plain one
returns, and it does not stop unless the plain one fails, or for a reason that is `excused`.

`outputs` runs a step function over a list of operations and collects what the steps put out. If
each step is a simulation then so are the runs, and the outputs are the same. The relation between
the states may depend on the operations that are still to come.

What is said of the value that a computation returns can be decided if it can be for each value.

## Main results

* `Simulates.bind` — simulations compose
* `Simulates.outputs` — from steps to runs
* `Simulates.toOption_eq` — two computations that simulate the same one
-/

namespace Squirrel

universe u v w

variable {ε : Type w} {α β γ δ ω σ τ : Type u} {ι : Type v} {excused : ε → Prop} {R : α → β → Prop}
  {S : γ → δ → Prop} {a : Option α} {m : Except ε β}

/-- `m` does what `a` does. -/
def Simulates (excused : ε → Prop) (R : α → β → Prop) (a : Option α) : Except ε β → Prop
  | .ok b => ∃ x, a = some x ∧ R x b
  | .error e => a = none ∨ excused e

/-- The outputs of the operations, one after another. -/
def outputs {m : Type u → Type w} [Monad m] (step : σ → ι → m (ω × σ)) : σ → List ι → m (List ω)
  | _, [] => pure []
  | s, op :: ops => do
    let (out, s) ← step s op
    let outs ← outputs step s ops
    pure (out :: outs)

/-! ### What a computation returns -/

section

variable {p : β → Prop} [DecidablePred p]

instance decidableForallOk (m : Except ε β) : Decidable (∀ b, m = .ok b → p b) :=
  match m with
  | .error _ => .isTrue fun _ h => by cases h
  | .ok b => decidable_of_iff (p b) ⟨fun hb _ h => Except.ok.inj h ▸ hb, fun h => h b rfl⟩

instance decidableForallSomeOk (m : Option (Except ε β)) :
    Decidable (∀ b, m = some (.ok b) → p b) :=
  match m with
  | none => .isTrue fun _ h => by cases h
  | some m => decidable_of_iff (∀ b, m = .ok b → p b)
    ⟨fun hm b h => hm b (Option.some.inj h), fun h b hb => h b (congrArg some hb)⟩

end

/-! ### Simulations -/

namespace Simulates

theorem ok {x : α} {b : β} (h : R x b) : Simulates excused R (some x) (.ok b) := ⟨x, rfl, h⟩

theorem bind {f : α → Option γ} {g : β → Except ε δ} (h : Simulates excused R a m)
    (hf : ∀ x b, R x b → Simulates excused S (f x) (g b)) :
    Simulates excused S (a >>= f) (m >>= g) := by
  cases m with
  | ok b =>
    obtain ⟨x, rfl, hR⟩ := h
    exact hf x b hR
  | error e =>
    rcases h with rfl | he
    · exact Or.inl rfl
    · exact Or.inr he

theorem mono {R' : α → β → Prop} (h : Simulates excused R a m) (hR : ∀ x b, R x b → R' x b) :
    Simulates excused R' a m := by
  cases m with
  | ok b =>
    obtain ⟨x, hx, hxb⟩ := h
    exact ⟨x, hx, hR x b hxb⟩
  | error e => exact h

theorem mono_of_ok {R' : α → β → Prop} (h : Simulates excused R a m)
    (hR : ∀ x b, m = .ok b → R x b → R' x b) : Simulates excused R' a m := by
  cases m with
  | ok b =>
    obtain ⟨x, hx, hxb⟩ := h
    exact ⟨x, hx, hR x b rfl hxb⟩
  | error e => exact h

/-- **From steps to runs.** The induction is on the operations. -/
theorem outputs {astep : σ → ι → Option (ω × σ)} {step : τ → ι → Except ε (ω × τ)}
    {T : List ι → σ → τ → Prop}
    (hstep : ∀ op ops s t, T (op :: ops) s t →
      Simulates excused (fun x y => x.1 = y.1 ∧ T ops x.2 y.2) (astep s op) (step t op))
    {ops : List ι} {s : σ} {t : τ} (h : T ops s t) :
    Simulates excused Eq (Squirrel.outputs astep s ops) (Squirrel.outputs step t ops) := by
  induction ops generalizing s t with
  | nil => exact ok rfl
  | cons op ops ih =>
    refine bind (hstep op ops s t h) ?_
    rintro ⟨out, s'⟩ ⟨out', t'⟩ ⟨hout, hT⟩
    obtain rfl : out = out' := hout
    refine bind (ih hT) ?_
    rintro outs _ rfl
    exact ok rfl

/-- Of two computations that simulate the same one, one without excuses, both return the same or
neither returns. -/
theorem toOption_eq {m m' : Except ε α} (h : Simulates excused Eq a m)
    (h' : Simulates (fun _ => False) Eq a m') :
    m.toOption = m'.toOption ∨ ∃ e, m = .error e ∧ excused e := by
  have hnone : a = m'.toOption := by
    cases m' with
    | ok b =>
      obtain ⟨x, rfl, rfl⟩ := h'
      rfl
    | error e => exact h'.resolve_right id
  rw [← hnone]
  cases m with
  | ok b =>
    obtain ⟨x, rfl, rfl⟩ := h
    exact Or.inl rfl
  | error e =>
    rcases h with rfl | he
    · exact Or.inl rfl
    · exact Or.inr ⟨e, rfl, he⟩

end Simulates

end Squirrel
