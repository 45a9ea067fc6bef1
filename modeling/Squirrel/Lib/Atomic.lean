import Mathlib.Data.List.Basic
import Mathlib.Logic.Function.Basic

/-!
# Atomic objects

What threads do to a shared object shows as a history of calls and returns. An object is specified
by what one operation does to it when nothing else happens (`perform`), and `atomic` is the system
in which that is all that happens: an operation is called, takes effect in one step, and returns. A
system is linearizable if its histories are histories of the atomic one, which a simulation shows
step by step.

Objects are built on top of each other. A client that makes one call for each of its own operations
and does something to the answer is a `Translation`, and `System.wrap` is the system of such
clients.

## Main definitions

* `System.Run`, `System.Simulation`
* `atomic` — the atomic object
* `System.wrap` — an object that is used through another one's operations

## Main results

* `System.Simulation.run` — the histories of a system are histories of one that simulates it
* `atomic_takesEffect` — an operation takes effect between its call and its return
* `atomic_wrap` — clients of an atomic object that see an atomic object themselves
-/

namespace Squirrel

/-- A transition system. Some of its steps show an event. -/
structure System (σ ε : Type*) where
  init : σ
  step : σ → Option ε → σ → Prop

namespace System

variable {σ τ ε : Type*}

/-- A run: the events that it has shown, and the state that it has come to. -/
inductive Run (A : System σ ε) : List ε → σ → Prop
  | init : Run A [] A.init
  | step {history : List ε} {s s' : σ} {e : Option ε} (h : Run A history s)
    (hstep : A.step s e s') :
    Run A (history ++ e.toList) s'

theorem Run.silent {A : System σ ε} {history : List ε} {s s' : σ} (h : A.Run history s)
    (hstep : A.step s none s') : A.Run history s' := by
  simpa using h.step hstep

theorem Run.event {A : System σ ε} {history : List ε} {s s' : σ} {e : ε} (h : A.Run history s)
    (hstep : A.step s (some e) s') : A.Run (history ++ [e]) s' := h.step hstep

/-- `B` follows `A` step by step, and may stay where it is when `A` shows nothing. -/
structure Simulation (A : System σ ε) (B : System τ ε) (R : σ → τ → Prop) : Prop where
  init : R A.init B.init
  step : ∀ s e s' t, R s t → A.step s e s' →
    (e = none ∧ R s' t) ∨ ∃ t', B.step t e t' ∧ R s' t'

/-- **From steps to histories.** -/
theorem Simulation.run {A : System σ ε} {B : System τ ε} {R : σ → τ → Prop} (h : Simulation A B R)
    {history : List ε} {s : σ} (hrun : A.Run history s) : ∃ t, B.Run history t ∧ R s t := by
  induction hrun with
  | init => exact ⟨B.init, .init, h.init⟩
  | step _ hstep ih =>
    obtain ⟨t, ht, hR⟩ := ih
    rcases h.step _ _ _ t hR hstep with ⟨rfl, hR'⟩ | ⟨t', ht', hR'⟩
    · exact ⟨t, by simpa using ht, hR'⟩
    · exact ⟨t', ht.step ht', hR'⟩

end System

/-! ### Histories -/

/-- What shows of the operations of a thread. -/
inductive Event (T O R : Type*)
  | call (t : T) (op : O)
  | ret (t : T) (op : O) (result : R)

def Event.thread {T O R : Type*} : Event T O R → T
  | call t _ => t
  | ret t _ _ => t

/-- Where a thread is in an operation. -/
inductive Phase (O R : Type*)
  | idle
  | called (op : O)
  | done (op : O) (result : R)

/-- An object and where its threads are. -/
structure Atomic (σ T O R : Type*) where
  object : σ
  phase : T → Phase O R

variable {σ τ T O O' R R' : Type*} [DecidableEq T]

/-- The steps of an atomic object, where `perform` is what an operation does. -/
inductive Atomic.Step (perform : σ → T → O → R → σ → Prop) :
    Atomic σ T O R → Option (Event T O R) → Atomic σ T O R → Prop
  | call {s : Atomic σ T O R} (t : T) (op : O) (h : s.phase t = .idle) :
    Step perform s (some (.call t op)) { s with phase := Function.update s.phase t (.called op) }
  | perform {s : Atomic σ T O R} {t : T} {op : O} {r : R} {object : σ} (h : s.phase t = .called op)
    (hperform : perform s.object t op r object) :
    Step perform s none ⟨object, Function.update s.phase t (.done op r)⟩
  | ret {s : Atomic σ T O R} {t : T} {op : O} {r : R} (h : s.phase t = .done op r) :
    Step perform s (some (.ret t op r)) { s with phase := Function.update s.phase t .idle }

/-- The system of an atomic object. -/
def atomic (object : σ) (perform : σ → T → O → R → σ → Prop) :
    System (Atomic σ T O R) (Event T O R) where
  init := ⟨object, fun _ => .idle⟩
  step := Atomic.Step perform

variable {object : σ} {perform : σ → T → O → R → σ → Prop} {s : Atomic σ T O R} {t : T} {op : O}
  {r : R}

theorem atomic_call (h : s.phase t = .idle) :
    (atomic object perform).step s (some (.call t op))
      { s with phase := Function.update s.phase t (.called op) } := .call t op h

theorem atomic_perform {object' : σ} (h : s.phase t = .called op)
    (hperform : perform s.object t op r object') :
    (atomic object perform).step s none ⟨object', Function.update s.phase t (.done op r)⟩ :=
  .perform h hperform

theorem atomic_ret (h : s.phase t = .done op r) :
    (atomic object perform).step s (some (.ret t op r))
      { s with phase := Function.update s.phase t .idle } := .ret h

/-! ### Between call and return -/

/-- The operation is the last one that the thread has called, and took effect after that. -/
def TakesEffect (object : σ) (perform : σ → T → O → R → σ → Prop) (history : List (Event T O R))
    (t : T) (op : O) (r : R) : Prop :=
  ∃ before during since s object', history = before ++ .call t op :: (during ++ since) ∧
    (∀ e ∈ during ++ since, e.thread ≠ t) ∧
    (atomic object perform).Run (before ++ .call t op :: during) s ∧
    perform s.object t op r object'

/-- What the history tells of the operation that a thread is in. -/
def Underway (object : σ) (perform : σ → T → O → R → σ → Prop) (history : List (Event T O R))
    (t : T) : Phase O R → Prop
  | .idle => True
  | .called op => ∃ before during, history = before ++ .call t op :: during ∧
      ∀ e ∈ during, e.thread ≠ t
  | .done op r => TakesEffect object perform history t op r

/-- Events of other threads change nothing. -/
theorem Underway.append {history new : List (Event T O R)} {phase : Phase O R}
    (h : Underway object perform history t phase) (hnew : ∀ e ∈ new, e.thread ≠ t) :
    Underway object perform (history ++ new) t phase := by
  cases phase with
  | idle => trivial
  | called op =>
    obtain ⟨before, during, rfl, hother⟩ := h
    refine ⟨before, during ++ new, by simp, fun e he => ?_⟩
    exact (List.mem_append.mp he).elim (hother e) (hnew e)
  | done op r =>
    obtain ⟨before, during, since, s, object', rfl, hother, hrun, hperform⟩ := h
    refine ⟨before, during, since ++ new, s, object', by simp, fun e he => ?_, hrun, hperform⟩
    rw [← List.append_assoc] at he
    exact (List.mem_append.mp he).elim (hother e) (hnew e)

/-- A thread takes a step, and shows its own events. -/
theorem Underway.update {history new : List (Event T O R)} {phase : T → Phase O R}
    {p : Phase O R} (h : ∀ u, Underway object perform history u (phase u))
    (hnew : ∀ e ∈ new, e.thread = t) (hp : Underway object perform (history ++ new) t p) (u : T) :
    Underway object perform (history ++ new) u (Function.update phase t p u) := by
  by_cases hu : u = t
  · subst hu
    rwa [Function.update_self]
  · rw [Function.update_of_ne hu]
    exact (h u).append fun e he => by rw [hnew e he]; exact Ne.symm hu

theorem underway {history : List (Event T O R)} (h : (atomic object perform).Run history s) :
    ∀ t, Underway object perform history t (s.phase t) := by
  induction h with
  | init => exact fun _ => trivial
  | @step history s s' e hrun hstep ih =>
    cases hstep with
    | call t op hidle =>
      refine Underway.update ih (fun e he => ?_)
        ⟨history, [], rfl, fun e he => absurd he List.not_mem_nil⟩
      rw [Option.mem_toList] at he
      cases he
      rfl
    | @perform t op r object' hcalled hperform =>
      refine Underway.update ih (fun e he => absurd he List.not_mem_nil) ?_
      have hcall := ih t
      rw [hcalled] at hcall
      obtain ⟨before, during, rfl, hother⟩ := hcall
      exact ⟨before, during, [], s, _, by simp, by simpa using hother, hrun, hperform⟩
    | ret hdone =>
      refine Underway.update ih (fun e he => ?_) trivial
      rw [Option.mem_toList] at he
      cases he
      rfl

/-- **An operation takes effect between its call and its return.** -/
theorem atomic_takesEffect {history pre post : List (Event T O R)}
    (h : (atomic object perform).Run history s) (hret : history = pre ++ .ret t op r :: post) :
    TakesEffect object perform pre t op r := by
  induction h generalizing post with
  | init => exact absurd hret (by simp)
  | @step history s s' e hrun hstep ih =>
    cases e with
    | none => exact ih (by simpa using hret)
    | some e =>
      rcases List.eq_nil_or_concat post with rfl | ⟨post, last, rfl⟩
      · obtain ⟨rfl, he⟩ := List.append_inj' hret rfl
        obtain rfl : e = .ret t op r := by simpa using he
        cases hstep with
        | ret hdone =>
          have hunder := underway hrun t
          rw [hdone] at hunder
          exact hunder
      · have hsplit : history ++ [e] = (pre ++ .ret t op r :: post) ++ [last] := by simpa using hret
        exact ih (List.append_inj' hsplit rfl).1

/-! ### Objects on top of objects -/

/-- How the operations of a client call those of an object, and what it makes of the results. -/
structure Translation (T O R O' R' : Type*) where
  op : T → O' → Option O
  result : T → O' → R → R'

/-- The steps of clients. They remember what they are doing. -/
inductive System.WrapStep (A : System σ (Event T O R)) (f : Translation T O R O' R') :
    σ × (T → Option O') → Option (Event T O' R') → σ × (T → Option O') → Prop
  | call {s s' : σ} {doing : T → Option O'} {t : T} {op' : O'} {op : O} (hop : f.op t op' = some op)
    (hstep : A.step s (some (.call t op)) s') :
    WrapStep A f (s, doing) (some (.call t op')) (s', Function.update doing t (some op'))
  | silent {s s' : σ} {doing : T → Option O'} (hstep : A.step s none s') :
    WrapStep A f (s, doing) none (s', doing)
  | ret {s s' : σ} {doing : T → Option O'} {t : T} {op' : O'} {op : O} {r : R}
    (hdoing : doing t = some op') (hstep : A.step s (some (.ret t op r)) s') :
    WrapStep A f (s, doing) (some (.ret t op' (f.result t op' r)))
      (s', Function.update doing t none)

/-- The system of the clients of an object. -/
def System.wrap (A : System σ (Event T O R)) (f : Translation T O R O' R') :
    System (σ × (T → Option O')) (Event T O' R') where
  init := (A.init, fun _ => none)
  step := A.WrapStep f

/-- Clients see no more than the object shows. -/
theorem System.Simulation.wrap {A : System σ (Event T O R)} {B : System τ (Event T O R)}
    {S : σ → τ → Prop} (h : Simulation A B S) (f : Translation T O R O' R') :
    Simulation (A.wrap f) (B.wrap f) fun s t => S s.1 t.1 ∧ s.2 = t.2 where
  init := ⟨h.init, rfl⟩
  step := by
    rintro s e s' ⟨t, doing⟩ ⟨hS, hdoing⟩ hstep
    cases hstep with
    | call hop hstep =>
      obtain rfl : _ = doing := hdoing
      rcases h.step _ _ _ t hS hstep with ⟨he, -⟩ | ⟨t', ht, hS'⟩
      · cases he
      · exact .inr ⟨_, .call hop ht, hS', rfl⟩
    | silent hstep =>
      obtain rfl : _ = doing := hdoing
      rcases h.step _ _ _ t hS hstep with ⟨-, hS'⟩ | ⟨t', ht, hS'⟩
      · exact .inl ⟨rfl, hS', rfl⟩
      · exact .inr ⟨_, .silent ht, hS', rfl⟩
    | ret hdone hstep =>
      obtain rfl : _ = doing := hdoing
      rcases h.step _ _ _ t hS hstep with ⟨he, -⟩ | ⟨t', ht, hS'⟩
      · cases he
      · exact .inr ⟨_, .ret hdone ht, hS', rfl⟩

/-- The phase of a client, from the phase of the call that it makes. -/
def Phase.Translates (f : Translation T O R O' R') (t : T) :
    Phase O R → Option O' → Phase O' R' → Prop
  | .idle, doing, phase => doing = none ∧ phase = .idle
  | .called op, doing, phase => ∃ op', doing = some op' ∧ f.op t op' = some op ∧ phase = .called op'
  | .done _ r, doing, phase => ∃ op', doing = some op' ∧ phase = .done op' (f.result t op' r)

/-- **Clients of an atomic object see an atomic object**, if their operations do to it what the
operations that they call do to the object below. -/
theorem atomic_wrap {object' : τ} {perform' : τ → T → O' → R' → τ → Prop} {S : σ → τ → Prop}
    (f : Translation T O R O' R') (hinit : S object object')
    (hperform : ∀ s s' t op op' r s₁, S s s' → f.op t op' = some op → perform s t op r s₁ →
      ∃ s₁', perform' s' t op' (f.result t op' r) s₁' ∧ S s₁ s₁') :
    System.Simulation ((atomic object perform).wrap f) (atomic object' perform')
      fun s a => S s.1.object a.object ∧ ∀ t, (s.1.phase t).Translates f t (s.2 t) (a.phase t) where
  init := ⟨hinit, fun _ => ⟨rfl, rfl⟩⟩
  step := by
    rintro s e s' a ⟨hS, hphase⟩ hstep
    have hother : ∀ {phase : T → Phase O R} {doing : T → Option O'} {phase' : T → Phase O' R'}
        (t : T) (p : Phase O R) (d : Option O') (p' : Phase O' R'),
        (∀ t, (phase t).Translates f t (doing t) (phase' t)) → p.Translates f t d p' →
        ∀ u, (Function.update phase t p u).Translates f u (Function.update doing t d u)
          (Function.update phase' t p' u) := by
      intro phase doing phase' t p d p' hall hnew u
      by_cases hu : u = t
      · subst hu
        simpa using hnew
      · simpa [Function.update_of_ne hu] using hall u
    cases hstep with
    | @call s s' doing t op' op hop hstep =>
      cases hstep with
      | call t op hidle =>
        have ht := hphase t
        rw [hidle] at ht
        refine .inr ⟨_, atomic_call ht.2, hS, hother t _ _ _ hphase ⟨op', rfl, hop, rfl⟩⟩
    | @silent s s' doing hstep =>
      cases hstep with
      | @perform t op r object₁ hcalled hperf =>
        have ht := hphase t
        rw [hcalled] at ht
        obtain ⟨op', hdoing, hop, hcalled'⟩ := ht
        obtain ⟨object₁', hperf', hS'⟩ := hperform _ _ t op op' r object₁ hS hop hperf
        refine .inr ⟨_, atomic_perform hcalled' hperf', hS', ?_⟩
        have hall :=
          hother t (.done op r) (some op') (.done op' (f.result t op' r)) hphase ⟨op', rfl, rfl⟩
        rwa [← hdoing, Function.update_eq_self] at hall
    | @ret s s' doing t op' op r hdoing hstep =>
      cases hstep with
      | ret hdone =>
        have ht := hphase t
        rw [hdone] at ht
        obtain ⟨op'', hdoing', hdone'⟩ := ht
        obtain rfl : op' = op'' := Option.some.inj (hdoing.symm.trans hdoing')
        exact .inr ⟨_, atomic_ret hdone', hS, hother t _ _ _ hphase ⟨rfl, rfl⟩⟩

end Squirrel
