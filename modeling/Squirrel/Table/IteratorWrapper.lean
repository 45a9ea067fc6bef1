import Squirrel.Lib.Cursor

/-!
# Iterator wrappers and cleanup functions

`IteratorWrapper` keeps an iterator with its cached validity and key. Iterators that are made of
other iterators hold their parts in wrappers, so what they need of a part is that it behaves as a
cursor and that the cache is up to date (`StandsAt`).

Functions can be registered with an iterator, which its destructor calls.
-/

namespace Squirrel

open Cursor

variable {σ κ ν : Type}

/-- An iterator with its cached key; `valid_` is whether there is one. -/
structure IteratorWrapper (σ κ : Type) where
  iter : σ
  key : Option κ

namespace IteratorWrapper

/-- `Set` and `Update`: take over what the iterator shows. -/
def update (I : Iterator σ κ ν) (iter : σ) : IteratorWrapper σ κ :=
  ⟨iter, (I.entry iter).map Prod.fst⟩

/-- `Next`, `Prev`, `Seek`, `SeekToFirst` and `SeekToLast`: move the iterator, then `Update`. -/
def step (I : Iterator σ κ ν) (w : IteratorWrapper σ κ) (op : Op κ) :
    Option (IteratorWrapper σ κ) :=
  (I.step w.iter op).map (update I)

/-- `value` asks the iterator itself. -/
def value (I : Iterator σ κ ν) (w : IteratorWrapper σ κ) : Option ν := (I.entry w.iter).map Prod.snd

/-- The wrapped iterator is at `pos` in the list `l`, and its cached key is up to date. -/
structure StandsAt (I : Iterator σ κ ν) (good : σ → Prop) (before : κ × ν → κ → Bool)
    (l : List (κ × ν)) (w : IteratorWrapper σ κ) (pos : Option ℕ) : Prop where
  behaves : I.BehavesWith good before l w.iter pos
  key_eq : w.key = (I.entry w.iter).map Prod.fst

variable {I : Iterator σ κ ν} {good : σ → Prop} {before : κ × ν → κ → Bool} {l : List (κ × ν)}
  {w : IteratorWrapper σ κ} {pos pos' : Option ℕ}

theorem standsAt_update {iter : σ} (h : I.BehavesWith good before l iter pos) :
    StandsAt I good before l (update I iter) pos := ⟨h, rfl⟩

theorem StandsAt.step {op : Op κ} (h : StandsAt I good before l w pos)
    (hop : Cursor.step before l pos op = some pos') :
    ∃ w', w.step I op = some w' ∧ StandsAt I good before l w' pos' := by
  obtain ⟨s, hs, hbehaves⟩ := h.behaves.step hop
  exact ⟨update I s, by rw [IteratorWrapper.step, hs]; rfl, standsAt_update hbehaves⟩

theorem StandsAt.key_eq_bind (h : StandsAt I good before l w pos) :
    w.key = (pos.bind fun i => l[i]?).map Prod.fst := by
  rw [h.key_eq, h.behaves.entry_eq]

theorem StandsAt.key_none (h : StandsAt I good before l w none) : w.key = none := h.key_eq_bind

theorem StandsAt.key_some {i : ℕ} {a : κ × ν} (h : StandsAt I good before l w (some i))
    (ha : l[i]? = some a) : w.key = some a.1 := by
  rw [h.key_eq_bind, Option.bind_some, ha]
  rfl

theorem StandsAt.value_some {i : ℕ} {a : κ × ν} (h : StandsAt I good before l w (some i))
    (ha : l[i]? = some a) : w.value I = some a.2 := by
  rw [value, h.behaves.entry_eq, Option.bind_some, ha]
  rfl

/-- Where there is a key there is an entry. -/
theorem StandsAt.exists_of_key {k : κ} (h : StandsAt I good before l w pos)
    (hkey : w.key = some k) :
    ∃ i a, pos = some i ∧ l[i]? = some a ∧ w.value I = some a.2 := by
  cases pos with
  | none =>
    rw [h.key_none] at hkey
    cases hkey
  | some i =>
    rw [h.key_eq_bind, Option.bind_some] at hkey
    obtain ⟨a, ha, -⟩ := Option.map_eq_some_iff.mp hkey
    exact ⟨i, a, rfl, ha, h.value_some ha⟩

end IteratorWrapper

/-- `RegisterCleanup`. The destructor calls the functions in the order of the list: the first one is
kept in the iterator itself, and those behind it with the newest in front. -/
def registerCleanup {α : Type} (function : α) : List α → List α
  | [] => [function]
  | first :: rest => first :: function :: rest

end Squirrel
