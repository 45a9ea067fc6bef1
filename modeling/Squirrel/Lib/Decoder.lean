import Mathlib.Data.List.Basic

/-!
# Decoders that read off the front

A decoder takes a value off the front of its input and returns what is left. Two properties carry
all that is said about one. `Inverts` is the round trip, stated with anything behind the code word,
so that code words can be put one after another. `Extends` says that a decoder that has succeeded
does not look behind the part it has consumed; together they make every code word the end of what is
needed, so that no strict prefix of it is accepted.

## Main results

* `Extends.take_eq_none` — strict prefixes are rejected
* `inverts_seq` — code words one after another
-/

namespace Squirrel

/-- A value off the front of a list of symbols, and what is left of the list. -/
abbrev Decoder (α β : Type*) : Type _ := List α → Option (β × List α)

namespace Decoder

variable {α β γ ι : Type*} {d : Decoder α β} {b : β} {code : List α}

/-- The code word is read as `b`, whatever is behind it. -/
def Inverts (d : Decoder α β) (code : List α) (b : β) : Prop :=
  ∀ rest, d (code ++ rest) = some (b, rest)

/-- What has been read stays as it is when the input goes on. -/
def Extends (d : Decoder α β) : Prop :=
  ∀ p b rest, d p = some (b, rest) → ∀ t, d (p ++ t) = some (b, rest ++ t)

/-- **A strict prefix of a code word is rejected.** If it were read, the whole word would be read in
the same way, with something left over. -/
theorem Extends.take_eq_none (hext : Extends d) (hinv : Inverts d code b) {n : ℕ}
    (hn : n < code.length) : d (code.take n) = none := by
  cases hread : d (code.take n) with
  | none => rfl
  | some r =>
    obtain ⟨b', rest⟩ := r
    have hlonger := hext _ _ _ hread (code.drop n)
    rw [List.take_append_drop] at hlonger
    have hwhole := hinv []
    rw [List.append_nil, hlonger] at hwhole
    have hnil : code.drop n = [] := by
      cases rest with
      | nil => simpa using congrArg (Option.map Prod.snd) hwhole
      | cons a rest => simp at hwhole
    have hle := List.drop_eq_nil_iff.mp hnil
    omega

/-- The value of a decoder, changed. -/
def map (f : β → γ) (d : Decoder α β) : Decoder α γ := fun p =>
  (d p).map fun r => (f r.1, r.2)

theorem Inverts.map (h : Inverts d code b) (f : β → γ) : Inverts (d.map f) code (f b) := by
  intro rest
  rw [Decoder.map, h rest]
  rfl

theorem Extends.map (h : Extends d) (f : β → γ) : Extends (d.map f) := by
  intro p c rest hread t
  obtain ⟨⟨b, rest'⟩, hb, heq⟩ := Option.map_eq_some_iff.mp hread
  cases heq
  rw [Decoder.map, h p b rest' hb t]
  rfl

/-- One decoder after another. -/
def seq : List (Decoder α β) → Decoder α (List β)
  | [], p => some ([], p)
  | d :: ds, p => do
    let (b, p) ← d p
    let (bs, p) ← seq ds p
    some (b :: bs, p)

/-- Code words one after another are read one after another. -/
theorem inverts_seq {d : ι → Decoder α β} {code : ι → List α} {value : ι → β} {l : List ι}
    (h : ∀ i ∈ l, Inverts (d i) (code i) (value i)) :
    Inverts (seq (l.map d)) (l.flatMap code) (l.map value) := by
  induction l with
  | nil =>
    intro rest
    rfl
  | cons i l ih =>
    intro rest
    have hhead := h i (List.mem_cons_self ..) (l.flatMap code ++ rest)
    have htail := ih (fun j hj => h j (List.mem_cons_of_mem _ hj)) rest
    rw [List.flatMap_cons, List.append_assoc, List.map_cons, List.map_cons]
    simp only [seq, hhead, htail, Option.bind_eq_bind, Option.bind_some]

end Decoder

end Squirrel
