import Mathlib.Data.Int.Notation
import Squirrel.Lib.LittleEndian

/-!
# Filter policies

A `FilterPolicy` summarizes a set of keys in a filter and later says of a key whether it may be in
the set. Its contract has two parts: `CreateFilter` appends and leaves alone what was there, and
`KeyMayMatch` accepts each key the filter was made from. Filters may be read with another policy
than they were made with, which is the same contract between two policies.

`CreateFilter` is told the number of keys as an `int`. What it makes of a number that is not that of
the keys is not part of the contract, apart from that it appends.
-/

namespace Squirrel

/-- A `FilterPolicy`. -/
structure FilterPolicy where
  /-- `Name`, as the bytes of the string. -/
  name : Bytes
  /-- `CreateFilter`, on an array of keys and a number of them: the new contents of `*dst`. -/
  createFilter (keys : List Bytes) (n : ℤ) (dst : Bytes) : Bytes
  keyMayMatch (key filter : Bytes) : Bool

namespace FilterPolicy

/-- `CreateFilter` leaves alone what is in the string, and appends. -/
def Appends (p : FilterPolicy) : Prop :=
  ∀ keys n dst, ∃ filter, p.createFilter keys n dst = dst ++ filter

/-- Filters that `p` makes of these keys can be read with `q`. -/
def Accepts (p q : FilterPolicy) (keys : List Bytes) : Prop :=
  ∀ dst, ∃ filter, p.createFilter keys keys.length dst = dst ++ filter ∧
    ∀ key ∈ keys, q.keyMayMatch key filter = true

/-- Filters that `p` makes can be read with `q`, if their keys can be counted in an `int`. -/
structure ReadBy (p q : FilterPolicy) : Prop where
  appends : p.Appends
  accepts : ∀ keys, keys.length < 2 ^ 31 → p.Accepts q keys

/-- The contract of a `FilterPolicy`. -/
def NoFalseNegatives (p : FilterPolicy) : Prop := p.ReadBy p

theorem readBy_self {p : FilterPolicy} (h : p.NoFalseNegatives) : p.ReadBy p := h

/-- A policy that accepts everything reads all filters. -/
theorem Appends.readBy {p q : FilterPolicy} (h : p.Appends)
    (hq : ∀ key filter, q.keyMayMatch key filter = true) : p.ReadBy q where
  appends := h
  accepts := by
    intro keys _ dst
    obtain ⟨filter, hfilter⟩ := h keys keys.length dst
    exact ⟨filter, hfilter, fun _ _ => hq _ _⟩

/-- Some policy reads all filters of the one that makes them, if there is one, and is called what
another policy is called. -/
theorem exists_reader {policy : Option FilterPolicy}
    (happends : ∀ p, policy = some p → p.Appends) (named : Option FilterPolicy) :
    ∃ q : FilterPolicy, (∀ p, policy = some p → p.ReadBy q) ∧
      (named ≠ none → named.map name = some q.name) := by
  refine ⟨⟨(named.map name).getD [], fun _ _ dst => dst, fun _ _ => true⟩, fun p hp => ?_,
    fun hne => ?_⟩
  · exact (happends p hp).readBy fun _ _ => rfl
  · obtain ⟨p, rfl⟩ := Option.ne_none_iff_exists'.mp hne
    rfl

end FilterPolicy

end Squirrel
