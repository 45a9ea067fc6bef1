import Squirrel.Db.DbFormat

/-!
# Internal keys as byte strings

`DbFormat` proves what the rest of the database needs of internal keys. Here the whole contract is
stated: on arbitrary byte strings for parsing, and on all strings that are long enough to have a tag
for the order and for the two functions that shorten keys. None of these strings has to come from
`AppendInternalKey`, so the type in the tag may be anything.

What makes the order total is that a string of eight bytes or more is its user key and its tag, and
that the tag determines its eight bytes.

## Main results

* `internalKey_encoding` — parsing, appending and the order
* `shortening` — separators and successors, of bytewise keys and of internal ones
-/

namespace Squirrel

open Std Coding

/-! ### Parsing -/

/-- A string that is long enough is a user key and a tag. -/
theorem extractUserKey_append {b : Bytes} (h : 8 ≤ b.length) :
    extractUserKey b ++ encodeFixed64 (extractTag b) = b := by
  have hlen : (b.drop (b.length - 8)).length = 8 := by
    rw [List.length_drop]
    omega
  rw [extractUserKey, extractTag, encodeFixed64_decodeFixed64 hlen, List.take_append_drop]

theorem extractTag_lt (b : Bytes) : extractTag b < 2 ^ 64 := by
  have hlo := decodeFixed32_lt (b.drop (b.length - 8))
  have hhi := decodeFixed32_lt ((b.drop (b.length - 8)).drop 4)
  rw [extractTag, decodeFixed64, Nat.or_comm, LittleEndian.or_shiftLeft _ hlo]
  omega

/-- The two enumerators are the values up to `kTypeValue`. -/
theorem ValueType.ofNat?_isSome (n : ℕ) :
    (ValueType.ofNat? n).isSome = true ↔ n ≤ ValueType.kTypeValue.toNat := by
  match n with
  | 0 => decide
  | 1 => decide
  | n + 2 =>
    have hgt : ¬ n + 2 ≤ ValueType.kTypeValue.toNat := by
      show ¬ n + 2 ≤ 1
      omega
    exact ⟨(fun h => by cases h), fun h => absurd h hgt⟩

theorem ValueType.toNat_of_ofNat? {n : ℕ} {t : ValueType} (h : ValueType.ofNat? n = some t) :
    t.toNat = n := by
  match n with
  | 0 => cases h; rfl
  | 1 => cases h; rfl
  | n + 2 => cases h

theorem parseInternalKey_isSome_iff (b : Bytes) :
    (parseInternalKey b).isSome = true ↔
      8 ≤ b.length ∧ extractTag b &&& 0xff ≤ ValueType.kTypeValue.toNat := by
  rw [parseInternalKey]
  dsimp only
  split
  · next hlt => exact ⟨(by simp), fun h => absurd hlt (Nat.not_lt.mpr h.1)⟩
  · next hge =>
    rw [Option.isSome_map, ValueType.ofNat?_isSome]
    exact ⟨fun h => ⟨Nat.not_lt.mp hge, h⟩, fun h => h.2⟩

/-- What was parsed can be put together again. -/
theorem appendInternalKey_of_parseInternalKey {b : Bytes} {key : ParsedInternalKey}
    (h : parseInternalKey b = some key) : appendInternalKey [] key = some b := by
  rw [parseInternalKey] at h
  dsimp only at h
  split at h
  · cases h
  · next hlen =>
    obtain ⟨t, ht, rfl⟩ := Option.map_eq_some_iff.mp h
    have htag := extractTag_lt b
    have hlow := ValueType.toNat_of_ofNat? ht
    rw [show (0xff : ℕ) = 2 ^ 8 - 1 from rfl, Nat.and_two_pow_sub_one_eq_mod] at hlow
    have hseq : extractTag b >>> 8 ≤ kMaxSequenceNumber := by
      rw [Nat.shiftRight_eq_div_pow, show kMaxSequenceNumber = 2 ^ 56 - 1 from rfl]
      omega
    have heq : tag (extractTag b >>> 8) t = extractTag b := by
      rw [tag_eq hseq, Nat.shiftRight_eq_div_pow, hlow]
      omega
    rw [appendInternalKey_eq hseq, List.nil_append, encodeInternalKey, heq,
      extractUserKey_append (Nat.not_lt.mp hlen)]

/-! ### The order -/

namespace InternalKeyComparator

/-- Keys that compare equal are equal. -/
theorem compare_eq_iff {a b : Bytes} (ha : 8 ≤ a.length) (hb : 8 ≤ b.length) :
    compare bytewiseComparator a b = .eq ↔ a = b := by
  have htrans := bytewiseComparator_lawful.trans
  constructor
  · intro h
    rw [compare_eq_compareLex, compareLex, Ordering.then_eq_eq, compare_bytewiseComparator] at h
    obtain ⟨huser, htag⟩ := h
    have huser' : extractUserKey a = extractUserKey b := LawfulEqCmp.compare_eq_iff_eq.mp huser
    have htag' : extractTag b = extractTag a := Nat.compare_eq_eq.mp htag
    rw [← extractUserKey_append ha, ← extractUserKey_append hb, huser', htag']
  · rintro rfl
    exact ReflCmp.compare_self

/-- Sequence numbers and types, from the highest to the lowest. -/
theorem compare_tag {seq seq' : ℕ} (h : seq ≤ kMaxSequenceNumber) (h' : seq' ≤ kMaxSequenceNumber)
    (t t' : ValueType) :
    Ord.compare (tag seq t) (tag seq' t')
      = (Ord.compare seq seq').then (Ord.compare t.toNat t'.toNat) := by
  have hlt := tag_lt_tag_iff h h' t t'
  have hgt := tag_lt_tag_iff h' h t' t
  rcases Nat.lt_trichotomy seq seq' with hseq | rfl | hseq
  · rw [Nat.compare_eq_lt.mpr hseq, Ordering.lt_then, Nat.compare_eq_lt]
    exact hlt.mpr (.inl hseq)
  · rw [Nat.compare_eq_eq.mpr rfl, Ordering.eq_then]
    rcases Nat.lt_trichotomy t.toNat t'.toNat with ht | ht | ht
    · rw [Nat.compare_eq_lt.mpr ht, Nat.compare_eq_lt]
      exact hlt.mpr (.inr ⟨rfl, ht⟩)
    · rw [ValueType.toNat_inj ht, Nat.compare_eq_eq.mpr rfl, Nat.compare_eq_eq.mpr rfl]
    · rw [Nat.compare_eq_gt.mpr ht, Nat.compare_eq_gt]
      exact hgt.mpr (.inr ⟨rfl, ht⟩)
  · rw [Nat.compare_eq_gt.mpr hseq, Ordering.gt_then, Nat.compare_eq_gt]
    exact hgt.mpr (.inl hseq)

/-- The order of two encoded keys. -/
theorem compare_encode {seq seq' : ℕ} (h : seq ≤ kMaxSequenceNumber)
    (h' : seq' ≤ kMaxSequenceNumber) (u u' : Bytes) (t t' : ValueType) :
    compare bytewiseComparator (encodeInternalKey u seq t) (encodeInternalKey u' seq' t')
      = (Slice.compare u u').then
          ((Ord.compare seq' seq).then (Ord.compare t'.toNat t.toNat)) := by
  rw [compare_eq_compareLex, compareLex, extractUserKey_encode, extractUserKey_encode,
    extractTag_encode, extractTag_encode, compare_tag h' h, compare_bytewiseComparator]

end InternalKeyComparator

/-- **Internal key encoding and order.** Keys that were appended are parsed back; parsing succeeds
on exactly the strings with a tag whose low byte is a type, and is undone by appending; the order of
all strings with a tag is total, with only equal strings equal; and encoded keys are ordered by user
key upwards, then by sequence number and type downwards. -/
theorem internalKey_encoding :
    (∀ key : ParsedInternalKey, key.sequence ≤ kMaxSequenceNumber →
      ∃ b, appendInternalKey [] key = some b ∧ parseInternalKey b = some key) ∧
    (∀ b, (parseInternalKey b).isSome = true ↔
      8 ≤ b.length ∧ extractTag b &&& 0xff ≤ ValueType.kTypeValue.toNat) ∧
    (∀ b key, parseInternalKey b = some key → appendInternalKey [] key = some b) ∧
    TransCmp (InternalKeyComparator.compare bytewiseComparator) ∧
    (∀ a b, 8 ≤ a.length → 8 ≤ b.length →
      (InternalKeyComparator.compare bytewiseComparator a b = .eq ↔ a = b)) ∧
    (∀ key key' : ParsedInternalKey, key.sequence ≤ kMaxSequenceNumber →
      key'.sequence ≤ kMaxSequenceNumber →
      ∃ b b', appendInternalKey [] key = some b ∧ appendInternalKey [] key' = some b' ∧
        InternalKeyComparator.compare bytewiseComparator b b'
          = (Slice.compare key.userKey key'.userKey).then
              ((Ord.compare key'.sequence key.sequence).then
                (Ord.compare key'.type.toNat key.type.toNat))) := by
  refine ⟨?_, parseInternalKey_isSome_iff, ?_, ?_, ?_, ?_⟩
  · intro key hseq
    exact ⟨_, appendInternalKey_eq hseq [], parseInternalKey_encode hseq key.userKey key.type⟩
  · intro b key h
    exact appendInternalKey_of_parseInternalKey h
  · have htrans := bytewiseComparator_lawful.trans
    infer_instance
  · intro a b ha hb
    exact InternalKeyComparator.compare_eq_iff ha hb
  · intro key key' hseq hseq'
    exact ⟨_, _, appendInternalKey_eq hseq [], appendInternalKey_eq hseq' [],
      InternalKeyComparator.compare_encode hseq hseq' _ _ _ _⟩

theorem internalKey_encoding_two :
    ∃ b b', appendInternalKey [] ⟨[7], 5, .kTypeValue⟩ = some b ∧
      parseInternalKey b = some ⟨[7], 5, .kTypeValue⟩ ∧
      appendInternalKey [] ⟨[7], 3, .kTypeDeletion⟩ = some b' ∧
      InternalKeyComparator.compare bytewiseComparator b b' = .lt := by
  obtain ⟨hround, -, -, -, -, horder⟩ := internalKey_encoding
  obtain ⟨b, hb, hparse⟩ := hround ⟨[7], 5, .kTypeValue⟩ (by decide)
  obtain ⟨b₁, b', hb₁, hb', hcmp⟩ :=
    horder ⟨[7], 5, .kTypeValue⟩ ⟨[7], 3, .kTypeDeletion⟩ (by decide) (by decide)
  obtain rfl := Option.some.inj (hb.symm.trans hb₁)
  exact ⟨b, b', hb, hparse, hb', hcmp.trans (by decide)⟩

/-! ### Shortening keys -/

/-- What a comparator's two functions owe to keys that satisfy `P`: a separator in `[start, limit)`
and a successor from `key` on, neither longer than what it is made of; keys that are not in order
are left alone. No assertion fails. -/
structure Comparator.Shortens (c : Comparator) (P : Bytes → Prop) : Prop where
  separator : ∀ start limit, P start → P limit → c.compare start limit = .lt →
    ∃ r, c.findShortestSeparator start limit = some r ∧ c.compare start r ≠ .gt ∧
      c.compare r limit = .lt ∧ r.length ≤ start.length
  unchanged : ∀ start limit, P start → P limit → c.compare start limit ≠ .lt →
    c.findShortestSeparator start limit = some start
  successor : ∀ key, P key → ∃ r, c.findShortSuccessor key = some r ∧ c.compare key r ≠ .gt ∧
    r.length ≤ key.length

theorem bytewiseComparator_shortens : bytewiseComparator.Shortens fun _ => True where
  separator start limit hstart hlimit hlt := by
    obtain ⟨r, hr, hlo, hhi⟩ := bytewiseComparator_lawful.separator hstart hlimit hlt
    exact ⟨r, hr, hlo, hhi, BytewiseComparator.length_of_findShortestSeparator hr⟩
  unchanged start limit _ _ hge := by
    rw [compare_bytewiseComparator] at hge
    exact BytewiseComparator.findShortestSeparator_of_not_lt hge
  successor key hkey := by
    obtain ⟨r, hr, hle⟩ := bytewiseComparator_lawful.successor hkey
    refine ⟨r, hr, hle, ?_⟩
    obtain rfl := Option.some.inj hr
    exact BytewiseComparator.length_findShortSuccessor_le key

theorem length_extractUserKey (b : Bytes) : (extractUserKey b).length = b.length - 8 := by
  rw [extractUserKey, List.length_take]
  omega

namespace InternalKeyComparator

/-- Keys that are not in order are left alone, since their user keys are not in order either. -/
theorem findShortestSeparator_of_not_lt {start limit : Bytes} (hstart : 8 ≤ start.length)
    (hlimit : 8 ≤ limit.length) (hge : compare bytewiseComparator start limit ≠ .lt) :
    findShortestSeparator bytewiseComparator start limit = some start := by
  rcases findShortestSeparator_shapes hstart hlimit with h | ⟨user, -, -, hlo, hhi⟩
  · exact h
  · rw [compare_bytewiseComparator] at hlo hhi
    have hlt : Slice.compare (extractUserKey start) (extractUserKey limit) = .lt :=
      TransCmp.lt_trans hlo hhi
    rw [← compare_bytewiseComparator] at hlt
    exact absurd (compare_of_user_lt hlt) hge

theorem shortens :
    (internalKeyComparator bytewiseComparator).Shortens fun k => 8 ≤ k.length where
  separator start limit hstart hlimit hlt := by
    rw [compare_internalKeyComparator] at hlt ⊢
    rw [findShortestSeparator_internalKeyComparator]
    obtain ⟨r, hr, hlo, hhi⟩ := findShortestSeparator_bytewise hstart hlimit hlt
    refine ⟨r, hr, hlo, hhi, ?_⟩
    rcases findShortestSeparator_shapes hstart hlimit with h | ⟨user, h, hshort, -, -⟩
    · rw [Option.some.inj (hr.symm.trans h)]
    · rw [Option.some.inj (hr.symm.trans h), length_encodeInternalKey]
      rw [length_extractUserKey] at hshort
      omega
  unchanged start limit hstart hlimit hge := by
    rw [compare_internalKeyComparator] at hge
    rw [findShortestSeparator_internalKeyComparator]
    exact findShortestSeparator_of_not_lt hstart hlimit hge
  successor key hkey := by
    rw [compare_internalKeyComparator, findShortSuccessor_internalKeyComparator]
    obtain ⟨r, hr, hle⟩ := findShortSuccessor_bytewise hkey
    refine ⟨r, hr, hle, ?_⟩
    rcases findShortSuccessor_shapes hkey with h | ⟨user, h, hshort, -⟩
    · rw [Option.some.inj (hr.symm.trans h)]
    · rw [Option.some.inj (hr.symm.trans h), length_encodeInternalKey]
      rw [length_extractUserKey] at hshort
      omega

end InternalKeyComparator

/-- `r` is `key`, or a shorter user key with the tag that comes first. -/
def ShorterOrSame (key r : Bytes) : Prop :=
  r = key ∨ ∃ user, user.length < (extractUserKey key).length ∧
    appendInternalKey [] ⟨user, kMaxSequenceNumber, kValueTypeForSeek⟩ = some r

/-- **Separators and successors stay in range**, for bytewise keys and for internal keys over them.
An internal key is changed only to a shorter user key with the highest tag. -/
theorem shortening :
    bytewiseComparator.Shortens (fun _ => True) ∧
    (internalKeyComparator bytewiseComparator).Shortens (fun k => 8 ≤ k.length) ∧
    (∀ start limit, 8 ≤ start.length → 8 ≤ limit.length →
      ∃ r, (internalKeyComparator bytewiseComparator).findShortestSeparator start limit = some r ∧
        ShorterOrSame start r) ∧
    (∀ key, 8 ≤ key.length →
      ∃ r, (internalKeyComparator bytewiseComparator).findShortSuccessor key = some r ∧
        ShorterOrSame key r) := by
  refine ⟨bytewiseComparator_shortens, InternalKeyComparator.shortens, ?_, ?_⟩
  · intro start limit hstart hlimit
    rw [findShortestSeparator_internalKeyComparator]
    rcases InternalKeyComparator.findShortestSeparator_shapes hstart hlimit with
      h | ⟨user, h, hshort, -, -⟩
    · exact ⟨start, h, .inl rfl⟩
    · exact ⟨_, h, .inr ⟨user, hshort, appendInternalKey_eq le_rfl []⟩⟩
  · intro key hkey
    rw [findShortSuccessor_internalKeyComparator]
    rcases InternalKeyComparator.findShortSuccessor_shapes hkey with h | ⟨user, h, hshort, -⟩
    · exact ⟨key, h, .inl rfl⟩
    · exact ⟨_, h, .inr ⟨user, hshort, appendInternalKey_eq le_rfl []⟩⟩

theorem shortening_two :
    (∃ r, bytewiseComparator.findShortestSeparator [1, 2, 3] [1, 7] = some r ∧
      bytewiseComparator.compare [1, 2, 3] r ≠ .gt ∧ bytewiseComparator.compare r [1, 7] = .lt ∧
      r.length ≤ 3) ∧
    ∃ r, (internalKeyComparator bytewiseComparator).findShortSuccessor
        [1, 2, 0, 0, 0, 0, 0, 0, 0, 0] = some r ∧
      ShorterOrSame [1, 2, 0, 0, 0, 0, 0, 0, 0, 0] r := by
  obtain ⟨hbytewise, -, -, hsuccessor⟩ := shortening
  exact ⟨hbytewise.separator [1, 2, 3] [1, 7] trivial trivial (by decide),
    hsuccessor [1, 2, 0, 0, 0, 0, 0, 0, 0, 0] (by decide)⟩

end Squirrel
