import Squirrel.Util.Coding
import Squirrel.Util.Comparator
import Squirrel.Util.FilterPolicy

/-!
# Internal keys

Inside the database a user key carries the sequence number of its write and the kind of write,
packed into an eight-byte tag behind it. Internal keys are ordered by user key, then from the
largest tag to the smallest, so that a search for `(u, s)` with the highest type ends at the newest
entry of `u` that is no newer than `s`.

An assertion that fails is `none` where the function has something to return.

## Main results

* `parseInternalKey_encode` — the encoding can be taken apart
* `InternalKeyComparator.compare_eq_compareLex` — the order, in terms of user keys and tags
* `internalKeyComparator_lawful` — shortened internal keys lie where they must
* `internalFilterPolicy_noFalseNegatives` — filters on user keys keep the contract
-/

namespace Squirrel

open Std Coding

/-! ### Encoding -/

inductive ValueType
  | kTypeDeletion
  | kTypeValue
  deriving DecidableEq, Repr

namespace ValueType

/-- The value of the enumerator, embedded in the data on disk. -/
def toNat : ValueType → ℕ
  | kTypeDeletion => 0x0
  | kTypeValue => 0x1

/-- `static_cast<ValueType>`, where it gives one of the enumerators. -/
def ofNat? : ℕ → Option ValueType
  | 0x0 => some kTypeDeletion
  | 0x1 => some kTypeValue
  | _ => none

@[simp] theorem ofNat?_toNat (t : ValueType) : ofNat? t.toNat = some t := by cases t <;> rfl

theorem toNat_le_one (t : ValueType) : t.toNat ≤ 1 := by cases t <;> decide

theorem toNat_inj {t t' : ValueType} (h : t.toNat = t'.toNat) : t = t' := by
  cases t <;> cases t' <;> first | rfl | exact absurd h (by decide)

end ValueType

def kValueTypeForSeek : ValueType := .kTypeValue

def kMaxSequenceNumber : ℕ := (0x1 <<< 56) - 1

structure ParsedInternalKey where
  userKey : Bytes
  sequence : ℕ
  type : ValueType
  deriving DecidableEq, Repr

/-- `(seq << 8) | t`, in 64 bits. -/
def tag (seq : ℕ) (t : ValueType) : ℕ := ((seq <<< 8) ||| t.toNat) % 2 ^ 64

/-- `PackSequenceAndType`. The assertion on the type holds of every enumerator. -/
def packSequenceAndType (seq : ℕ) (t : ValueType) : Option ℕ :=
  if seq ≤ kMaxSequenceNumber then some (tag seq t) else none

/-- `AppendInternalKey`. -/
def appendInternalKey (result : Bytes) (key : ParsedInternalKey) : Option Bytes := do
  some (putFixed64 (result ++ key.userKey) (← packSequenceAndType key.sequence key.type))

/-- `ExtractUserKey`. A key of less than eight bytes fails an assertion; it has no user key here. -/
def extractUserKey (internalKey : Bytes) : Bytes := internalKey.take (internalKey.length - 8)

/-- `DecodeFixed64(key.data() + key.size() - 8)`. -/
def extractTag (internalKey : Bytes) : ℕ :=
  decodeFixed64 (internalKey.drop (internalKey.length - 8))

/-- `ParseInternalKey`. -/
def parseInternalKey (internalKey : Bytes) : Option ParsedInternalKey :=
  let n := internalKey.length
  if n < 8 then none
  else
    let num := extractTag internalKey
    let c := num &&& 0xff
    (ValueType.ofNat? c).map fun type => ⟨extractUserKey internalKey, num >>> 8, type⟩

/-- The bytes of an internal key: user key, then tag. -/
def encodeInternalKey (userKey : Bytes) (seq : ℕ) (t : ValueType) : Bytes :=
  userKey ++ encodeFixed64 (tag seq t)

@[simp] theorem length_encodeInternalKey (u : Bytes) (seq : ℕ) (t : ValueType) :
    (encodeInternalKey u seq t).length = u.length + 8 := by
  simp [encodeInternalKey]

theorem tag_eq {seq : ℕ} (h : seq ≤ kMaxSequenceNumber) (t : ValueType) :
    tag seq t = seq * 256 + t.toNat := by
  have ht := t.toNat_le_one
  have hseq : seq < 2 ^ 56 := Nat.lt_of_le_of_lt h (by decide)
  rw [tag, Nat.or_comm, LittleEndian.or_shiftLeft seq (by omega)]
  omega

theorem tag_lt (seq : ℕ) (t : ValueType) : tag seq t < 2 ^ 64 := Nat.mod_lt _ (by decide)

/-- Tags are ordered by sequence number, then by type. -/
theorem tag_lt_tag_iff {seq seq' : ℕ} (h : seq ≤ kMaxSequenceNumber)
    (h' : seq' ≤ kMaxSequenceNumber) (t t' : ValueType) :
    tag seq t < tag seq' t' ↔ seq < seq' ∨ seq = seq' ∧ t.toNat < t'.toNat := by
  have ht := t.toNat_le_one
  have ht' := t'.toNat_le_one
  rw [tag_eq h, tag_eq h']
  omega

theorem tag_inj {seq seq' : ℕ} (h : seq ≤ kMaxSequenceNumber) (h' : seq' ≤ kMaxSequenceNumber)
    {t t' : ValueType} (heq : tag seq t = tag seq' t') : seq = seq' ∧ t = t' := by
  have ht := t.toNat_le_one
  have ht' := t'.toNat_le_one
  rw [tag_eq h, tag_eq h'] at heq
  exact ⟨by omega, ValueType.toNat_inj (by omega)⟩

theorem tag_and_0xff {seq : ℕ} (h : seq ≤ kMaxSequenceNumber) (t : ValueType) :
    tag seq t &&& 0xff = t.toNat := by
  have ht := t.toNat_le_one
  rw [tag_eq h, show (0xff : ℕ) = 2 ^ 8 - 1 from rfl, Nat.and_two_pow_sub_one_eq_mod]
  omega

@[simp] theorem extractUserKey_encode (u : Bytes) (seq : ℕ) (t : ValueType) :
    extractUserKey (encodeInternalKey u seq t) = u := by
  rw [extractUserKey, length_encodeInternalKey, Nat.add_sub_cancel, encodeInternalKey,
    List.take_left' rfl]

@[simp] theorem extractTag_encode (u : Bytes) (seq : ℕ) (t : ValueType) :
    extractTag (encodeInternalKey u seq t) = tag seq t := by
  rw [extractTag, length_encodeInternalKey, Nat.add_sub_cancel, encodeInternalKey,
    List.drop_left' rfl, ← List.append_nil (encodeFixed64 _), decodeFixed64_encodeFixed64,
    Nat.mod_eq_of_lt (tag_lt seq t)]

theorem appendInternalKey_eq {key : ParsedInternalKey} (h : key.sequence ≤ kMaxSequenceNumber)
    (result : Bytes) :
    appendInternalKey result key
      = some (result ++ encodeInternalKey key.userKey key.sequence key.type) := by
  simp [appendInternalKey, packSequenceAndType, h, putFixed64, encodeInternalKey]

theorem parseInternalKey_encode {seq : ℕ} (h : seq ≤ kMaxSequenceNumber) (u : Bytes)
    (t : ValueType) : parseInternalKey (encodeInternalKey u seq t) = some ⟨u, seq, t⟩ := by
  have ht := t.toNat_le_one
  have hshift : tag seq t >>> 8 = seq := by
    rw [tag_eq h, Nat.shiftRight_eq_div_pow]
    omega
  simp [parseInternalKey, tag_and_0xff h, hshift]

/-! ### The order -/

namespace InternalKeyComparator

/-- `InternalKeyComparator::Compare`. -/
def compare (c : Comparator) (akey bkey : Bytes) : Ordering :=
  let r := c.compare (extractUserKey akey) (extractUserKey bkey)
  if r = .eq then
    let anum := extractTag akey
    let bnum := extractTag bkey
    if anum > bnum then .lt else if anum < bnum then .gt else r
  else r

/-- `InternalKeyComparator::FindShortestSeparator`. -/
def findShortestSeparator (c : Comparator) (start limit : Bytes) : Option Bytes := do
  if start.length < 8 ∨ limit.length < 8 then none
  else
    let userStart := extractUserKey start
    let tmp ← c.findShortestSeparator userStart (extractUserKey limit)
    if tmp.length < userStart.length ∧ c.compare userStart tmp = .lt then
      let tmp := putFixed64 tmp (← packSequenceAndType kMaxSequenceNumber kValueTypeForSeek)
      if compare c start tmp = .lt ∧ compare c tmp limit = .lt then some tmp else none
    else some start

/-- `InternalKeyComparator::FindShortSuccessor`. -/
def findShortSuccessor (c : Comparator) (key : Bytes) : Option Bytes := do
  if key.length < 8 then none
  else
    let userKey := extractUserKey key
    let tmp ← c.findShortSuccessor userKey
    if tmp.length < userKey.length ∧ c.compare userKey tmp = .lt then
      let tmp := putFixed64 tmp (← packSequenceAndType kMaxSequenceNumber kValueTypeForSeek)
      if compare c key tmp = .lt then some tmp else none
    else some key

end InternalKeyComparator

/-- `InternalKeyComparator(c)`. -/
def internalKeyComparator (c : Comparator) : Comparator where
  compare := InternalKeyComparator.compare c
  findShortestSeparator := InternalKeyComparator.findShortestSeparator c
  findShortSuccessor := InternalKeyComparator.findShortSuccessor c

theorem compare_internalKeyComparator (c : Comparator) :
    (internalKeyComparator c).compare = InternalKeyComparator.compare c := rfl

theorem findShortestSeparator_internalKeyComparator (c : Comparator) :
    (internalKeyComparator c).findShortestSeparator
      = InternalKeyComparator.findShortestSeparator c := rfl

theorem findShortSuccessor_internalKeyComparator (c : Comparator) :
    (internalKeyComparator c).findShortSuccessor = InternalKeyComparator.findShortSuccessor c := rfl

namespace InternalKeyComparator

variable {c : Comparator}

/-- The order is that of the user keys, then that of the tags turned round. -/
theorem compare_eq_compareLex (c : Comparator) :
    compare c = compareLex (fun a b => c.compare (extractUserKey a) (extractUserKey b))
      (fun a b => Ord.compare (extractTag b) (extractTag a)) := by
  funext a b
  simp only [compare, compareLex]
  cases hr : c.compare (extractUserKey a) (extractUserKey b) with
  | lt => rfl
  | gt => rfl
  | eq =>
    rcases Nat.lt_trichotomy (extractTag a) (extractTag b) with hlt | heq | hgt
    · simp [Nat.compare_eq_gt.mpr hlt, Nat.lt_asymm hlt, hlt]
    · simp [heq]
    · simp [Nat.compare_eq_lt.mpr hgt, hgt]

instance [TransCmp c.compare] : TransCmp (compare c) := by
  have huser : TransCmp fun a b => c.compare (extractUserKey a) (extractUserKey b) :=
    transCmp_comap c.compare extractUserKey
  have htag : TransCmp fun a b => Ord.compare (extractTag b) (extractTag a) :=
    @TransCmp.opposite _ _ (transCmp_comap Ord.compare extractTag)
  rw [compare_eq_compareLex]
  infer_instance

theorem compare_of_user_lt {a b : Bytes}
    (h : c.compare (extractUserKey a) (extractUserKey b) = .lt) : compare c a b = .lt := by
  simp [compare, h]

/-- The order of internal keys with user keys that compare equal. -/
theorem compare_of_user_eq {a b : Bytes}
    (h : c.compare (extractUserKey a) (extractUserKey b) = .eq) :
    compare c a b = Ord.compare (extractTag b) (extractTag a) := by
  rw [compare_eq_compareLex, compareLex, h, Ordering.eq_then]

theorem user_ne_gt {a b : Bytes} (h : compare c a b ≠ .gt) :
    c.compare (extractUserKey a) (extractUserKey b) ≠ .gt := by
  intro hgt
  simp [compare, hgt] at h

/-- A user key that goes up takes its internal key up, whatever tag it is given. -/
theorem compare_encode_of_lt {a u : Bytes} (h : c.compare (extractUserKey a) u = .lt) (seq : ℕ)
    (t : ValueType) : compare c a (encodeInternalKey u seq t) = .lt :=
  compare_of_user_lt (by rwa [extractUserKey_encode])

/-- Internal keys of one user key go from the newest to the oldest. -/
theorem compare_encode_self [ReflCmp c.compare] (u : Bytes) (seq seq' : ℕ) (t t' : ValueType) :
    compare c (encodeInternalKey u seq t) (encodeInternalKey u seq' t')
      = Ord.compare (tag seq' t') (tag seq t) := by
  have heq : c.compare u u = .eq := ReflCmp.compare_self
  rw [compare_of_user_eq (by rwa [extractUserKey_encode, extractUserKey_encode]),
    extractTag_encode, extractTag_encode]

/-- The seek key of `(u, s)` is before exactly the entries of `u` that are newer than `s`. -/
theorem compare_seek_eq_lt_iff [ReflCmp c.compare] (u : Bytes) {seq s : ℕ} (t : ValueType)
    (hseq : seq ≤ kMaxSequenceNumber) (hs : s ≤ kMaxSequenceNumber) :
    compare c (encodeInternalKey u seq t) (encodeInternalKey u s kValueTypeForSeek) = .lt ↔
      s < seq := by
  have ht := t.toNat_le_one
  have hseek : kValueTypeForSeek.toNat = 1 := rfl
  rw [compare_encode_self, Nat.compare_eq_lt, tag_lt_tag_iff hs hseq]
  omega

/-- Between a seek key of `u` and an entry of `u` there are only entries of `u`. -/
theorem userKey_of_between [TransCmp c.compare] [LawfulEqCmp c.compare] {a k b : Bytes}
    (hka : compare c a k ≠ .lt) (hab : compare c a b ≠ .gt)
    (hu : extractUserKey b = extractUserKey k) : extractUserKey a = extractUserKey k := by
  have hle : c.compare (extractUserKey a) (extractUserKey k) ≠ .gt := hu ▸ user_ne_gt hab
  cases hcmp : c.compare (extractUserKey a) (extractUserKey k) with
  | lt => exact absurd (compare_of_user_lt hcmp) hka
  | eq => exact LawfulEqCmp.compare_eq_iff_eq.mp hcmp
  | gt => exact absurd hcmp hle

theorem compare_self_ne_gt [TransCmp c.compare] (k : Bytes) : compare c k k ≠ .gt := by
  have heq : compare c k k = .eq := ReflCmp.compare_self
  rw [heq]
  decide

/-- With bytewise user keys, the separator is the start, or a shorter user key properly between the
two with the highest tag. Either way no assertion fails. -/
theorem findShortestSeparator_shapes {start limit : Bytes} (hstart : 8 ≤ start.length)
    (hlimit : 8 ≤ limit.length) :
    findShortestSeparator bytewiseComparator start limit = some start ∨
      ∃ user, findShortestSeparator bytewiseComparator start limit
          = some (encodeInternalKey user kMaxSequenceNumber kValueTypeForSeek) ∧
        user.length < (extractUserKey start).length ∧
        bytewiseComparator.compare (extractUserKey start) user = .lt ∧
        bytewiseComparator.compare user (extractUserKey limit) = .lt := by
  have hsize : ¬ (start.length < 8 ∨ limit.length < 8) := by omega
  rw [findShortestSeparator, if_neg hsize]
  dsimp only
  rcases BytewiseComparator.findShortestSeparator_cases (extractUserKey start)
      (extractUserKey limit) with hsep | ⟨user, hsep, hlo, hhi⟩
  · left
    have hsep' : bytewiseComparator.findShortestSeparator (extractUserKey start)
        (extractUserKey limit) = some (extractUserKey start) := hsep
    rw [hsep', Option.bind_eq_bind, Option.bind_some, if_neg fun h => Nat.lt_irrefl _ h.1]
  · have hsep' : bytewiseComparator.findShortestSeparator (extractUserKey start)
        (extractUserKey limit) = some user := hsep
    rw [← compare_bytewiseComparator] at hlo hhi
    rw [hsep', Option.bind_eq_bind, Option.bind_some]
    by_cases hshort : user.length < (extractUserKey start).length
    · right
      refine ⟨user, ?_, hshort, hlo, hhi⟩
      have hlo' : compare bytewiseComparator start
          (encodeInternalKey user kMaxSequenceNumber kValueTypeForSeek) = .lt :=
        compare_encode_of_lt hlo _ _
      have hhi' : compare bytewiseComparator
          (encodeInternalKey user kMaxSequenceNumber kValueTypeForSeek) limit = .lt :=
        compare_of_user_lt (by rw [extractUserKey_encode]; exact hhi)
      rw [if_pos ⟨hshort, hlo⟩, packSequenceAndType, if_pos le_rfl, Option.bind_eq_bind,
        Option.bind_some]
      exact if_pos ⟨hlo', hhi'⟩
    · left
      exact if_neg fun h => hshort h.1

/-- With bytewise user keys, the separator is in `[start, limit)` and no assertion fails. -/
theorem findShortestSeparator_bytewise {start limit : Bytes} (hstart : 8 ≤ start.length)
    (hlimit : 8 ≤ limit.length) (hlt : compare bytewiseComparator start limit = .lt) :
    ∃ sep, findShortestSeparator bytewiseComparator start limit = some sep ∧
      compare bytewiseComparator start sep ≠ .gt ∧ compare bytewiseComparator sep limit = .lt := by
  have htrans := bytewiseComparator_lawful.trans
  rcases findShortestSeparator_shapes hstart hlimit with h | ⟨user, h, -, hlo, hhi⟩
  · exact ⟨start, h, compare_self_ne_gt start, hlt⟩
  · refine ⟨_, h, ?_, compare_of_user_lt (by rw [extractUserKey_encode]; exact hhi)⟩
    rw [compare_encode_of_lt hlo]
    decide

/-- The separator is the start itself, or it has a user key of its own. -/
theorem findShortestSeparator_cases {start limit sep : Bytes}
    (h : findShortestSeparator bytewiseComparator start limit = some sep) :
    sep = start ∨ bytewiseComparator.compare (extractUserKey sep) (extractUserKey limit) = .lt := by
  by_cases hsize : start.length < 8 ∨ limit.length < 8
  · rw [findShortestSeparator, if_pos hsize] at h
    cases h
  · have hstart : 8 ≤ start.length := by omega
    have hlimit : 8 ≤ limit.length := by omega
    rcases findShortestSeparator_shapes hstart hlimit with h' | ⟨user, h', -, -, hhi⟩
    · left
      exact Option.some.inj (h.symm.trans h')
    · right
      rw [Option.some.inj (h.symm.trans h'), extractUserKey_encode]
      exact hhi

/-- With bytewise user keys, the successor is the key, or a shorter and larger user key with the
highest tag. No assertion fails. -/
theorem findShortSuccessor_shapes {key : Bytes} (hkey : 8 ≤ key.length) :
    findShortSuccessor bytewiseComparator key = some key ∨
      ∃ user, findShortSuccessor bytewiseComparator key
          = some (encodeInternalKey user kMaxSequenceNumber kValueTypeForSeek) ∧
        user.length < (extractUserKey key).length ∧
        bytewiseComparator.compare (extractUserKey key) user = .lt := by
  have hsucc : bytewiseComparator.findShortSuccessor (extractUserKey key)
      = some (BytewiseComparator.findShortSuccessor (extractUserKey key)) := rfl
  rw [findShortSuccessor, if_neg (Nat.not_lt.mpr hkey)]
  dsimp only
  rw [hsucc, Option.bind_eq_bind, Option.bind_some]
  by_cases hcond : (BytewiseComparator.findShortSuccessor (extractUserKey key)).length
      < (extractUserKey key).length ∧ bytewiseComparator.compare (extractUserKey key)
        (BytewiseComparator.findShortSuccessor (extractUserKey key)) = .lt
  · right
    refine ⟨_, ?_, hcond⟩
    rw [if_pos hcond, packSequenceAndType, if_pos le_rfl, Option.bind_eq_bind, Option.bind_some]
    exact if_pos (compare_encode_of_lt hcond.2 _ _)
  · left
    exact if_neg hcond

theorem findShortSuccessor_bytewise {key : Bytes} (hkey : 8 ≤ key.length) :
    ∃ succ, findShortSuccessor bytewiseComparator key = some succ ∧
      compare bytewiseComparator key succ ≠ .gt := by
  have htrans := bytewiseComparator_lawful.trans
  rcases findShortSuccessor_shapes hkey with h | ⟨user, h, -, hlo⟩
  · exact ⟨key, h, compare_self_ne_gt key⟩
  · refine ⟨_, h, ?_⟩
    rw [compare_encode_of_lt hlo]
    decide

end InternalKeyComparator

/-- **Internal keys over bytewise user keys.** Separators and successors are where tables need them,
for keys long enough to have a tag. -/
theorem internalKeyComparator_lawful :
    (internalKeyComparator bytewiseComparator).Lawful fun k => 8 ≤ k.length where
  trans := by
    have htrans := bytewiseComparator_lawful.trans
    exact inferInstanceAs (TransCmp (InternalKeyComparator.compare bytewiseComparator))
  separator := by
    intro start limit hstart hlimit hlt
    rw [compare_internalKeyComparator] at hlt ⊢
    rw [findShortestSeparator_internalKeyComparator]
    exact InternalKeyComparator.findShortestSeparator_bytewise hstart hlimit hlt
  successor := by
    intro key hkey
    rw [compare_internalKeyComparator, findShortSuccessor_internalKeyComparator]
    exact InternalKeyComparator.findShortSuccessor_bytewise hkey

/-! ### Filters -/

/-- `InternalFilterPolicy(p)`: the policy on user keys. `CreateFilter` overwrites as many keys of
the array as it is told that there are. -/
def internalFilterPolicy (p : FilterPolicy) : FilterPolicy where
  name := p.name
  createFilter keys n dst :=
    p.createFilter ((keys.take n.toNat).map extractUserKey ++ keys.drop n.toNat) n dst
  keyMayMatch key f := p.keyMayMatch (extractUserKey key) f

theorem internalFilterPolicy_noFalseNegatives {p : FilterPolicy} (h : p.NoFalseNegatives) :
    (internalFilterPolicy p).NoFalseNegatives where
  appends keys n dst := h.appends _ n dst
  accepts keys hcount dst := by
    have hcount' : (keys.map extractUserKey).length < 2 ^ 31 := by
      rwa [List.length_map]
    obtain ⟨filter, hcreate, hmatch⟩ := h.accepts (keys.map extractUserKey) hcount' dst
    refine ⟨filter, ?_, fun key hkey => hmatch _ (List.mem_map_of_mem hkey)⟩
    rw [List.length_map] at hcreate
    simp only [internalFilterPolicy, Int.toNat_natCast, List.take_length, List.drop_length,
      List.append_nil, hcreate]

/-! ### Lookups -/

/-- A `LookupKey`: the array from `start_` to `end_`, and the part of it from `kstart_` on. -/
structure LookupKey where
  memtableKey : Bytes
  internalKey : Bytes

/-- `LookupKey(user_key, s)`. The length is converted to `uint32_t`. -/
def LookupKey.new (userKey : Bytes) (s : ℕ) : Option LookupKey := do
  let usize := userKey.length
  let kstart := userKey ++ encodeFixed64 (← packSequenceAndType s kValueTypeForSeek)
  some ⟨encodeVarint32 ((usize + 8) % 2 ^ 32) ++ kstart, kstart⟩

/-- `user_key()`. -/
def LookupKey.userKey (k : LookupKey) : Bytes := k.internalKey.take (k.internalKey.length - 8)

theorem LookupKey.new_eq {u : Bytes} {s : ℕ} (hu : u.length + 8 < 2 ^ 32)
    (hs : s ≤ kMaxSequenceNumber) :
    LookupKey.new u s
      = some ⟨encodeVarint32 (u.length + 8) ++ encodeInternalKey u s kValueTypeForSeek,
      encodeInternalKey u s kValueTypeForSeek⟩ := by
  simp only [new, Nat.mod_eq_of_lt hu]
  simp [packSequenceAndType, hs, encodeInternalKey]

end Squirrel
