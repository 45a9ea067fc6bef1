import Squirrel.Lib.Decimal

/-!
# File names

The names of the files of a database, and `ParseFileName`, which takes them apart. A number is
written with at least six digits and read with any number of them, up to the largest value of 64
bits.

`ConsumeDecimalNumber` tests for overflow of the value before each step. It also counts the digits,
in an `int`. Leading zeros are digits and never make the value overflow, so a name may have more
digits than an `int` can count; incrementing the count is then undefined, and so is the result here.

`Names` is the grammar, independent of the parser.

## Main results

* `consumeLoop_cases` — what is consumed, by value
* `parseFileName_of_names`, `parseFileName_of_not_names` — the parser accepts exactly the grammar
* `parseFileName_spec` — for exactly the names with not too many digits
-/

namespace Squirrel

open Decimal

inductive FileType
  | kLogFile
  | kDBLockFile
  | kTableFile
  | kDescriptorFile
  | kCurrentFile
  | kTempFile
  | kInfoLogFile
  deriving DecidableEq, Repr

/-! ### Making names -/

/-- `MakeFileName`: `"/%06llu.%s"` behind the name. -/
def makeFileName (name : Bytes) (number : ℕ) (suffix : Bytes) : Bytes :=
  name ++ (ascii "/" ++ (padded 6 number ++ (ascii "." ++ suffix)))

/-- A function with the assertion that the number is not zero. -/
def withNumber (number : ℕ) (name : Bytes) : Option Bytes := if 0 < number then some name else none

def logFileName (name : Bytes) (number : ℕ) : Option Bytes :=
  withNumber number (makeFileName name number (ascii "log"))

def tableFileName (name : Bytes) (number : ℕ) : Option Bytes :=
  withNumber number (makeFileName name number (ascii "ldb"))

def sstTableFileName (name : Bytes) (number : ℕ) : Option Bytes :=
  withNumber number (makeFileName name number (ascii "sst"))

def descriptorFileName (dbname : Bytes) (number : ℕ) : Option Bytes :=
  withNumber number (dbname ++ (ascii "/MANIFEST-" ++ padded 6 number))

def currentFileName (dbname : Bytes) : Bytes := dbname ++ ascii "/CURRENT"

def tempFileName (dbname : Bytes) (number : ℕ) : Option Bytes :=
  withNumber number (makeFileName dbname number (ascii "dbtmp"))

/-! ### `ConsumeDecimalNumber` -/

def kMaxUint64 : ℕ := 2 ^ 64 - 1

/-- The largest `int`. -/
def kMaxInt : ℕ := 2 ^ 31 - 1

/-- The loop of `ConsumeDecimalNumber`: `some none` is the return on overflow of the value, else the
value, the number of digits and the rest of the input. Nothing if the count overflows. -/
def consumeLoop (v digits : ℕ) : Bytes → Option (Option (ℕ × ℕ × Bytes))
  | [] => some (some (v, digits, []))
  | c :: rest =>
    if isDigit c then
      if digits = kMaxInt then none
      else
        let delta := c.toNat - 48
        if kMaxUint64 / 10 < v ∨ v = kMaxUint64 / 10 ∧ kMaxUint64 % 10 < delta then some none
        else consumeLoop (v * 10 + delta) (digits + 1) rest
    else some (some (v, digits, c :: rest))

/-- `ConsumeDecimalNumber`: the value and the rest of the input, if it returns true. -/
def consumeDecimalNumber (input : Bytes) : Option (Option (ℕ × Bytes)) :=
  match consumeLoop 0 0 input with
  | none => none
  | some none => some none
  | some (some (v, digits, rest)) => if 0 < digits then some (some (v, rest)) else some none

/-! ### `ParseFileName` -/

/-- The type that a suffix stands for. -/
def suffixType (suffix : Bytes) : Option FileType :=
  if suffix = ascii ".log" then some .kLogFile
  else if suffix = ascii ".sst" ∨ suffix = ascii ".ldb" then some .kTableFile
  else if suffix = ascii ".dbtmp" then some .kTempFile
  else none

/-- `ParseFileName`: what it returns, and `*number` and `*type` afterwards. -/
def parseFileName (fname : Bytes) (number : ℕ) (type : FileType) : Option (Bool × ℕ × FileType) :=
  if fname = ascii "CURRENT" then some (true, 0, .kCurrentFile)
  else if fname = ascii "LOCK" then some (true, 0, .kDBLockFile)
  else if fname = ascii "LOG" ∨ fname = ascii "LOG.old" then some (true, 0, .kInfoLogFile)
  else if ascii "MANIFEST-" <+: fname then
    match consumeDecimalNumber (fname.drop (ascii "MANIFEST-").length) with
    | none => none
    | some none => some (false, number, type)
    | some (some (num, rest)) =>
      if rest ≠ [] then some (false, number, type) else some (true, num, .kDescriptorFile)
  else
    match consumeDecimalNumber fname with
    | none => none
    | some none => some (false, number, type)
    | some (some (num, suffix)) =>
      match suffixType suffix with
      | some type => some (true, num, type)
      | none => some (false, number, type)

/-! ### The grammar -/

/-- `[0-9]+`, with a value of at most 64 bits. -/
structure IsNumber (ds : Bytes) : Prop where
  ne_nil : ds ≠ []
  isDigit : ∀ c ∈ ds, isDigit c = true
  value_le : value ds ≤ kMaxUint64

/-- The names of the files of a database, with their numbers and types. -/
inductive Names : Bytes → ℕ → FileType → Prop
  | current : Names (ascii "CURRENT") 0 .kCurrentFile
  | lock : Names (ascii "LOCK") 0 .kDBLockFile
  | infoLog : Names (ascii "LOG") 0 .kInfoLogFile
  | oldInfoLog : Names (ascii "LOG.old") 0 .kInfoLogFile
  | descriptor {ds : Bytes} (h : IsNumber ds) :
    Names (ascii "MANIFEST-" ++ ds) (value ds) .kDescriptorFile
  | log {ds : Bytes} (h : IsNumber ds) : Names (ds ++ ascii ".log") (value ds) .kLogFile
  | sst {ds : Bytes} (h : IsNumber ds) : Names (ds ++ ascii ".sst") (value ds) .kTableFile
  | ldb {ds : Bytes} (h : IsNumber ds) : Names (ds ++ ascii ".ldb") (value ds) .kTableFile
  | temp {ds : Bytes} (h : IsNumber ds) : Names (ds ++ ascii ".dbtmp") (value ds) .kTempFile

/-! ### What is consumed -/

/-- The test in front of each step is whether the next value is too large. -/
theorem overflow_iff {v delta : ℕ} (h : delta ≤ 9) :
    (kMaxUint64 / 10 < v ∨ v = kMaxUint64 / 10 ∧ kMaxUint64 % 10 < delta) ↔
      kMaxUint64 < v * 10 + delta := by
  rw [show kMaxUint64 = 18446744073709551615 from rfl]
  omega

/-- `input` starts with one digit more than can be counted, the others of which are no overflow. -/
def TooManyDigits (input : Bytes) : Prop :=
  ∃ ds c rest, input = ds ++ c :: rest ∧ (∀ d ∈ ds, isDigit d = true) ∧ isDigit c = true ∧
    ds.length = kMaxInt ∧ value ds ≤ kMaxUint64

theorem isDigit_sub_le {c : UInt8} (h : isDigit c = true) : c.toNat - 48 ≤ 9 := by
  rw [isDigit_iff] at h
  omega

theorem consumeLoop_eq_none {ds rest : Bytes} {c : UInt8} {v digits : ℕ}
    (hds : ∀ d ∈ ds, isDigit d = true) (hc : isDigit c = true)
    (hlen : digits + ds.length = kMaxInt) (hvalue : ds.foldl push v ≤ kMaxUint64) :
    consumeLoop v digits (ds ++ c :: rest) = none := by
  induction ds generalizing v digits with
  | nil =>
    rw [List.nil_append, consumeLoop, if_pos hc]
    exact if_pos hlen
  | cons d ds ih =>
    have hd := hds d List.mem_cons_self
    have hle := le_foldl_push ds (push v d)
    rw [List.foldl_cons] at hvalue
    rw [List.length_cons] at hlen
    rw [List.cons_append, consumeLoop, if_pos hd, if_neg (by omega)]
    dsimp only
    rw [if_neg (by rw [overflow_iff (isDigit_sub_le hd)]; rw [push] at hle hvalue; omega)]
    exact ih (fun e he => hds e (List.mem_cons_of_mem d he)) (by omega) hvalue

/-- **What is consumed.** The loop gives up for too many digits or too large a value, and else takes
the whole run of digits. -/
theorem consumeLoop_cases (input : Bytes) (v digits : ℕ) (hv : v ≤ kMaxUint64)
    (hdigits : digits ≤ kMaxInt) :
    (∃ ds c rest, input = ds ++ c :: rest ∧ (∀ d ∈ ds, isDigit d = true) ∧ isDigit c = true ∧
      digits + ds.length = kMaxInt ∧ ds.foldl push v ≤ kMaxUint64) ∨
    kMaxUint64 < (input.takeWhile isDigit).foldl push v ∧
      consumeLoop v digits input = some none ∨
    (input.takeWhile isDigit).foldl push v ≤ kMaxUint64 ∧
      consumeLoop v digits input = some (some ((input.takeWhile isDigit).foldl push v,
        digits + (input.takeWhile isDigit).length, input.dropWhile isDigit)) := by
  induction input generalizing v digits with
  | nil => exact .inr (.inr ⟨hv, rfl⟩)
  | cons c input ih =>
    rw [consumeLoop]
    by_cases hc : isDigit c = true
    · rw [if_pos hc, List.takeWhile_cons_of_pos hc, List.dropWhile_cons_of_pos hc, List.foldl_cons,
        List.length_cons]
      by_cases hlast : digits = kMaxInt
      · exact .inl ⟨[], c, input, rfl, (by simp), hc, hlast, hv⟩
      · rw [if_neg hlast]
        dsimp only
        have hoverflow := overflow_iff (v := v) (isDigit_sub_le hc)
        by_cases hlarge : kMaxUint64 < v * 10 + (c.toNat - 48)
        · rw [if_pos (hoverflow.mpr hlarge)]
          exact .inr (.inl ⟨hlarge.trans_le (le_foldl_push _ _), rfl⟩)
        · rw [if_neg (mt hoverflow.mp hlarge)]
          rcases ih (v * 10 + (c.toNat - 48)) (digits + 1) (by omega) (by omega) with
            ⟨ds, d, rest, rfl, hds, hd, hlen, hvalue⟩ | h | ⟨hle, h⟩
          · refine .inl ⟨c :: ds, d, rest, rfl, ?_, hd, ?_, hvalue⟩
            · exact fun e he => (List.mem_cons.mp he).elim (fun heq => heq ▸ hc) (hds e)
            · rw [List.length_cons]
              omega
          · exact .inr (.inl h)
          · refine .inr (.inr ⟨hle, h.trans ?_⟩)
            rw [Nat.add_assoc, Nat.add_comm 1]
            rfl
    · rw [if_neg hc, List.takeWhile_cons_of_neg hc, List.dropWhile_cons_of_neg hc]
      exact .inr (.inr ⟨hv, rfl⟩)

/-- `ConsumeDecimalNumber`, if there are not too many digits: the run of digits, if it is a
number. -/
theorem consumeDecimalNumber_eq {input : Bytes} (h : ¬ TooManyDigits input) :
    IsNumber (input.takeWhile isDigit) ∧
      consumeDecimalNumber input
        = some (some (value (input.takeWhile isDigit), input.dropWhile isDigit)) ∨
    ¬ IsNumber (input.takeWhile isDigit) ∧ consumeDecimalNumber input = some none := by
  have hrun : ∀ c ∈ input.takeWhile isDigit, isDigit c = true :=
    List.all_eq_true.mp List.all_takeWhile
  rw [consumeDecimalNumber]
  rcases consumeLoop_cases input 0 0 (Nat.zero_le _) (Nat.zero_le _) with
    ⟨ds, c, rest, heq, hds, hc, hlen, hvalue⟩ | ⟨hlarge, hloop⟩ | ⟨hle, hloop⟩
  · exact absurd ⟨ds, c, rest, heq, hds, hc, by omega, hvalue⟩ h
  · rw [hloop]
    exact .inr ⟨fun hn => absurd hlarge (Nat.not_lt.mpr hn.value_le), rfl⟩
  · rw [hloop, Nat.zero_add]
    dsimp only
    by_cases hnil : input.takeWhile isDigit = []
    · rw [hnil]
      exact .inr ⟨fun hn => hn.ne_nil rfl, rfl⟩
    · rw [if_pos (List.length_pos_iff.mpr hnil)]
      exact .inl ⟨⟨hnil, hrun, hle⟩, rfl⟩

theorem consumeDecimalNumber_eq_none {input : Bytes} (h : TooManyDigits input) :
    consumeDecimalNumber input = none := by
  obtain ⟨ds, c, rest, rfl, hds, hc, hlen, hvalue⟩ := h
  rw [consumeDecimalNumber, consumeLoop_eq_none hds hc (by omega) hvalue]

/-! ### The parser and the grammar -/

/-- Where the parser looks for a number. -/
def numberPart (fname : Bytes) : Bytes :=
  if ascii "MANIFEST-" <+: fname then fname.drop (ascii "MANIFEST-").length else fname

/-- A name that starts with a digit is none of the others. -/
theorem parseFileName_of_isDigit {c : UInt8} (rest : Bytes) (hc : isDigit c = true) (number : ℕ)
    (type : FileType) :
    parseFileName (c :: rest) number type =
      (match consumeDecimalNumber (c :: rest) with
      | none => none
      | some none => some (false, number, type)
      | some (some (num, suffix)) =>
        match suffixType suffix with
        | some type => some (true, num, type)
        | none => some (false, number, type)) ∧
    numberPart (c :: rest) = c :: rest := by
  have hne : ∀ s : Bytes, s.head?.map isDigit ≠ some true → c :: rest ≠ s := by
    rintro s hs rfl
    exact hs (congrArg some hc)
  have hprefix : ¬ ascii "MANIFEST-" <+: c :: rest := by
    rintro ⟨more, heq⟩
    have hletter : (ascii "MANIFEST-" ++ more).head?.map isDigit = some false := rfl
    exact hne _ (by rw [hletter]; decide) heq.symm
  constructor
  · rw [parseFileName, if_neg (hne (ascii "CURRENT") (by decide)),
      if_neg (hne (ascii "LOCK") (by decide)),
      if_neg (not_or.mpr ⟨hne (ascii "LOG") (by decide), hne (ascii "LOG.old") (by decide)⟩),
      if_neg hprefix]
  · rw [numberPart, if_neg hprefix]

/-- A name that starts with `MANIFEST-` is none of the fixed ones. -/
theorem parseFileName_of_manifest (ds : Bytes) (number : ℕ) (type : FileType) :
    parseFileName (ascii "MANIFEST-" ++ ds) number type =
      (match consumeDecimalNumber ds with
      | none => none
      | some none => some (false, number, type)
      | some (some (num, rest)) =>
        if rest ≠ [] then some (false, number, type) else some (true, num, .kDescriptorFile)) ∧
    numberPart (ascii "MANIFEST-" ++ ds) = ds := by
  have hprefix : ascii "MANIFEST-" <+: ascii "MANIFEST-" ++ ds := List.prefix_append _ _
  have hne : ∀ s : Bytes, s.head? ≠ some 77 → ascii "MANIFEST-" ++ ds ≠ s := by
    rintro s hs rfl
    exact hs rfl
  constructor
  · rw [parseFileName, if_neg (hne (ascii "CURRENT") (by decide)),
      if_neg (hne (ascii "LOCK") (by decide)),
      if_neg (not_or.mpr ⟨hne (ascii "LOG") (by decide), hne (ascii "LOG.old") (by decide)⟩),
      if_pos hprefix, List.drop_left]
  · rw [numberPart, if_pos hprefix, List.drop_left]

/-- A number in front of a suffix. -/
theorem parseFileName_of_suffix {ds suffix : Bytes} {t : FileType} (hds : IsNumber ds)
    (hends : EndsRun suffix) (htype : suffixType suffix = some t)
    (hfew : ¬ TooManyDigits (numberPart (ds ++ suffix))) (number : ℕ) (type : FileType) :
    parseFileName (ds ++ suffix) number type = some (true, value ds, t) := by
  obtain ⟨c, rest, rfl⟩ := List.exists_cons_of_ne_nil hds.ne_nil
  have hparse := parseFileName_of_isDigit (rest ++ suffix) (hds.isDigit c List.mem_cons_self)
    number type
  rw [List.cons_append, hparse.2] at hfew
  rw [List.cons_append, hparse.1]
  have htake := takeWhile_append hds.isDigit hends
  have hdrop := dropWhile_append hds.isDigit hends
  rw [List.cons_append] at htake hdrop
  rcases consumeDecimalNumber_eq hfew with ⟨-, heq⟩ | ⟨hnot, -⟩
  · rw [heq, htake, hdrop]
    dsimp only
    rw [htype]
  · rw [htake] at hnot
    exact absurd hds hnot

/-- **What the grammar has, the parser accepts.** -/
theorem parseFileName_of_names {fname : Bytes} {n : ℕ} {t : FileType} (h : Names fname n t)
    (hfew : ¬ TooManyDigits (numberPart fname)) (number : ℕ) (type : FileType) :
    parseFileName fname number type = some (true, n, t) := by
  have hdot : ∀ s : Bytes, EndsRun (46 :: s) := by
    rintro s c ⟨⟩
    rfl
  cases h with
  | current => rfl
  | lock => rfl
  | infoLog => rfl
  | oldInfoLog => rfl
  | @descriptor ds hds =>
    have hparse := parseFileName_of_manifest ds number type
    rw [hparse.2] at hfew
    have hends : EndsRun [] := fun _ hc => by cases hc
    have htake := takeWhile_append hds.isDigit hends
    have hdrop := dropWhile_append hds.isDigit hends
    rw [List.append_nil] at htake hdrop
    rw [hparse.1]
    rcases consumeDecimalNumber_eq hfew with ⟨-, heq⟩ | ⟨hnot, -⟩
    · rw [heq, htake, hdrop]
      rfl
    · rw [htake] at hnot
      exact absurd hds hnot
  | log hds => exact parseFileName_of_suffix hds (hdot _) rfl hfew number type
  | sst hds => exact parseFileName_of_suffix hds (hdot _) rfl hfew number type
  | ldb hds => exact parseFileName_of_suffix hds (hdot _) rfl hfew number type
  | temp hds => exact parseFileName_of_suffix hds (hdot _) rfl hfew number type

/-- A number and a suffix that has a type make a name. -/
theorem names_of_suffixType {ds suffix : Bytes} {t : FileType} (hds : IsNumber ds)
    (h : suffixType suffix = some t) : Names (ds ++ suffix) (value ds) t := by
  rw [suffixType] at h
  split at h
  · next heq =>
    cases h
    rw [heq]
    exact .log hds
  · split at h
    · next heq =>
      cases h
      rcases heq with heq | heq
      · rw [heq]
        exact .sst hds
      · rw [heq]
        exact .ldb hds
    · split at h
      · next heq =>
        cases h
        rw [heq]
        exact .temp hds
      · cases h

/-- **What the grammar does not have, the parser refuses**, and changes nothing. -/
theorem parseFileName_of_not_names {fname : Bytes} (h : ∀ n t, ¬ Names fname n t)
    (hfew : ¬ TooManyDigits (numberPart fname)) (number : ℕ) (type : FileType) :
    parseFileName fname number type = some (false, number, type) := by
  rw [parseFileName]
  split
  · next heq => exact absurd (heq ▸ Names.current) (h _ _)
  split
  · next heq => exact absurd (heq ▸ Names.lock) (h _ _)
  split
  · next heq =>
    rcases heq with heq | heq
    · exact absurd (heq ▸ Names.infoLog) (h _ _)
    · exact absurd (heq ▸ Names.oldInfoLog) (h _ _)
  split
  · next hprefix =>
    obtain ⟨ds, rfl⟩ := hprefix
    rw [(parseFileName_of_manifest ds number type).2] at hfew
    rw [List.drop_left]
    rcases consumeDecimalNumber_eq hfew with ⟨hds, heq⟩ | ⟨-, heq⟩
    · rw [heq]
      dsimp only
      split
      · rfl
      · next hrest =>
        have hall := List.takeWhile_append_dropWhile (p := isDigit) (l := ds)
        rw [not_not.mp hrest, List.append_nil] at hall
        rw [hall] at hds
        exact absurd (.descriptor hds) (h _ _)
    · rw [heq]
  · next hprefix =>
    rw [numberPart, if_neg hprefix] at hfew
    rcases consumeDecimalNumber_eq hfew with ⟨hds, heq⟩ | ⟨-, heq⟩
    · rw [heq]
      dsimp only
      cases htype : suffixType (fname.dropWhile isDigit) with
      | none => rfl
      | some t =>
        have hnames := names_of_suffixType hds htype
        rw [List.takeWhile_append_dropWhile] at hnames
        exact absurd hnames (h _ _)
    · rw [heq]

/-- With too many digits, the count overflows. -/
theorem parseFileName_of_tooManyDigits {fname : Bytes} (h : TooManyDigits (numberPart fname))
    (number : ℕ) (type : FileType) : parseFileName fname number type = none := by
  by_cases hprefix : ascii "MANIFEST-" <+: fname
  · obtain ⟨ds, rfl⟩ := hprefix
    obtain ⟨hparse, hpart⟩ := parseFileName_of_manifest ds number type
    rw [hpart] at h
    rw [hparse, consumeDecimalNumber_eq_none h]
  · rw [numberPart, if_neg hprefix] at h
    have hnone := consumeDecimalNumber_eq_none h
    obtain ⟨ds, c, rest, rfl, hds, hc, hlen, -⟩ := h
    obtain ⟨d, ds, rfl⟩ : ∃ d ds', ds = d :: ds' :=
      List.exists_cons_of_ne_nil (List.ne_nil_of_length_pos (by rw [hlen]; decide))
    rw [List.cons_append] at hnone ⊢
    rw [(parseFileName_of_isDigit _ (hds d List.mem_cons_self) number type).1, hnone]

/-! ### All names -/

/-- The parser does on `fname` what the grammar says: it returns true with the number and the type,
or false with nothing changed. -/
def ParsesExactly (fname : Bytes) : Prop :=
  ∀ number type,
    (∃ n t, Names fname n t ∧ parseFileName fname number type = some (true, n, t)) ∨
    (∀ n t, ¬ Names fname n t) ∧ parseFileName fname number type = some (false, number, type)

theorem parsesExactly_iff (fname : Bytes) :
    ParsesExactly fname ↔ ¬ TooManyDigits (numberPart fname) := by
  constructor
  · intro h hmany
    have hnone := parseFileName_of_tooManyDigits hmany 0 .kLogFile
    rcases h 0 .kLogFile with ⟨n, t, -, heq⟩ | ⟨-, heq⟩
    · rw [hnone] at heq
      cases heq
    · rw [hnone] at heq
      cases heq
  · intro hfew number type
    by_cases h : ∃ n t, Names fname n t
    · obtain ⟨n, t, h⟩ := h
      exact .inl ⟨n, t, h, parseFileName_of_names h hfew number type⟩
    · have hnot : ∀ n t, ¬ Names fname n t := fun n t hn => h ⟨n, t, hn⟩
      exact .inr ⟨hnot, parseFileName_of_not_names hnot hfew number type⟩

/-- The names that `make` makes, with the directory removed, are parsed back. -/
def RoundTrips (make : Bytes → ℕ → Option Bytes) (t : FileType) : Prop :=
  ∀ dbname number, 1 ≤ number → number ≤ kMaxUint64 →
    ∃ base, make dbname number = some (dbname ++ (ascii "/" ++ base)) ∧
      ∀ n type, parseFileName base n type = some (true, number, t)

theorem not_tooManyDigits_of_length {fname : Bytes} (h : fname.length ≤ kMaxInt) :
    ¬ TooManyDigits (numberPart fname) := by
  rintro ⟨ds, c, rest, heq, -, -, hlen, -⟩
  have hpart : (numberPart fname).length ≤ fname.length := by
    rw [numberPart]
    split
    · rw [List.length_drop]
      exact Nat.sub_le _ _
    · exact le_rfl
  rw [heq, List.length_append, List.length_cons] at hpart
  omega

theorem isNumber_padded {number : ℕ} (h : number ≤ kMaxUint64) : IsNumber (padded 6 number) where
  ne_nil := List.ne_nil_of_length_pos (by rw [length_padded]; omega)
  isDigit _ hc := isDigit_of_mem_padded hc
  value_le := by rwa [value_padded]

theorem length_padded_le {number : ℕ} (h : number ≤ kMaxUint64) :
    (padded 6 number).length ≤ 20 := by
  have hdigits : (Nat.digits 10 number).length ≤ 20 :=
    length_digits_le (lt_of_le_of_lt h (by decide))
  rw [length_padded]
  omega

/-- A name in the grammar that is not long is parsed. -/
theorem roundTrips_of_names {make : Bytes → ℕ → Option Bytes} {t : FileType} (base : ℕ → Bytes)
    (hmake : ∀ dbname number, 1 ≤ number →
      make dbname number = some (dbname ++ (ascii "/" ++ base number)))
    (hnames : ∀ number, number ≤ kMaxUint64 → Names (base number) (value (padded 6 number)) t)
    (hlen : ∀ number, (base number).length ≤ (padded 6 number).length + 9) : RoundTrips make t := by
  intro dbname number hpos hle
  refine ⟨base number, hmake dbname number hpos, fun n type => ?_⟩
  have hshort : (base number).length ≤ kMaxInt := by
    have h₁ := hlen number
    have h₂ := length_padded_le hle
    have h₃ : 29 ≤ kMaxInt := by decide
    omega
  have h := parseFileName_of_names (hnames number hle) (not_tooManyDigits_of_length hshort) n type
  rwa [value_padded] at h

theorem withNumber_of_pos {number : ℕ} (h : 1 ≤ number) (name : Bytes) :
    withNumber number name = some name := if_pos h

/-- **File names.** The parser accepts exactly the grammar, on exactly the names that do not have
more digits than an `int` can count, and the names that the database makes are among them. -/
theorem parseFileName_spec (fname : Bytes) :
    (ParsesExactly fname ↔ ¬ TooManyDigits (numberPart fname)) ∧
    RoundTrips logFileName .kLogFile ∧ RoundTrips tableFileName .kTableFile ∧
    RoundTrips sstTableFileName .kTableFile ∧ RoundTrips descriptorFileName .kDescriptorFile ∧
    RoundTrips tempFileName .kTempFile := by
  have hsuffix : ∀ number (suffix : Bytes), suffix.length ≤ 9 →
      (padded 6 number ++ suffix).length ≤ (padded 6 number).length + 9 := by
    intro number suffix h
    rw [List.length_append]
    omega
  refine ⟨parsesExactly_iff fname, ?_, ?_, ?_, ?_, ?_⟩
  · exact roundTrips_of_names (fun number => padded 6 number ++ ascii ".log")
      (fun _ _ hpos => withNumber_of_pos hpos _) (fun _ hle => .log (isNumber_padded hle))
      fun number => hsuffix number _ (by decide)
  · exact roundTrips_of_names (fun number => padded 6 number ++ ascii ".ldb")
      (fun _ _ hpos => withNumber_of_pos hpos _) (fun _ hle => .ldb (isNumber_padded hle))
      fun number => hsuffix number _ (by decide)
  · exact roundTrips_of_names (fun number => padded 6 number ++ ascii ".sst")
      (fun _ _ hpos => withNumber_of_pos hpos _) (fun _ hle => .sst (isNumber_padded hle))
      fun number => hsuffix number _ (by decide)
  · refine roundTrips_of_names (fun number => ascii "MANIFEST-" ++ padded 6 number)
      (fun _ _ hpos => withNumber_of_pos hpos _) (fun _ hle => .descriptor (isNumber_padded hle))
      fun number => ?_
    rw [List.length_append, Nat.add_comm]
    exact Nat.add_le_add_left (by decide) _
  · exact roundTrips_of_names (fun number => padded 6 number ++ ascii ".dbtmp")
      (fun _ _ hpos => withNumber_of_pos hpos _) (fun _ hle => .temp (isNumber_padded hle))
      fun number => hsuffix number _ (by decide)

theorem parseFileName_spec_five :
    ParsesExactly (ascii "MANIFEST-7") ∧
    ∃ base, logFileName (ascii "db") 5 = some (ascii "db" ++ (ascii "/" ++ base)) ∧
      parseFileName base 0 .kTempFile = some (true, 5, .kLogFile) := by
  obtain ⟨hexact, hlog, -⟩ := parseFileName_spec (ascii "MANIFEST-7")
  obtain ⟨base, hmake, hparse⟩ := hlog (ascii "db") 5 (by decide) (by decide)
  refine ⟨hexact.mpr (not_tooManyDigits_of_length (by decide)), base, hmake, hparse 0 .kTempFile⟩

/-- A log file whose number is zero, written with one zero more than can be counted. -/
theorem not_parsesExactly : ¬ ParsesExactly (List.replicate (kMaxInt + 1) 48 ++ ascii ".log") := by
  intro h
  have hdigit : isDigit 48 = true := rfl
  have hpart := (parseFileName_of_isDigit (List.replicate kMaxInt 48 ++ ascii ".log") hdigit 0
    .kLogFile).2
  rw [← List.cons_append, ← List.replicate_succ] at hpart
  refine (parsesExactly_iff _).mp h ?_
  rw [hpart]
  refine ⟨List.replicate kMaxInt 48, 48, ascii ".log", ?_, ?_, hdigit, List.length_replicate, ?_⟩
  · rw [List.replicate_succ', List.append_assoc]
    rfl
  · intro d hd
    rw [List.eq_of_mem_replicate hd]
    exact hdigit
  · have hzero := value_replicate_append kMaxInt []
    rw [List.append_nil] at hzero
    rw [hzero]
    exact Nat.zero_le _

end Squirrel
