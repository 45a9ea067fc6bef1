import Squirrel.Util.Coding
import Squirrel.Util.Comparator

/-!
# Building blocks

`BlockBuilder::Add` appends an entry that leaves out what the key shares with the key before it,
except at restart points, of which there is one every `block_restart_interval` entries.

The options are read at each call, and nothing keeps them from changing in between. So what a
builder has put together is described without them: `Encodes` lists the entries with the number of
bytes that each of them shares, and says which of them are restart points. One call of `Add` extends
the list by one entry (`Encodes.add`), whatever the interval is at that moment.
-/

namespace Squirrel

open Coding

/-- The state of a `BlockBuilder`. -/
structure BlockBuilder where
  buffer : Bytes
  restarts : List ℕ
  counter : ℕ
  finished : Bool
  lastKey : Bytes

namespace BlockBuilder

/-- The state after `Reset`, which is also that of a new builder. -/
def reset : BlockBuilder := ⟨[], [0], 0, false, []⟩

/-- `Reset` of a builder that may have been used. -/
def resetUsed (b : BlockBuilder) : BlockBuilder :=
  { b with buffer := [], restarts := [0], counter := 0, finished := false, lastKey := [] }

/-- The constructor asserts that the interval is positive. -/
def new (blockRestartInterval : ℕ) : Option BlockBuilder :=
  if 1 ≤ blockRestartInterval then some reset else none

/-- `empty`. -/
def empty (b : BlockBuilder) : Bool := b.buffer.isEmpty

/-- `CurrentSizeEstimate`. -/
def currentSizeEstimate (b : BlockBuilder) : ℕ := b.buffer.length + b.restarts.length * 4 + 4

/-- What `Finish` appends: the restart points and their number. -/
def trailer (restarts : List ℕ) : Bytes :=
  (restarts.map encodeFixed32).flatten ++ encodeFixed32 restarts.length

/-- `Finish`: the block, and the builder afterwards. -/
def finish (b : BlockBuilder) : Bytes × BlockBuilder :=
  let buffer := b.buffer ++ trailer b.restarts
  (buffer, { b with buffer, finished := true })

/-- The loop that counts the bytes that two keys share. -/
def sharedPrefix : Bytes → Bytes → ℕ
  | a :: as, b :: bs => if a = b then sharedPrefix as bs + 1 else 0
  | _, _ => 0

/-- `Add`; nothing if an assertion fails. -/
def add (cmp : Bytes → Bytes → Ordering) (blockRestartInterval : ℕ) (key value : Bytes)
    (b : BlockBuilder) : Option BlockBuilder :=
  if b.finished = false ∧ b.counter ≤ blockRestartInterval ∧
      (b.empty = true ∨ cmp key b.lastKey = .gt) then
    let shareable := b.counter < blockRestartInterval
    let shared := if shareable then sharedPrefix b.lastKey key else 0
    let restarts := if shareable then b.restarts else b.restarts ++ [b.buffer.length % 2 ^ 32]
    let counter := if shareable then b.counter else 0
    let nonShared := key.length - shared
    let buffer := putVarint32 b.buffer shared
    let buffer := putVarint32 buffer nonShared
    let buffer := putVarint32 buffer value.length
    let buffer := buffer ++ key.drop shared ++ value
    let lastKey := b.lastKey.take shared ++ key.drop shared
    if lastKey = key then some ⟨buffer, restarts, counter + 1, b.finished, lastKey⟩ else none
  else none

theorem counter_add {cmp : Bytes → Bytes → Ordering} {interval : ℕ} (hpos : 1 ≤ interval)
    {key value : Bytes} {b b' : BlockBuilder} (h : b.add cmp interval key value = some b') :
    b'.counter ≤ interval := by
  rw [add, Option.ite_none_right_eq_some] at h
  obtain ⟨hassert, h⟩ := h
  dsimp only at h
  rw [Option.ite_none_right_eq_some] at h
  rw [← Option.some.inj h.2]
  dsimp only
  split <;> omega

theorem sharedPrefix_spec (a b : Bytes) :
    sharedPrefix a b ≤ a.length ∧ a.take (sharedPrefix a b) = b.take (sharedPrefix a b) := by
  induction a generalizing b with
  | nil => exact ⟨Nat.le_refl 0, rfl⟩
  | cons x a ih =>
    cases b with
    | nil => exact ⟨Nat.zero_le _, rfl⟩
    | cons y b =>
      rw [sharedPrefix]
      split
      · next hxy =>
        obtain ⟨hle, htake⟩ := ih b
        rw [List.length_cons, List.take_succ_cons, List.take_succ_cons, hxy, htake]
        exact ⟨Nat.succ_le_succ hle, rfl⟩
      · exact ⟨Nat.zero_le _, rfl⟩

theorem sharedPrefix_le_right (a b : Bytes) : sharedPrefix a b ≤ b.length := by
  have h := congrArg List.length (sharedPrefix_spec a b).2
  rw [List.length_take, List.length_take, Nat.min_eq_left (sharedPrefix_spec a b).1] at h
  omega

/-! ### What a builder has put together -/

/-- An entry of a block, with the number of bytes that its key shares with the one before. -/
structure Item where
  shared : ℕ
  key : Bytes
  value : Bytes

/-- The three lengths of an entry. -/
def Item.header (x : Item) : Bytes :=
  encodeVarint32 (x.shared % 2 ^ 32) ++ encodeVarint32 ((x.key.length - x.shared) % 2 ^ 32)
    ++ encodeVarint32 (x.value.length % 2 ^ 32)

/-- The bytes of an entry. -/
def Item.encode (x : Item) : Bytes := x.header ++ (x.key.drop x.shared ++ x.value)

/-- The pair that an entry stands for. -/
def Item.pair (x : Item) : Bytes × Bytes := (x.key, x.value)

/-- The bytes of a list of entries. -/
def encodeItems (items : List Item) : Bytes := (items.map Item.encode).flatten

/-- The offset of entry `i`. -/
def itemOffset (items : List Item) (i : ℕ) : ℕ := (encodeItems (items.take i)).length

/-- The key before entry `i`. -/
def prevKey (items : List Item) (i : ℕ) : Bytes := ((items.take i).getLast?.map Item.key).getD []

/-- **What a builder has put together**: the entries `items`, of which those in `points` are restart
points. -/
structure Encodes (b : BlockBuilder) (items : List Item) (points : List ℕ) : Prop where
  finished_eq : b.finished = false
  buffer_eq : b.buffer = encodeItems items
  lastKey_eq : b.lastKey = prevKey items items.length
  counter_eq : items = [] → b.counter = 0
  shared_le : ∀ (i : ℕ) (x : Item), items[i]? = some x → x.shared ≤ x.key.length
  shared_eq : ∀ (i : ℕ) (x : Item), items[i]? = some x →
    x.shared ≤ (prevKey items i).length ∧ (prevKey items i).take x.shared = x.key.take x.shared
  restarts_eq : b.restarts = points.map fun i => itemOffset items i % 2 ^ 32
  points_head : points.head? = some 0
  points_lt : points.Pairwise (· < ·)
  points_le : ∀ i ∈ points, i = 0 ∨ i < items.length
  points_shared : ∀ i ∈ points, ∀ x : Item, items[i]? = some x → x.shared = 0

theorem encodeItems_append (a b : List Item) :
    encodeItems (a ++ b) = encodeItems a ++ encodeItems b := by
  simp [encodeItems]

theorem encodes_reset : Encodes reset [] [0] where
  finished_eq := rfl
  buffer_eq := rfl
  lastKey_eq := rfl
  counter_eq := fun _ => rfl
  shared_le := by simp
  shared_eq := by simp
  restarts_eq := rfl
  points_head := rfl
  points_lt := List.pairwise_singleton _ _
  points_le := by simp
  points_shared := by simp

theorem itemOffset_append_left {items : List Item} (x : Item) {i : ℕ} (h : i ≤ items.length) :
    itemOffset (items ++ [x]) i = itemOffset items i := by
  rw [itemOffset, itemOffset, List.take_append_of_le_length h]

theorem prevKey_append_left {items : List Item} (x : Item) {i : ℕ} (h : i ≤ items.length) :
    prevKey (items ++ [x]) i = prevKey items i := by
  rw [prevKey, prevKey, List.take_append_of_le_length h]

theorem prevKey_succ {items : List Item} {i : ℕ} {x : Item} (h : items[i]? = some x) :
    prevKey items (i + 1) = x.key := by
  rw [prevKey, List.take_add_one, h]
  simp

theorem Item.length_header (x : Item) : 3 ≤ x.header.length := by
  have hmod : ∀ n : ℕ, 0 < (encodeVarint32 (n % 2 ^ 32)).length := fun n =>
    length_encodeVarint32_pos (Nat.mod_lt _ (by norm_num))
  have h₁ := hmod x.shared
  have h₂ := hmod (x.key.length - x.shared)
  have h₃ := hmod x.value.length
  rw [header, List.length_append, List.length_append]
  omega

theorem encodeItems_eq_nil_iff {items : List Item} : encodeItems items = [] ↔ items = [] := by
  cases items with
  | nil => simp [encodeItems]
  | cons x items =>
    have hlen := x.length_header
    refine ⟨fun h => ?_, by simp⟩
    have hzero := congrArg List.length h
    rw [encodeItems, List.map_cons, List.flatten_cons, Item.encode, List.append_assoc,
      List.length_append, List.length_nil] at hzero
    omega

section

variable {b : BlockBuilder} {items : List Item} {points : List ℕ}

theorem Encodes.empty_iff (h : Encodes b items points) : b.empty = true ↔ items = [] := by
  rw [empty, List.isEmpty_iff, h.buffer_eq, encodeItems_eq_nil_iff]

/-- An entry is appended, and becomes a restart point or not. -/
theorem Encodes.snoc (h : Encodes b items points) {shared : ℕ} {key value : Bytes} {more : List ℕ}
    {b' : BlockBuilder} (hfinished : b'.finished = false) (hlast : b'.lastKey = key)
    (hbuffer : b'.buffer = b.buffer ++ Item.encode ⟨shared, key, value⟩)
    (hle : shared ≤ key.length) (hle' : shared ≤ b.lastKey.length)
    (htake : b.lastKey.take shared = key.take shared)
    (hmore : more = [] ∨ more = [items.length] ∧ items ≠ [] ∧ shared = 0)
    (hrestarts : b'.restarts = b.restarts ++ more.map fun _ => b.buffer.length % 2 ^ 32) :
    Encodes b' (items ++ [⟨shared, key, value⟩]) (points ++ more) := by
  have hget : ∀ (i : ℕ) (x : Item), (items ++ [⟨shared, key, value⟩])[i]? = some x →
      items[i]? = some x ∧ i < items.length ∨ i = items.length ∧ x = ⟨shared, key, value⟩ := by
    intro i x hx
    rcases Nat.lt_trichotomy i items.length with hlt | heq | hgt
    · rw [List.getElem?_append_left hlt] at hx
      exact .inl ⟨hx, hlt⟩
    · subst heq
      rw [List.getElem?_concat_length] at hx
      exact .inr ⟨rfl, (Option.some.inj hx).symm⟩
    · rw [List.getElem?_eq_none (by simp; omega)] at hx
      cases hx
  have hpoints : ∀ i ∈ points, i ≤ items.length := fun i hi => by
    rcases h.points_le i hi with rfl | hlt
    · exact Nat.zero_le _
    · exact Nat.le_of_lt hlt
  refine ⟨hfinished, ?_, ?_, by simp, ?_, ?_, ?_, ?_, ?_, ?_, ?_⟩
  · rw [hbuffer, h.buffer_eq, encodeItems_append]
    simp [encodeItems]
  · rw [hlast, List.length_append, List.length_singleton, prevKey_succ List.getElem?_concat_length]
  · intro i x hx
    rcases hget i x hx with ⟨hx, -⟩ | ⟨-, rfl⟩
    · exact h.shared_le i x hx
    · exact hle
  · intro i x hx
    rcases hget i x hx with ⟨hx, hlt⟩ | ⟨rfl, rfl⟩
    · rw [prevKey_append_left _ (Nat.le_of_lt hlt)]
      exact h.shared_eq i x hx
    · rw [prevKey_append_left _ (Nat.le_refl _), ← h.lastKey_eq]
      exact ⟨hle', htake⟩
  · rw [hrestarts, h.restarts_eq, List.map_append]
    congr 1
    · refine List.map_congr_left fun i hi => ?_
      rw [itemOffset_append_left _ (hpoints i hi)]
    · refine List.map_congr_left fun i hi => ?_
      rcases hmore with rfl | ⟨rfl, -, -⟩
      · cases hi
      · rw [List.mem_singleton.mp hi, itemOffset_append_left _ (Nat.le_refl _), itemOffset,
          List.take_length, h.buffer_eq]
  · rw [List.head?_append, h.points_head]
    rfl
  · refine List.pairwise_append.mpr ⟨h.points_lt, ?_, fun i hi j hj => ?_⟩
    · rcases hmore with rfl | ⟨rfl, -, -⟩
      · exact List.Pairwise.nil
      · exact List.pairwise_singleton _ _
    · rcases hmore with rfl | ⟨rfl, hne, -⟩
      · cases hj
      · rw [List.mem_singleton.mp hj]
        rcases h.points_le i hi with rfl | hlt
        · exact List.length_pos_iff.mpr hne
        · exact hlt
  · intro i hi
    rw [List.length_append, List.length_singleton]
    rcases List.mem_append.mp hi with hi | hi
    · exact (h.points_le i hi).imp_right fun hlt => Nat.lt_succ_of_lt hlt
    · rcases hmore with rfl | ⟨rfl, -, -⟩
      · cases hi
      · exact .inr (List.mem_singleton.mp hi ▸ Nat.lt_succ_self _)
  · intro i hi x hx
    rcases List.mem_append.mp hi with hi | hi
    · rcases hget i x hx with ⟨hx, -⟩ | ⟨rfl, rfl⟩
      · exact h.points_shared i hi x hx
      · -- a restart point at the end of the list is the first entry of all
        rcases h.points_le _ hi with hzero | hlt
        · have hnil : items = [] := List.eq_nil_of_length_eq_zero hzero
          have hempty : b.lastKey = [] := by rw [h.lastKey_eq, hnil]; rfl
          rw [hempty] at hle'
          exact Nat.le_zero.mp hle'
        · exact absurd hlt (Nat.lt_irrefl _)
    · rcases hmore with rfl | ⟨rfl, -, hzero⟩
      · cases hi
      · rcases hget i x hx with ⟨-, hlt⟩ | ⟨-, rfl⟩
        · exact absurd (List.mem_singleton.mp hi) (Nat.ne_of_lt hlt)
        · exact hzero

/-- **One call of `Add`.** It succeeds if its assertions hold, and appends an entry. -/
theorem Encodes.add (h : Encodes b items points) {cmp : Bytes → Bytes → Ordering} {interval : ℕ}
    {key : Bytes} (value : Bytes) (hinterval : 1 ≤ interval) (hcounter : b.counter ≤ interval)
    (hkey : items = [] ∨ cmp key b.lastKey = .gt) :
    ∃ b' shared, b.add cmp interval key value = some b' ∧
      Encodes b' (items ++ [⟨shared, key, value⟩])
        (points ++ if b.counter < interval then [] else [items.length]) ∧
      b'.counter = (if b.counter < interval then b.counter else 0) + 1 := by
  have hassert : b.finished = false ∧ b.counter ≤ interval ∧
      (b.empty = true ∨ cmp key b.lastKey = .gt) :=
    ⟨h.finished_eq, hcounter, hkey.imp_left h.empty_iff.mpr⟩
  by_cases hshare : b.counter < interval
  · obtain ⟨hle, htake⟩ := sharedPrefix_spec b.lastKey key
    have hlast : b.lastKey.take (sharedPrefix b.lastKey key)
        ++ key.drop (sharedPrefix b.lastKey key) = key := by
      rw [htake, List.take_append_drop]
    refine ⟨_, sharedPrefix b.lastKey key, by
      simp only [BlockBuilder.add, if_pos hassert, hshare, if_true, hlast]; rfl, ?_, ?_⟩
    · rw [if_pos hshare]
      refine h.snoc h.finished_eq rfl ?_ (sharedPrefix_le_right _ _) hle htake (.inl rfl) (by simp)
      simp [putVarint32, Item.encode, Item.header]
    · simp [hshare]
  · have hne : items ≠ [] := fun hnil => by
      have := h.counter_eq hnil
      omega
    refine ⟨_, 0, by
      simp only [BlockBuilder.add, if_pos hassert, hshare, if_false, List.take_zero,
        List.nil_append, List.drop_zero, if_true]; rfl, ?_, ?_⟩
    · rw [if_neg hshare]
      refine h.snoc h.finished_eq rfl ?_ (Nat.zero_le _) (Nat.zero_le _) rfl
        (.inr ⟨rfl, hne, rfl⟩) rfl
      simp [putVarint32, Item.encode, Item.header]
    · simp [hshare]

end

end BlockBuilder

end Squirrel
