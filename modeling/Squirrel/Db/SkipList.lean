import Squirrel.Lib.Cursor
import Mathlib.Data.List.Sort

/-!
# Skip lists

`SkipList<Key, Comparator>` over a memory of nodes. A pointer is the number of a node in order of
allocation, node `0` is `head_`, and `none` is the null pointer. A slot of a tower that has been
allocated and not written yet is `none` one level up: loading it is not an answer but an error.

The loops of the three searches follow pointers, so in an arbitrary memory they need not end. They
run on fuel here, one unit for every node and every level, and running out of it is an error too.
`turn` is the body of the search loop behind its load, shared with the concurrent model.

## Main definitions

* `SkipList.findGreaterOrEqual`, `SkipList.findLessThan`, `SkipList.findLast`
* `SkipList.insert`, with the height of the new node as an argument
* `SkipList.iterStep` — the operations of `Iterator`
-/

namespace Squirrel

/-- `kMaxHeight`. -/
def kMaxHeight : ℕ := 12

/-- A `Node`: its key, and `next_`, one slot for each level of its tower. -/
structure Node (K : Type) where
  key : K
  next : List (Option (Option ℕ))
  deriving Repr

instance {K : Type} [Inhabited K] : Inhabited (Node K) := ⟨default, []⟩

structure SkipList (K : Type) where
  /-- The nodes, in order of allocation. -/
  nodes : List (Node K)
  maxHeight : ℕ
  deriving Repr

namespace SkipList

variable {K : Type} [Inhabited K] (cmp : K → K → Ordering)

def node (s : SkipList K) (x : ℕ) : Node K := s.nodes.getD x default

def key (s : SkipList K) (x : ℕ) : K := (s.node x).key

/-- The number of levels of a node's tower. -/
def height (s : SkipList K) (x : ℕ) : ℕ := (s.node x).next.length

/-- `x->Next(level)`. -/
def next (s : SkipList K) (x level : ℕ) : Option (Option ℕ) := (s.node x).next.getD level none

/-- `x->SetNext(level, y)`. -/
def setNext (s : SkipList K) (x level : ℕ) (y : Option ℕ) : SkipList K :=
  { s with nodes := s.nodes.modify x fun n => { n with next := n.next.set level (some y) } }

/-- `NewNode`: a tower of slots that are not initialised. -/
def newNode (s : SkipList K) (key : K) (height : ℕ) : ℕ × SkipList K :=
  (s.nodes.length, { s with nodes := s.nodes ++ [⟨key, List.replicate height none⟩] })

/-- The constructor. Any key will do for `head_`. -/
def new : SkipList K := ⟨[⟨default, List.replicate kMaxHeight (some none)⟩], 1⟩

/-! ### Searching -/

/-- `KeyIsAfterNode`: null is considered infinite. -/
def keyIsAfterNode (s : SkipList K) (key : K) : Option ℕ → Bool
  | none => false
  | some n => cmp (s.key n) key = .lt

/-- Where a search is: at a node and a level, with the `prev` entries filled so far. -/
structure Search where
  x : ℕ
  level : ℕ
  prev : ℕ → Option ℕ

/-- The body of the loop of `FindGreaterOrEqual` behind its load: another round, or the result. -/
def turn (s : SkipList K) (key : K) (st : Search) (next : Option ℕ) :
    Search ⊕ Option ℕ × (ℕ → Option ℕ) :=
  match next, keyIsAfterNode cmp s key next with
  | some n, true => .inl { st with x := n }
  | _, _ =>
    let prev := Function.update st.prev st.level (some st.x)
    if st.level = 0 then .inr (next, prev) else .inl { st with level := st.level - 1, prev := prev }

/-- Rounds enough for any search: each goes on to another node or down a level. -/
def fuel (s : SkipList K) : ℕ := s.nodes.length + s.maxHeight

def findGreaterOrEqualLoop (s : SkipList K) (key : K) :
    ℕ → Search → Option (Option ℕ × (ℕ → Option ℕ))
  | 0, _ => none
  | fuel + 1, st => do
    match turn cmp s key st (← s.next st.x st.level) with
    | .inl st => findGreaterOrEqualLoop s key fuel st
    | .inr result => some result

/-- `FindGreaterOrEqual`: the node, and the `prev` array. -/
def findGreaterOrEqual (s : SkipList K) (key : K) : Option (Option ℕ × (ℕ → Option ℕ)) :=
  findGreaterOrEqualLoop cmp s key s.fuel ⟨0, s.maxHeight - 1, fun _ => none⟩

def findLessThanLoop (s : SkipList K) (key : K) : ℕ → ℕ → ℕ → Option ℕ
  | 0, _, _ => none
  | fuel + 1, x, level => do
    match ← s.next x level with
    | some n =>
      if cmp (s.key n) key = .lt then findLessThanLoop s key fuel n level
      else if level = 0 then some x else findLessThanLoop s key fuel x (level - 1)
    | none => if level = 0 then some x else findLessThanLoop s key fuel x (level - 1)

/-- `FindLessThan`. -/
def findLessThan (s : SkipList K) (key : K) : Option ℕ :=
  findLessThanLoop cmp s key s.fuel 0 (s.maxHeight - 1)

def findLastLoop (s : SkipList K) : ℕ → ℕ → ℕ → Option ℕ
  | 0, _, _ => none
  | fuel + 1, x, level => do
    match ← s.next x level with
    | some n => findLastLoop s fuel n level
    | none => if level = 0 then some x else findLastLoop s fuel x (level - 1)

/-- `FindLast`. -/
def findLast (s : SkipList K) : Option ℕ := findLastLoop s s.fuel 0 (s.maxHeight - 1)

/-- `Contains`. -/
def contains (s : SkipList K) (key : K) : Option Bool := do
  match (← findGreaterOrEqual cmp s key).1 with
  | some n => some (cmp key (s.key n) = .eq)
  | none => some false

/-! ### Inserting -/

/-- The round of the last loop of `Insert` that links node `x` at level `i`. -/
def link (x : ℕ) (prev : ℕ → Option ℕ) (s : SkipList K) (i : ℕ) : Option (SkipList K) := do
  let p ← prev i
  let next ← s.next p i
  some ((s.setNext x i next).setNext p i (some x))

/-- The entries of `prev` above the current height are filled with `head_`. -/
def fillPrev (prev : ℕ → Option ℕ) (maxHeight height : ℕ) : ℕ → Option ℕ := fun i =>
  if maxHeight ≤ i ∧ i < height then some 0 else prev i

/-- `Insert`, where `RandomHeight` has returned `height`. The assertion that nothing compares equal
to the key is part of it. -/
def insert (s : SkipList K) (key : K) (height : ℕ) : Option (SkipList K) := do
  let (x, prev) ← findGreaterOrEqual cmp s key
  if ∃ n, x = some n ∧ cmp key (s.key n) = .eq then none
  else
    let prev := if s.maxHeight < height then fillPrev prev s.maxHeight height else prev
    let s := if s.maxHeight < height then { s with maxHeight := height } else s
    let (x, s) := s.newNode key height
    (List.range height).foldlM (link x prev) s

/-- Keys inserted one after another, each with the height drawn for it. -/
def insertAll (s : SkipList K) (entries : List (K × ℕ)) : Option (SkipList K) :=
  entries.foldlM (fun s e => insert cmp s e.1 e.2) s

/-! ### Iterating -/

/-- `Iterator`: the operations, on `node_`. `Next` and `Prev` assert `Valid`. -/
def iterStep (s : SkipList K) (it : Option ℕ) : Cursor.Op K → Option (Option ℕ)
  | .seek target => do some (← findGreaterOrEqual cmp s target).1
  | .seekToFirst => s.next 0 0
  | .seekToLast => do
    let n ← s.findLast
    some (if n = 0 then none else some n)
  | .next => do s.next (← it) 0
  | .prev => do
    let n ← findLessThan cmp s (s.key (← it))
    some (if n = 0 then none else some n)

end SkipList

end Squirrel
