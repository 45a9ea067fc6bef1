import Squirrel.Lib.Carving
import Mathlib.Tactic.NormNum

/-!
# The arena

`Arena` hands out memory from blocks that it gets from `new char[n]`. Small requests are cut off the
current block one after another; a request that does not fit either gets a block of its own or makes
the arena leave the current block for a new one.

What the runtime does is not in the source. A call of the arena is given a `Runtime`, which says
where `new` places a block and where the vector `blocks_` moves when it is full, and `Arena.Live` is
what is assumed of the answers: the blocks and the array of the vector are all live at once, so they
have no address in common, and `new` aligns blocks for any type.

The three branches of an allocation are the three steps of a `Carving.Pool`. The assertion in
`Allocate` is a condition on calls here, and the one on the alignment of the result is proved.

## Main results

* `call_cases` — which step of the pool a call is
* `run_holds` — every run
-/

namespace Squirrel

open Carving

/-- `kBlockSize`. -/
def kBlockSize : ℕ := 4096

/-- `std::vector<char*>`, with the array that holds the elements. With each pointer to a block goes
the size of the block, which the vector does not know. -/
structure BlockVector where
  elements : List Extent
  array : Extent

/-- What the runtime answers: the place of `new char[n]`, and the array that a full vector of `n`
elements moves to. -/
structure Runtime where
  newChar : ℕ → ℕ
  newArray : ℕ → Extent

namespace BlockVector

/-- `capacity`; a pointer has eight bytes. -/
def capacity (v : BlockVector) : ℕ := v.array.size / 8

/-- `push_back`. -/
def pushBack (rt : Runtime) (v : BlockVector) (block : Extent) : BlockVector where
  elements := v.elements ++ [block]
  array := if v.elements.length < v.capacity then v.array else rt.newArray v.elements.length

end BlockVector

/-- An `Arena`. Pointers are addresses, and the null pointer is zero. -/
structure Arena where
  allocPtr : ℕ
  allocBytesRemaining : ℕ
  blocks : BlockVector
  blocksMemory : ℕ

namespace Arena

/-- The constructor. -/
def new : Arena := ⟨0, 0, ⟨[], ⟨0, 0⟩⟩, 0⟩

/-- `MemoryUsage`. -/
def memoryUsage (a : Arena) : ℕ := (a.blocksMemory + a.blocks.capacity * 8) % 2 ^ 64

/-- `AllocateNewBlock`. -/
def allocateNewBlock (rt : Runtime) (blockBytes : ℕ) (a : Arena) : ℕ × Arena :=
  let result := rt.newChar blockBytes
  (result, { a with
    blocksMemory := (a.blocksMemory + blockBytes) % 2 ^ 64
    blocks := a.blocks.pushBack rt ⟨result, blockBytes⟩ })

/-- `AllocateFallback`. -/
def allocateFallback (rt : Runtime) (bytes : ℕ) (a : Arena) : ℕ × Arena :=
  if kBlockSize / 4 < bytes then a.allocateNewBlock rt bytes
  else
    let (ptr, a) := a.allocateNewBlock rt kBlockSize
    (ptr, { a with allocPtr := ptr + bytes, allocBytesRemaining := kBlockSize - bytes })

/-- `Allocate`. -/
def allocate (rt : Runtime) (bytes : ℕ) (a : Arena) : ℕ × Arena :=
  if bytes ≤ a.allocBytesRemaining then
    (a.allocPtr, { a with
      allocPtr := a.allocPtr + bytes
      allocBytesRemaining := a.allocBytesRemaining - bytes })
  else a.allocateFallback rt bytes

/-- `AllocateAligned`. -/
def allocateAligned (rt : Runtime) (bytes : ℕ) (a : Arena) : ℕ × Arena :=
  let align := 8
  let currentMod := a.allocPtr &&& (align - 1)
  let slop := if currentMod = 0 then 0 else align - currentMod
  let needed := (bytes + slop) % 2 ^ 64
  if needed ≤ a.allocBytesRemaining then
    (a.allocPtr + slop, { a with
      allocPtr := a.allocPtr + needed
      allocBytesRemaining := a.allocBytesRemaining - needed })
  else a.allocateFallback rt bytes

/-! ### Runs -/

/-- A call of the arena. -/
inductive Call
  | allocate (bytes : ℕ)
  | allocateAligned (bytes : ℕ)

def Call.bytes : Call → ℕ
  | .allocate bytes => bytes
  | .allocateAligned bytes => bytes

/-- A call and the pointer it has returned. -/
structure Grant where
  call : Call
  ptr : ℕ

/-- The range that has been handed out. -/
def Grant.extent (g : Grant) : Extent := ⟨g.ptr, g.call.bytes⟩

/-- The call of a method. -/
def call (rt : Runtime) (c : Call) (a : Arena) : ℕ × Arena :=
  match c with
  | .allocate bytes => a.allocate rt bytes
  | .allocateAligned bytes => a.allocateAligned rt bytes

/-- What is assumed of the runtime: the blocks and the array of the vector are in the address space
at once, and blocks are aligned. -/
structure Live (a : Arena) : Prop where
  apart : (a.blocks.array :: a.blocks.elements).Pairwise Extent.Apart
  addressable : ∀ e ∈ a.blocks.array :: a.blocks.elements, ∀ x ∈ e.cells, 0 < x ∧ x < 2 ^ 64
  aligned : ∀ b ∈ a.blocks.elements, b.start % 8 = 0

/-- The states of an arena, with what has been handed out on the way. -/
inductive Run : Arena → List Grant → Prop
  | start : Run new []
  | call {a : Arena} {log : List Grant} (h : Run a log) (rt : Runtime) (c : Call)
      (hpos : 0 < c.bytes) (hlive : (a.call rt c).2.Live) :
      Run (a.call rt c).2 (log ++ [⟨c, (a.call rt c).1⟩])

/-- The bytes that have been asked for. -/
def requested (log : List Grant) : ℕ := (log.map fun g => g.call.bytes).sum

/-- What the arena promises. The current block is the last one that has not been handed out as a
whole. -/
structure Holds (a : Arena) (log : List Grant) : Prop where
  within : ∀ g ∈ log, ∃ b ∈ a.blocks.elements, g.extent.Within b
  apart : (log.map Grant.extent).Pairwise Extent.Apart
  aligned : ∀ bytes ptr, ⟨.allocateAligned bytes, ptr⟩ ∈ log → ptr % 8 = 0
  tail : (a.allocBytesRemaining = 0 ∧ ∀ b ∈ a.blocks.elements, b ∈ log.map Grant.extent) ∨
    ∃ before cur after, a.blocks.elements = before ++ cur :: after ∧ cur.size = kBlockSize ∧
      (∀ b ∈ after, b ∈ log.map Grant.extent) ∧
      a.allocPtr + a.allocBytesRemaining = cur.stop ∧
      (∃ g ∈ log, g.extent.Within cur ∧ g.extent.stop = a.allocPtr) ∧
      ∀ g ∈ log, g.extent.Within cur → g.extent.stop ≤ a.allocPtr
  usage : requested log ≤ a.memoryUsage

/-! ### One call -/

/-- The arena as a pool. -/
def pool (a : Arena) (granted : List Extent) : Pool where
  owned := a.blocks.elements
  granted := granted
  free := ⟨a.allocPtr, a.allocBytesRemaining⟩

/-- The call `r` of the arena has got the new block `o`. -/
structure GotBlock (a : Arena) (r : ℕ × Arena) (o : Extent) : Prop where
  ptr_eq : r.1 = o.start
  elements_eq : r.2.blocks.elements = a.blocks.elements ++ [o]
  blocksMemory_eq : r.2.blocksMemory = (a.blocksMemory + o.size) % 2 ^ 64

variable {rt : Runtime} {a : Arena} {granted : List Extent}

theorem allocateFallback_cases (rt : Runtime) (a : Arena) (granted : List Extent) (bytes : ℕ) :
    (∃ o : Extent, o.size = bytes ∧ GotBlock a (a.allocateFallback rt bytes) o ∧
      (a.allocateFallback rt bytes).2.pool (granted ++ [⟨(a.allocateFallback rt bytes).1, bytes⟩])
        = (a.pool granted).dedicate o) ∨
    ∃ o : Extent, o.size = kBlockSize ∧ bytes ≤ o.size ∧
      GotBlock a (a.allocateFallback rt bytes) o ∧
      (a.allocateFallback rt bytes).2.pool (granted ++ [⟨(a.allocateFallback rt bytes).1, bytes⟩])
        = (a.pool granted).renew o bytes := by
  rw [allocateFallback]
  by_cases hbig : kBlockSize / 4 < bytes
  · rw [if_pos hbig]
    exact .inl ⟨⟨rt.newChar bytes, bytes⟩, rfl, ⟨rfl, rfl, rfl⟩, rfl⟩
  · rw [if_neg hbig]
    refine .inr ⟨⟨rt.newChar kBlockSize, kBlockSize⟩, rfl, ?_, ⟨rfl, rfl, rfl⟩, rfl⟩
    simp only [kBlockSize] at hbig ⊢
    omega

/-- The alignment of a pointer, as `AllocateAligned` computes it. -/
theorem and_seven (ptr : ℕ) : ptr &&& (8 - 1) = ptr % 8 := by
  rw [show (8 - 1 : ℕ) = 2 ^ 3 - 1 from rfl, Nat.and_two_pow_sub_one_eq_mod]

/-- **Every call is a step of the pool.** It carves the next piece off the current block, or gets a
block, for itself or as the new current one. -/
theorem call_cases (rt : Runtime) (a : Arena) (granted : List Extent) {c : Call}
    (hlt : c.bytes < 2 ^ 63) :
    (∃ gap, gap + c.bytes ≤ a.allocBytesRemaining ∧ (a.call rt c).2.blocks = a.blocks ∧
      (a.call rt c).2.blocksMemory = a.blocksMemory ∧
      (∀ bytes, c = .allocateAligned bytes → (a.call rt c).1 % 8 = 0) ∧
      (a.call rt c).2.pool (granted ++ [⟨(a.call rt c).1, c.bytes⟩])
        = (a.pool granted).carve gap c.bytes) ∨
    (∃ o : Extent, o.size = c.bytes ∧ GotBlock a (a.call rt c) o ∧
      (a.call rt c).2.pool (granted ++ [⟨(a.call rt c).1, c.bytes⟩])
        = (a.pool granted).dedicate o) ∨
    ∃ o : Extent, o.size = kBlockSize ∧ c.bytes ≤ o.size ∧ GotBlock a (a.call rt c) o ∧
      (a.call rt c).2.pool (granted ++ [⟨(a.call rt c).1, c.bytes⟩])
        = (a.pool granted).renew o c.bytes := by
  cases c with
  | allocate bytes =>
    simp only [call, allocate, Call.bytes]
    by_cases hfit : bytes ≤ a.allocBytesRemaining
    · rw [if_pos hfit]
      refine .inl ⟨0, by omega, rfl, rfl, by simp, ?_⟩
      simp [pool, Pool.carve]
    · rw [if_neg hfit]
      exact .inr (allocateFallback_cases rt a granted bytes)
  | allocateAligned bytes =>
    have hlt : bytes < 2 ^ 63 := hlt
    simp only [call, allocateAligned, Call.bytes, and_seven]
    generalize hslop : (if a.allocPtr % 8 = 0 then 0 else 8 - a.allocPtr % 8) = slop
    have hgap : slop < 8 ∧ (a.allocPtr + slop) % 8 = 0 := by
      split at hslop <;> omega
    rw [Nat.mod_eq_of_lt (show bytes + slop < 2 ^ 64 by omega)]
    by_cases hfit : bytes + slop ≤ a.allocBytesRemaining
    · rw [if_pos hfit]
      refine .inl ⟨slop, by omega, rfl, rfl, fun _ _ => hgap.2, ?_⟩
      simp [pool, Pool.carve, Nat.add_comm]
    · rw [if_neg hfit]
      exact .inr (allocateFallback_cases rt a granted bytes)

/-! ### Every run -/

/-- What every call keeps. -/
structure Kept (a : Arena) (log : List Grant) : Prop where
  sound : (a.pool (log.map Grant.extent)).Sound
  tail : (a.pool (log.map Grant.extent)).Tail kBlockSize
  memory : a.blocksMemory = (a.blocks.elements.map Extent.size).sum % 2 ^ 64
  aligned : ∀ bytes ptr, ⟨.allocateAligned bytes, ptr⟩ ∈ log → ptr % 8 = 0

theorem kept_new : Kept new [] := by
  refine ⟨⟨by simp [pool], .nil, by simp [pool], by simp [pool], .inl rfl, by simp [pool, new]⟩,
    .inl ⟨rfl, by simp [pool, new]⟩, rfl, by simp⟩

/-- A block that the runtime has just given out is apart from the others, and aligned. -/
theorem GotBlock.fresh {r : ℕ × Arena} {o : Extent} (h : GotBlock a r o) (hlive : r.2.Live) :
    (∀ b ∈ a.blocks.elements, b.Apart o) ∧ r.1 % 8 = 0 := by
  obtain ⟨hptr, helements, -⟩ := h
  have hapart := hlive.apart.of_cons
  rw [helements] at hapart
  constructor
  · intro b hb
    exact (List.pairwise_append.mp hapart).2.2 b hb o (List.mem_singleton.mpr rfl)
  · rw [hptr]
    exact hlive.aligned o (by rw [helements]; simp)

theorem GotBlock.memory {r : ℕ × Arena} {o : Extent} (h : GotBlock a r o)
    (hmem : a.blocksMemory = (a.blocks.elements.map Extent.size).sum % 2 ^ 64) :
    r.2.blocksMemory = (r.2.blocks.elements.map Extent.size).sum % 2 ^ 64 := by
  rw [h.blocksMemory_eq, h.elements_eq, hmem, Pool.sum_append, Nat.mod_add_mod]

/-- **One call.** -/
theorem Kept.call {log : List Grant} (h : Kept a log) {c : Call} (hpos : 0 < c.bytes)
    (hlt : c.bytes < 2 ^ 63) (hlive : (a.call rt c).2.Live) :
    Kept (a.call rt c).2 (log ++ [⟨c, (a.call rt c).1⟩]) := by
  have hlog : (log ++ [Grant.mk c (a.call rt c).1]).map Grant.extent
      = log.map Grant.extent ++ [⟨(a.call rt c).1, c.bytes⟩] := by
    rw [List.map_append]
    rfl
  have haligned : (∀ bytes, c = .allocateAligned bytes → (a.call rt c).1 % 8 = 0) →
      ∀ bytes ptr, Grant.mk (.allocateAligned bytes) ptr ∈ log ++ [Grant.mk c (a.call rt c).1] →
        ptr % 8 = 0 := by
    intro hnew bytes ptr hmem
    rcases List.mem_append.mp hmem with hmem | hmem
    · exact h.aligned bytes ptr hmem
    · cases List.mem_singleton.mp hmem
      exact hnew bytes rfl
  rcases call_cases rt a (log.map Grant.extent) hlt with
    ⟨gap, hfit, hblocks, hmemory, hnew, hpool⟩ | ⟨o, hsize, hgot, hpool⟩ |
      ⟨o, hsize, hle, hgot, hpool⟩
  · refine ⟨?_, ?_, by rw [hmemory, hblocks, h.memory], haligned hnew⟩
    · rw [hlog, hpool]
      exact h.sound.carve hpos hfit
    · rw [hlog, hpool]
      exact h.tail.carve hpos hfit
  · obtain ⟨hapart, halign⟩ := hgot.fresh hlive
    refine ⟨?_, ?_, hgot.memory h.memory, haligned fun _ _ => halign⟩
    · rw [hlog, hpool]
      exact h.sound.dedicate (by omega) hapart
    · rw [hlog, hpool]
      exact h.tail.dedicate
  · obtain ⟨hapart, halign⟩ := hgot.fresh hlive
    refine ⟨?_, ?_, hgot.memory h.memory, haligned fun _ _ => halign⟩
    · rw [hlog, hpool]
      exact h.sound.renew hpos hle hapart
    · rw [hlog, hpool, ← hsize]
      exact Pool.Tail.renew hle

/-- What is handed out has addresses, none of which has been handed out before. -/
theorem Kept.grant {log : List Grant} (h : Kept a log) (rt : Runtime) (c : Call)
    (hpos : 0 < c.bytes) (hlt : c.bytes < 2 ^ 63) (hlive : (a.call rt c).2.Live) :
    ∃ x, (a.call rt c).1 = x ∧ Kept (a.call rt c).2 (log ++ [⟨c, x⟩]) ∧ (0 < x ∧ x < 2 ^ 64) ∧
      ∀ o ∈ log.map Grant.extent, o.Apart ⟨x, c.bytes⟩ := by
  have hkept := h.call hpos hlt hlive
  have hlog : (log ++ [Grant.mk c (a.call rt c).1]).map Grant.extent
      = log.map Grant.extent ++ [⟨(a.call rt c).1, c.bytes⟩] := by
    rw [List.map_append]
    rfl
  have hsound := hkept.sound
  rw [hlog] at hsound
  refine ⟨_, rfl, hkept, ?_, fun o ho => ?_⟩
  · obtain ⟨b, hb, hwithin⟩ :=
      hsound.within _ (List.mem_append_right _ (List.mem_singleton.mpr rfl))
    exact hlive.addressable b (List.mem_cons_of_mem _ hb) _
      (hwithin.mem ⟨le_rfl, Nat.lt_add_of_pos_right hpos⟩)
  · exact (List.pairwise_append.mp hsound.apart).2.2 o ho _ (List.mem_singleton.mpr rfl)

theorem requested_append (log : List Grant) (g : Grant) :
    requested (log ++ [g]) = requested log + g.call.bytes := by
  simp [requested]

theorem Run.kept {log : List Grant} (h : Run a log) (hsum : requested log < 2 ^ 63) :
    Kept a log := by
  induction h with
  | start => exact kept_new
  | call h rt c hpos hlive ih =>
    rw [requested_append] at hsum
    have hlt : c.bytes < 2 ^ 63 := lt_of_le_of_lt (Nat.le_add_left _ _) hsum
    exact (ih (by omega)).call hpos hlt hlive

/-- The blocks and the array of the vector are in one address space, so their sizes can be added. -/
theorem Kept.requested_le {log : List Grant} (h : Kept a log) (hlive : a.Live) :
    requested log ≤ a.memoryUsage := by
  have htotal := sum_size_lt (by norm_num) hlive.apart hlive.addressable
  rw [List.map_cons, List.sum_cons] at htotal
  have hcapacity : a.blocks.capacity * 8 ≤ a.blocks.array.size := Nat.div_mul_le_self _ _
  have hsum := h.sound.sum_le
  have hrequested : requested log = ((log.map Grant.extent).map Extent.size).sum := by
    rw [List.map_map]
    rfl
  have hmemory := h.memory
  rw [Nat.mod_eq_of_lt (by omega)] at hmemory
  rw [memoryUsage, Nat.mod_eq_of_lt (by omega), hmemory, hrequested]
  simp only [pool] at hsum
  omega

theorem Run.live {log : List Grant} (h : Run a log) : a.Live := by
  cases h with
  | start => exact ⟨by simp [new], by simp [new, Extent.cells, Extent.stop], by simp [new]⟩
  | call h rt c hpos hlive => exact hlive

/-- **Every run of the arena.** -/
theorem run_holds {log : List Grant} (h : Run a log) (hsum : requested log < 2 ^ 63) :
    Holds a log := by
  have hkept := h.kept hsum
  refine ⟨fun g hg => hkept.sound.within _ (List.mem_map_of_mem hg), hkept.sound.apart,
    hkept.aligned, ?_, hkept.requested_le h.live⟩
  rcases hkept.tail with hnone | ⟨before, cur, after, howned, hsize, hafter, hstop, e, he, hlast⟩
  · exact .inl hnone
  · obtain ⟨g, hg, rfl⟩ := List.mem_map.mp he
    refine .inr ⟨before, cur, after, howned, hsize, hafter, hstop, ⟨g, hg, hlast⟩, ?_⟩
    intro g hg hwithin
    exact hkept.sound.stop_le hstop (List.mem_map_of_mem hg) hwithin

/-- One byte, eight aligned bytes behind a gap of seven, and a block of its own for the last
call. -/
theorem run_holds_mixed :
    Holds ⟨4112, 4080, ⟨[⟨4096, 4096⟩, ⟨16384, 5000⟩], ⟨128, 16⟩⟩, 9096⟩
      [⟨.allocate 1, 4096⟩, ⟨.allocateAligned 8, 4104⟩, ⟨.allocate 5000, 16384⟩] := by
  have hone : ∀ ptr remaining, Live ⟨ptr, remaining, ⟨[⟨4096, 4096⟩], ⟨64, 8⟩⟩, 4096⟩ := by
    intro ptr remaining
    refine ⟨?_, ?_, by simp⟩
    · exact List.pairwise_pair.mpr (Extent.apart_of_le (Nat.le_of_ble_eq_true rfl))
    · simp only [List.forall_mem_cons, Extent.mem_cells, Extent.stop]
      refine ⟨fun x hx => by omega, fun x hx => by omega, by simp⟩
  have htwo : Live ⟨4112, 4080, ⟨[⟨4096, 4096⟩, ⟨16384, 5000⟩], ⟨128, 16⟩⟩, 9096⟩ := by
    refine ⟨?_, ?_, by simp⟩
    · simp only [List.pairwise_cons, List.forall_mem_cons]
      refine ⟨⟨Extent.apart_of_le (by decide), Extent.apart_of_le (by decide), by simp⟩,
        ⟨Extent.apart_of_le (by decide), by simp⟩, by simp⟩
    · simp only [List.forall_mem_cons, Extent.mem_cells, Extent.stop]
      refine ⟨fun x hx => by omega, fun x hx => by omega, fun x hx => by omega, by simp⟩
  have hfirst := Run.start.call ⟨fun _ => 4096, fun _ => ⟨64, 8⟩⟩ (.allocate 1) (by decide)
    (hone 4097 4095)
  have hsecond := hfirst.call ⟨fun _ => 4096, fun _ => ⟨64, 8⟩⟩ (.allocateAligned 8) (by decide)
    (hone 4112 4080)
  have hthird := hsecond.call ⟨fun _ => 16384, fun _ => ⟨128, 16⟩⟩ (.allocate 5000) (by decide) htwo
  exact run_holds hthird (by decide)

end Arena

end Squirrel
