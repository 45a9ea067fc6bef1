import Squirrel.Db.LogWriter
import Squirrel.Db.LogPosition

/-!
# Where the writer puts a record

`fragments p true record` lists the physical records that make up `record` when the file ends at
offset `p`: their offsets, types and payloads, as a function of `p` alone. It is the specification
the writer and the reader are compared with. `Stream data p fs q` says that the file holds the
fragments `fs` one after another between offsets `p` and `q`.

The writer keeps its own block offset. `Writer.InSync` says that it agrees with the length of the
file, which is all the writer needs to put fragments where the layout says; what breaks it is a
failed call on the file, and nothing repairs it.

## Main results

* `Writer.addRecordLoop_spec` — from a writer in step with its file, whatever calls fail: the
  fragments that reached the file are an initial piece of the layout, all of it on success
* `Writer.addRecord_of_sound` — with no failures, the whole layout is there and the writer is still
  in step
-/

namespace Squirrel

namespace Log

/-- How much payload fits behind a header at `nextHeader p`. -/
def avail (p : ℕ) : ℕ := blockLimit (nextHeader p) - nextHeader p - kHeaderSize

/-- The physical records of the bytes `left` of a record, in a file that ends at offset `p`. -/
def fragments (p : ℕ) (begin : Bool) (left : Bytes) : List Fragment :=
  let n := min left.length (avail p)
  ⟨nextHeader p, Writer.fragmentType begin (decide (left.length = n)), left.take n⟩ ::
    if left.length = n then []
    else fragments (nextHeader p + kHeaderSize + n) false (left.drop n)
termination_by (left.length, if avail p = 0 then 1 else 0)
decreasing_by
  rename_i h
  change Prod.Lex _ _ ((left.drop n).length, _) _
  have hle := nextHeader_add_le p
  by_cases hn : n = 0
  · have havail : avail p = 0 := by
      simp only [n] at hn h
      omega
    have hmod : (nextHeader p + kHeaderSize + n) % kBlockSize = 0 := by
      have hend : nextHeader p + kHeaderSize + n = blockLimit (nextHeader p) := by
        rw [avail] at havail
        omega
      rw [hend, blockLimit_mod]
    have hnext : avail (nextHeader p + kHeaderSize + n) ≠ 0 := by
      rw [avail, nextHeader_of_mod_eq_zero hmod, blockLimit_of_mod_eq_zero hmod,
        Nat.add_sub_cancel_left]
      decide
    rw [if_pos havail, if_neg hnext, hn, List.drop_zero]
    exact Prod.Lex.right _ (by decide)
  · refine Prod.Lex.left _ _ ?_
    rw [List.length_drop]
    omega

/-- Induction over a layout: its last fragment holds all that is left, and any other fragment holds
a part of it in front of the layout of the rest. -/
theorem fragments_induction {motive : ℕ → Bool → Bytes → List Fragment → Prop}
    (last : ∀ p begin left,
      motive p begin left [⟨nextHeader p, Writer.fragmentType begin true, left⟩])
    (more : ∀ p begin left n fs,
      motive (nextHeader p + kHeaderSize + n) false (left.drop n) fs →
      motive p begin left (⟨nextHeader p, Writer.fragmentType begin false, left.take n⟩ :: fs))
    (p : ℕ) (begin : Bool) (left : Bytes) : motive p begin left (fragments p begin left) := by
  fun_induction fragments p begin left with
  | case1 p begin left n ih =>
    by_cases hend : left.length = n
    · simp only [hend, if_true, decide_true, List.take_of_length_le hend.le]
      exact last p begin left
    · simp only [hend, if_false, decide_false]
      exact more p begin left n _ (ih hend)

/-- The offset behind a run of fragments that starts at `p`. -/
def limitOf : ℕ → List Fragment → ℕ
  | p, [] => p
  | _, f :: fs => limitOf f.limit fs

/-- The file holds the fragments one after another, from offset `p` to offset `q`. -/
def Stream (data : Bytes) : ℕ → List Fragment → ℕ → Prop
  | p, [], q => p = q
  | p, f :: fs, q => f.Placed data p ∧ Stream data f.limit fs q

theorem Stream.append {data : Bytes} {p q s : ℕ} {fs gs : List Fragment}
    (h : Stream data p fs q) (h' : Stream data q gs s) : Stream data p (fs ++ gs) s := by
  induction fs generalizing p with
  | nil => cases h; exact h'
  | cons f fs ih => exact ⟨h.1, ih h.2⟩

theorem Stream.split {data : Bytes} {p s : ℕ} {fs gs : List Fragment}
    (h : Stream data p (fs ++ gs) s) : ∃ q, Stream data p fs q ∧ Stream data q gs s := by
  induction fs generalizing p with
  | nil => exact ⟨p, rfl, h⟩
  | cons f fs ih =>
    obtain ⟨q, hfs, hgs⟩ := ih h.2
    exact ⟨q, ⟨h.1, hfs⟩, hgs⟩

theorem Stream.le {data : Bytes} {p q : ℕ} {fs : List Fragment} (h : Stream data p fs q) :
    p ≤ q := by
  induction fs generalizing p with
  | nil => exact le_of_eq h
  | cons f fs ih => exact h.1.lt_limit.le.trans (ih h.2)

/-- A run that starts and whose fragments end in front of `c` ends there. -/
theorem Stream.limit_le {data : Bytes} {p q c : ℕ} {fs : List Fragment} (h : Stream data p fs q)
    (hp : p ≤ c) (hfs : ∀ f ∈ fs, f.limit ≤ c) : q ≤ c := by
  induction fs generalizing p with
  | nil => exact le_of_eq_of_le (Eq.symm h) hp
  | cons f fs ih =>
    exact ih h.2 (hfs f List.mem_cons_self) fun g hg => hfs g (List.mem_cons_of_mem f hg)

theorem Stream.mono {data data' : Bytes} {p q : ℕ} {fs : List Fragment}
    (h : Stream data p fs q) (hd : data <+: data') : Stream data' p fs q := by
  induction fs generalizing p with
  | nil => exact h
  | cons f fs ih => exact ⟨h.1.mono hd, ih h.2⟩

theorem Stream.eq_limitOf {data : Bytes} {p q : ℕ} {fs : List Fragment}
    (h : Stream data p fs q) : q = limitOf p fs := by
  induction fs generalizing p with
  | nil => exact h.symm
  | cons f fs ih => exact ih h.2

/-- Fragments come in the order of their offsets. -/
theorem Stream.offset_lt {data : Bytes} {p q : ℕ} {f g : Fragment} {fs : List Fragment}
    (h : Stream data p (f :: fs) q) (hg : g ∈ fs) : f.offset < g.offset := by
  have hlt : f.offset < f.limit := by
    have hpos : 0 < kHeaderSize := by decide
    rw [Fragment.limit]
    omega
  have hrest := h.2
  clear h
  generalize f.limit = m at hlt hrest
  induction fs generalizing m with
  | nil => exact absurd hg List.not_mem_nil
  | cons f' fs ih =>
    have hle := le_nextHeader m
    rw [hrest.1.next] at hle
    rcases List.mem_cons.mp hg with rfl | hg'
    · omega
    · exact ih hg' f'.limit (hlt.trans hrest.1.lt_limit) hrest.2

/-- Fragments do not overlap. -/
theorem Stream.pairwise {data : Bytes} {p q : ℕ} {fs : List Fragment} (h : Stream data p fs q) :
    fs.Pairwise fun f g => f.limit ≤ g.offset := by
  induction fs generalizing p with
  | nil => exact .nil
  | cons f fs ih =>
    refine .cons ?_ (ih h.2)
    have hrest := h.2
    cases fs with
    | nil => exact fun _ hg => absurd hg List.not_mem_nil
    | cons f' fs =>
      have hle : f.limit ≤ f'.offset := by
        rw [← hrest.1.next]
        exact le_nextHeader f.limit
      intro g hg
      rcases List.mem_cons.mp hg with rfl | hg'
      · exact hle
      · exact hle.trans (hrest.offset_lt hg').le

/-- Every fragment of a run is within one block. -/
theorem Stream.inBlock {data : Bytes} {p q : ℕ} {f : Fragment} {fs : List Fragment}
    (h : Stream data p fs q) (hf : f ∈ fs) : f.limit ≤ blockLimit f.offset := by
  induction fs generalizing p with
  | nil => exact absurd hf List.not_mem_nil
  | cons g fs ih =>
    rcases List.mem_cons.mp hf with rfl | hf'
    · exact h.1.inBlock
    · exact ih h.2 hf'

/-- A run may start anywhere in front of its first header. -/
theorem Stream.restart {data : Bytes} {p p' q : ℕ} {f : Fragment} {fs : List Fragment}
    (h : Stream data p (f :: fs) q) (hp : nextHeader p' = nextHeader p) :
    Stream data p' (f :: fs) q :=
  ⟨⟨hp.trans h.1.next, h.1.inBlock, h.1.stored, h.1.kind⟩, h.2⟩

/-! ### The writer, in step with its file -/

namespace Writer

/-- The writer's block offset agrees with the length of the file. -/
def InSync (w : Writer) : Prop :=
  w.blockOffset ≤ kBlockSize ∧ w.blockOffset % kBlockSize = w.dest.contents.length % kBlockSize

instance (w : Writer) : Decidable w.InSync := inferInstanceAs (Decidable (_ ∧ _))

/-- If the next round fills a trailer, that `Append` succeeds. -/
def TrailerSaved (w : Writer) : Prop :=
  0 < kBlockSize - w.blockOffset ∧ kBlockSize - w.blockOffset < kHeaderSize →
    (w.dest.fate w.dest.calls).ok = true

instance (w : Writer) : Decidable w.TrailerSaved := inferInstanceAs (Decidable (_ → _))

theorem inSync_new (dest : WritableFile) : (Writer.new dest dest.contents.length).InSync :=
  ⟨(Nat.mod_lt _ (by decide)).le, Nat.mod_mod _ _⟩

/-- Filling the trailer takes a writer in step with its file to the next header position. -/
theorem switchBlock_spec {w : Writer} (h : w.InSync) (ht : w.TrailerSaved) :
    w.switchBlock.dest.contents = w.dest.contents
        ++ List.replicate (nextHeader w.dest.contents.length - w.dest.contents.length) 0 ∧
      w.switchBlock.blockOffset = nextHeader w.dest.contents.length % kBlockSize ∧
      w.switchBlock.dest.fate = w.dest.fate := by
  obtain ⟨hle, hmod⟩ := h
  by_cases hleft : kBlockSize - w.blockOffset < kHeaderSize
  · by_cases hpos : 0 < kBlockSize - w.blockOffset
    · -- The trailer is what is left of the block.
      have hlimit : blockLimit w.dest.contents.length
          = w.dest.contents.length + (kBlockSize - w.blockOffset) := by
        simp only [blockLimit, kBlockSize, kHeaderSize] at *
        omega
      have hnext : nextHeader w.dest.contents.length
          = w.dest.contents.length + (kBlockSize - w.blockOffset) := by
        rw [nextHeader, hlimit, if_pos (by omega)]
      have hmod' : nextHeader w.dest.contents.length % kBlockSize = 0 := by
        rw [hnext, ← hlimit, blockLimit_mod]
      have hsaved := ht ⟨hpos, hleft⟩
      simp only [switchBlock, WritableFile.append]
      rw [if_pos hleft, if_pos hpos, hmod', hnext, Nat.add_sub_cancel_left, if_pos hsaved]
      exact ⟨rfl, rfl, rfl⟩
    · have hoff : w.blockOffset = kBlockSize := by omega
      have hzero : w.dest.contents.length % kBlockSize = 0 := by
        rw [← hmod, hoff, Nat.mod_self]
      simp only [switchBlock]
      rw [if_pos hleft, if_neg hpos, nextHeader_of_mod_eq_zero hzero, hzero]
      simp
  · have hnext : nextHeader w.dest.contents.length = w.dest.contents.length := by
      rw [nextHeader, if_neg]
      simp only [blockLimit, kBlockSize, kHeaderSize] at *
      omega
    simp only [switchBlock]
    rw [if_neg hleft, hnext, ← hmod, Nat.mod_eq_of_lt]
    · simp
    · simp only [kBlockSize, kHeaderSize] at *
      omega

/-- The three outcomes of `EmitPhysicalRecord` in the file: nothing, a bare header, the record. -/
theorem emitPhysicalRecord_cases (w : Writer) (t : RecordType) (payload : Bytes) :
    (w.emitPhysicalRecord t payload).2.dest.fate = w.dest.fate ∧
    ((w.emitPhysicalRecord t payload).1.ok = false ∧
        (w.emitPhysicalRecord t payload).2.dest.contents = w.dest.contents ∨
      (w.emitPhysicalRecord t payload).1.ok = false ∧
        (w.emitPhysicalRecord t payload).2.dest.contents = w.dest.contents ++ header t payload ∨
      (w.emitPhysicalRecord t payload).2.dest.contents
        = w.dest.contents ++ physicalRecord t payload) := by
  simp only [emitPhysicalRecord, emitRaw, WritableFile.append, WritableFile.flush]
  split_ifs with h1 h2
  · exact ⟨rfl, Or.inr (Or.inr (by rw [physicalRecord, header, List.append_assoc]))⟩
  · exact ⟨rfl, Or.inr (Or.inl ⟨by simpa using h2, rfl⟩)⟩
  · exact ⟨rfl, Or.inl ⟨by simpa using h1, rfl⟩⟩

/-- The first fragment of what is left, in the writer's own arithmetic. -/
theorem fragments_eq {w : Writer} (h : w.InSync) (ht : w.TrailerSaved) (left : Bytes)
    (begin : Bool) {n : ℕ}
    (hn : n = min left.length (kBlockSize - w.switchBlock.blockOffset - kHeaderSize)) :
    fragments w.dest.contents.length begin left =
      ⟨nextHeader w.dest.contents.length, fragmentType begin (decide (left.length = n)),
        left.take n⟩ ::
      if left.length = n then []
      else fragments (nextHeader w.dest.contents.length + kHeaderSize + n) false (left.drop n) := by
  obtain ⟨-, hoff, -⟩ := switchBlock_spec h ht
  have havail : avail w.dest.contents.length
      = kBlockSize - w.switchBlock.blockOffset - kHeaderSize := by
    rw [avail, hoff]
    simp only [blockLimit, kBlockSize, kHeaderSize]
    omega
  rw [fragments, havail, ← hn]

theorem fragmentType_ne_zero (begin atEnd : Bool) : fragmentType begin atEnd ≠ .kZeroType := by
  cases begin <;> cases atEnd <;> simp [fragmentType]

/-- **One round of the loop.** Either the fragment is in place and the writer still in step, or the
round failed; then the writer can only be in step again if nothing but a trailer was added. -/
theorem emitRound_spec {w : Writer} (h : w.InSync) (ht : w.TrailerSaved) {f : Fragment}
    (hoff : f.offset = nextHeader w.dest.contents.length) (hkind : f.type ≠ .kZeroType)
    (hfit : f.payload.length ≤ kBlockSize - w.switchBlock.blockOffset - kHeaderSize) {s : Status}
    {w' : Writer} (hemit : w.switchBlock.emitPhysicalRecord f.type f.payload = (s, w')) :
    w.dest.contents <+: w'.dest.contents ∧ w'.dest.fate = w.dest.fate ∧
    (f.Placed w'.dest.contents w.dest.contents.length ∧ w'.dest.contents.length = f.limit ∧
        w'.InSync ∨
      s.ok = false ∧ (w'.InSync →
        nextHeader w'.dest.contents.length = nextHeader w.dest.contents.length)) := by
  obtain ⟨hcontents, hblock, hfate⟩ := switchBlock_spec h ht
  obtain ⟨hfate', hcases⟩ := emitPhysicalRecord_cases w.switchBlock f.type f.payload
  have hboff := blockOffset_emitPhysicalRecord w.switchBlock f.type f.payload
  have hle := blockOffset_switchBlock_le w
  have hlen : w.switchBlock.dest.contents.length = f.offset := by
    have := le_nextHeader w.dest.contents.length
    rw [hcontents, List.length_append, List.length_replicate, hoff]
    omega
  have hpre : w.dest.contents <+: w.switchBlock.dest.contents := by
    rw [hcontents]
    exact List.prefix_append _ _
  rw [hemit] at hfate' hcases hboff
  simp only at hfate' hcases hboff
  rw [← hoff] at hblock
  have hsmall : f.payload.length + kHeaderSize ≤ kBlockSize := by omega
  -- The record in the file, whatever the status of the flush.
  have hplaced : w'.dest.contents = w.switchBlock.dest.contents ++ f.bytes →
      f.Placed w'.dest.contents w.dest.contents.length ∧ w'.dest.contents.length = f.limit ∧
        w'.InSync := by
    intro hc
    have hlen' : w'.dest.contents.length = f.limit := by
      rw [hc, List.length_append, hlen, Fragment.bytes, length_physicalRecord, Fragment.limit]
      omega
    refine ⟨⟨hoff.symm, ?_, ?_, hkind⟩, hlen', ?_, ?_⟩
    · rw [Fragment.limit]
      simp only [blockLimit, kBlockSize, kHeaderSize] at *
      omega
    · have hdrop : w'.dest.contents.drop f.offset = f.bytes := by rw [hc, ← hlen, List.drop_left]
      exact hdrop ▸ List.prefix_rfl
    · rw [hboff, hblock]
      omega
    · rw [hboff, hlen', hblock, Fragment.limit, Nat.add_assoc, Nat.add_assoc, Nat.mod_add_mod]
  refine ⟨?_, hfate'.trans hfate, ?_⟩
  · rcases hcases with ⟨-, hc⟩ | ⟨-, hc⟩ | hc
    · rw [hc]; exact hpre
    · rw [hc]; exact hpre.trans (List.prefix_append _ _)
    · rw [hc]; exact hpre.trans (List.prefix_append _ _)
  · rcases hcases with ⟨hs, hc⟩ | ⟨hs, hc⟩ | hc
    · refine Or.inr ⟨hs, fun _ => ?_⟩
      rw [hc, hlen, hoff, nextHeader_nextHeader]
    · rcases Nat.eq_zero_or_pos f.payload.length with hnil | hpos
      · -- Nothing was missing: the payload is empty.
        refine Or.inl (hplaced ?_)
        rw [hc, Fragment.bytes, physicalRecord, List.length_eq_zero_iff.mp hnil, List.append_nil]
      · refine Or.inr ⟨hs, fun hsync => ?_⟩
        -- The payload is counted in the block offset but not in the file.
        have hmod := hsync.2
        rw [hboff, hblock, hc, List.length_append, hlen, length_header] at hmod
        exfalso
        simp only [kBlockSize, kHeaderSize] at *
        omega
    · exact Or.inl (hplaced hc)

/-- **What a failing disk leaves behind.** A writer in step with its file, whose trailer is saved,
adds a record: an initial run of the layout is in the file, all of it if the call succeeded. If the
writer is in step afterwards, then what follows the run in the file is at most a trailer. -/
theorem addRecordLoop_spec (w : Writer) (left : Bytes) (begin : Bool) (h : w.InSync)
    (ht : w.TrailerSaved) :
    ∃ done, done <+: fragments w.dest.contents.length begin left ∧
      Stream (w.addRecordLoop left begin).2.dest.contents w.dest.contents.length done
        (limitOf w.dest.contents.length done) ∧
      w.dest.contents <+: (w.addRecordLoop left begin).2.dest.contents ∧
      (w.addRecordLoop left begin).2.dest.fate = w.dest.fate ∧
      ((w.addRecordLoop left begin).1.ok = true →
        done = fragments w.dest.contents.length begin left ∧
        (w.addRecordLoop left begin).2.InSync ∧
        (w.addRecordLoop left begin).2.dest.contents.length
          = limitOf w.dest.contents.length done) ∧
      ((w.addRecordLoop left begin).2.InSync →
        nextHeader (w.addRecordLoop left begin).2.dest.contents.length
          = nextHeader (limitOf w.dest.contents.length done)) := by
  fun_induction addRecordLoop w left begin with
  | case1 w left begin w' avail n atEnd r hmore ih =>
    have hne : left.length ≠ n := by
      have hpos := hmore.2
      rw [List.length_drop] at hpos
      omega
    have hn : n = avail := by
      simp only [n] at hne ⊢
      omega
    have hemit : w'.emitPhysicalRecord (fragmentType begin atEnd) (left.take n) = (r.1, r.2) := rfl
    obtain ⟨hpre, hfate, hround⟩ := emitRound_spec h ht
      (f := ⟨nextHeader w.dest.contents.length, fragmentType begin atEnd, left.take n⟩) rfl
      (fragmentType_ne_zero _ _) (by rw [List.length_take]; exact hn ▸ min_le_left _ _) hemit
    rw [fragments_eq h ht left begin rfl, if_neg hne]
    rcases hround with ⟨hplaced, hlen, hsync⟩ | ⟨hs, -⟩
    · -- The fragment fills its block, so the next round has no trailer to fill.
      have hfull : r.2.blockOffset = kBlockSize := by
        have hle := blockOffset_switchBlock_le w
        simp only [r, w', blockOffset_emitPhysicalRecord, List.length_take]
        simp only [n, avail, w'] at hne hn ⊢
        omega
      have htrailer : r.2.TrailerSaved := fun hc => absurd hc.1 (by rw [hfull]; simp)
      obtain ⟨done, hdone, hstream, hpre', hfate', hok, hsync'⟩ := ih hsync htrailer
      have hlen' : r.2.dest.contents.length
          = nextHeader w.dest.contents.length + kHeaderSize + n := by
        have hle : n ≤ left.length := min_le_left _ _
        rw [hlen, Fragment.limit, List.length_take, min_eq_left hle]
      rw [hlen'] at hdone hstream hok hsync'
      have hlimit : Fragment.limit ⟨nextHeader w.dest.contents.length, fragmentType begin atEnd,
          left.take n⟩ = nextHeader w.dest.contents.length + kHeaderSize
            + n := hlen.symm.trans hlen'
      refine ⟨_ :: done, List.cons_prefix_cons.mpr ⟨rfl, hdone⟩, ⟨hplaced.mono hpre', ?_⟩,
        hpre.trans hpre', hfate'.trans hfate, fun hs => ?_, fun hs => ?_⟩
      · rw [limitOf, hlimit]
        exact hstream
      · obtain ⟨hall, hin, hend⟩ := hok hs
        refine ⟨by rw [hall], hin, ?_⟩
        rw [limitOf, hlimit]
        exact hend
      · rw [limitOf, hlimit]
        exact hsync' hs
    · exact absurd hmore.1 (by rw [hs]; simp)
  | case2 w left begin w' avail n atEnd r hstop =>
    have hemit : w'.emitPhysicalRecord (fragmentType begin atEnd) (left.take n) = (r.1, r.2) := rfl
    obtain ⟨hpre, hfate, hround⟩ := emitRound_spec h ht
      (f := ⟨nextHeader w.dest.contents.length, fragmentType begin atEnd, left.take n⟩) rfl
      (fragmentType_ne_zero _ _)
      (by rw [List.length_take]; exact (min_le_left _ _).trans (min_le_right _ _)) hemit
    rw [fragments_eq h ht left begin rfl]
    rcases hround with ⟨hplaced, hlen, hsync⟩ | ⟨hs, hsync⟩
    · refine ⟨[_], List.cons_prefix_cons.mpr ⟨rfl, List.nil_prefix⟩, ⟨hplaced, rfl⟩, hpre, hfate,
        fun hs => ?_, fun _ => congrArg nextHeader hlen⟩
      have hend : left.length = n := by
        by_contra hne
        refine hstop ⟨hs, ?_⟩
        rw [List.length_drop]
        omega
      rw [if_pos hend]
      exact ⟨rfl, hsync, hlen⟩
    · refine ⟨[], List.nil_prefix, rfl, hpre, hfate, fun hok => ?_, hsync⟩
      exact absurd hok (by rw [hs]; simp)

/-! ### No failures -/

theorem ok_emitPhysicalRecord {w : Writer} (h : w.dest.Sound) (t : RecordType) (payload : Bytes) :
    (w.emitPhysicalRecord t payload).1.ok = true := by
  simp [emitPhysicalRecord, emitRaw, WritableFile.append, WritableFile.flush, h _]

theorem fate_switchBlock (w : Writer) : w.switchBlock.dest.fate = w.dest.fate := by
  simp only [switchBlock]
  split
  · split <;> rfl
  · rfl

theorem ok_addRecordLoop {w : Writer} (h : w.dest.Sound) (left : Bytes) (begin : Bool) :
    (w.addRecordLoop left begin).1.ok = true := by
  fun_induction addRecordLoop w left begin with
  | case1 w left begin w' avail n atEnd r hmore ih =>
    refine ih fun k => ?_
    have hfate := (emitPhysicalRecord_cases w' (fragmentType begin atEnd) (left.take n)).1
    rw [hfate, fate_switchBlock]
    exact h k
  | case2 w left begin w' avail n atEnd r hstop =>
    refine ok_emitPhysicalRecord (fun k => ?_) _ _
    rw [fate_switchBlock]
    exact h k

/-- **With no failures**, the record is in the file as laid out, and the writer still in step. -/
theorem addRecord_of_sound {w : Writer} (h : w.InSync) (hs : w.dest.Sound) (record : Bytes) :
    (w.addRecord record).1.ok = true ∧ (w.addRecord record).2.InSync ∧
      (w.addRecord record).2.dest.Sound ∧
      w.dest.contents <+: (w.addRecord record).2.dest.contents ∧
      Stream (w.addRecord record).2.dest.contents w.dest.contents.length
        (fragments w.dest.contents.length true record)
        (w.addRecord record).2.dest.contents.length := by
  have hok := ok_addRecordLoop hs record true
  have ht : w.TrailerSaved := fun _ => by rw [hs]; rfl
  obtain ⟨done, -, hstream, hpre, hfate, hall, -⟩ := addRecordLoop_spec w record true h ht
  obtain ⟨hdone, hsync, hlen⟩ := hall hok
  refine ⟨hok, hsync, fun k => ?_, hpre, ?_⟩
  · rw [addRecord, hfate]
    exact hs k
  · rw [addRecord, hlen, ← hdone]
    exact hstream

end Writer

/-- The layout of a list of records in a file that ends at offset `p`. -/
def layout : ℕ → List Bytes → List (List Fragment)
  | _, [] => []
  | p, record :: records =>
    fragments p true record :: layout (limitOf p (fragments p true record)) records

theorem eq_nil_of_layout {p : ℕ} {records : List Bytes} (h : (layout p records).flatten = []) :
    records = [] := by
  cases records with
  | nil => rfl
  | cons record records =>
    rw [layout, fragments] at h
    exact absurd h (by simp)

theorem limitOf_append (p : ℕ) (fs gs : List Fragment) :
    limitOf p (fs ++ gs) = limitOf (limitOf p fs) gs := by
  induction fs generalizing p with
  | nil => rfl
  | cons f fs ih => exact ih f.limit

theorem layout_append (p : ℕ) (rs rs' : List Bytes) :
    layout p (rs ++ rs') = layout p rs ++ layout (limitOf p (layout p rs).flatten) rs' := by
  induction rs generalizing p with
  | nil => rfl
  | cons r rs ih =>
    rw [List.cons_append, layout, layout, ih, List.flatten_cons, limitOf_append, List.cons_append]

/-- One writer, all of whose calls succeed, lays out its records. -/
theorem Writer.addRecords_of_sound {w : Writer} (h : w.InSync) (hs : w.dest.Sound)
    (records : List Bytes) :
    (w.addRecords records).InSync ∧ (w.addRecords records).dest.Sound ∧
      w.dest.contents <+: (w.addRecords records).dest.contents ∧
      Stream (w.addRecords records).dest.contents w.dest.contents.length
        (layout w.dest.contents.length records).flatten
        (w.addRecords records).dest.contents.length := by
  induction records generalizing w with
  | nil => exact ⟨h, hs, List.prefix_rfl, rfl⟩
  | cons record records ih =>
    obtain ⟨-, hsync, hsound, hpre, hstream⟩ := w.addRecord_of_sound h hs record
    obtain ⟨hsync', hsound', hpre', hstream'⟩ := ih hsync hsound
    refine ⟨hsync', hsound', hpre.trans hpre', ?_⟩
    rw [layout, List.flatten_cons, ← hstream.eq_limitOf]
    exact (hstream.mono hpre').append hstream'

/-- **Where the records are.** Whatever the sessions, the file is the layout of all the records. -/
theorem stream_sessions {dest : WritableFile} (h : dest.Sound) (cuts : List (List Bytes)) :
    dest.contents <+: (sessions dest cuts).contents ∧
      Stream (sessions dest cuts).contents dest.contents.length
        (layout dest.contents.length cuts.flatten).flatten
        (sessions dest cuts).contents.length := by
  induction cuts generalizing dest with
  | nil => exact ⟨List.prefix_rfl, rfl⟩
  | cons records cuts ih =>
    obtain ⟨-, hsound, hpre, hstream⟩ :=
      (Writer.new dest dest.contents.length).addRecords_of_sound (Writer.inSync_new dest) h records
    obtain ⟨hpre', hstream'⟩ := ih hsound
    refine ⟨hpre.trans hpre', ?_⟩
    have hlimit : limitOf dest.contents.length (layout dest.contents.length records).flatten
        = (session dest records).contents.length := hstream.eq_limitOf.symm
    rw [List.flatten_cons, layout_append, List.flatten_append, hlimit]
    exact Stream.append (hstream.mono hpre') hstream'

end Log

end Squirrel
