import Mathlib.Data.List.TakeWhile
import Squirrel.Db.LogStream

/-!
# Logs read back

A log file is the layout of its records, whatever sessions wrote it, and the reader assembles the
layout back to the records. What is left to say is what happens behind the last fragment: nothing, a
preallocated region of zeros, or, in a file cut off at an arbitrary offset, an initial piece of the
fragment that was cut.

## Main results

* `readAll_sessions` — every record of every session is read back, silently
* `readAll_take_sessions` — from a file cut off at `c`, the records that lie in front of `c`
-/

namespace Squirrel

namespace Log

open Reader (Assembly)

/-! ### Preallocated regions -/

namespace Reader

variable {data : Bytes} {p : ℕ} {r : Reader}

/-- **A region of zeros ends silently.** Each block of it is one bad record, dropped unreported. -/
theorem Steady.readFrom_zeros (h : Steady data p r) {z : ℕ}
    (hz : data.drop p = List.replicate z 0) (fragment : Bytes) :
    ∃ r', r.readFrom .start fragment = ([], r') ∧ r'.reports = r.reports := by
  induction z using Nat.strong_induction_on generalizing p r with
  | _ z ih =>
    obtain ⟨r₀, hload, hm, hphys⟩ := h.refill fragment
    set q := skipTrailer data.length p with hq
    have hle : p ≤ q := le_skipTrailer _ _
    have hdrop : data.drop q = List.replicate (z - (q - p)) 0 := by
      rw [← Nat.add_sub_of_le hle, ← List.drop_drop, hz, List.drop_replicate,
        Nat.add_sub_cancel_left]
    have hbuf : r₀.buffer = List.replicate r₀.buffer.length 0 := by
      conv_lhs => rw [hload.buffer_eq, hdrop, List.take_replicate]
      rw [hload.buffer_eq, hdrop, List.take_replicate, List.length_replicate]
    have hcleared : Steady data (q + r₀.buffer.length) { r₀ with buffer := [] } :=
      h.moved hload.toAt.clear ⟨hm.1, hm.2, hm.3, hm.4, hm.5, hm.6⟩
    by_cases hshort : r₀.buffer.length < kHeaderSize
    · rw [if_pos hshort] at hphys
      exact ⟨_, readFrom_eof _ hphys, hm.reports⟩
    · rw [if_neg hshort, parseRecord_of_zeros hbuf (Nat.not_lt.mp hshort)] at hphys
      have hround : { r₀ with buffer := [] }.round .start kBadRecord fragment
          = .more .start { r₀ with buffer := [] } := by
        simp only [round]
        rw [if_neg (by rw [hm.resyncing, h.resyncing]; simp)]
        rfl
      have hsmall : r₀.buffer.length ≤ z - (q - p) := by
        have := congrArg List.length hload.bytes
        rw [hdrop, List.length_append, List.length_replicate] at this
        omega
      have hpos : 0 < kHeaderSize := by decide
      obtain ⟨r', hread, hreports⟩ := ih (z - (q - p) - r₀.buffer.length) (by omega) hcleared
        (by rw [← List.drop_drop, hdrop, List.drop_replicate])
      refine ⟨r', ?_, hreports.trans hm.reports⟩
      rw [readFrom, readLoop_more hphys hround]
      exact hread

end Reader

/-! ### Whole logs -/

/-- The file offset of a record's first physical header. -/
def recordOffset : List Fragment → ℕ
  | [] => 0
  | f :: _ => f.offset

theorem recordOffset_cons (f : Fragment) (fs : List Fragment) : recordOffset (f :: fs) = f.offset :=
  rfl

theorem recordOffset_fragments (p : ℕ) (begin : Bool) (left : Bytes) :
    recordOffset (fragments p begin left) = nextHeader p := by
  rw [fragments, recordOffset_cons]

/-- A layout assembles to its records, and nothing is left over. -/
theorem assemble_layout (p : ℕ) (records : List Bytes) :
    assemble .start (layout p records).flatten
      = (records.zip ((layout p records).map recordOffset), .start) := by
  induction records generalizing p with
  | nil => rfl
  | cons record records ih =>
    rw [layout, List.flatten_cons, assemble_append,
      assemble_fragments p true record .start fun hf => absurd hf (by simp), ih, List.map_cons,
      recordOffset_fragments, List.zip_cons_cons]
    rfl

theorem length_layout (p : ℕ) (records : List Bytes) :
    (layout p records).length = records.length := by
  induction records generalizing p with
  | nil => rfl
  | cons record records ih => rw [layout, List.length_cons, ih, List.length_cons]

/-- The records of a layout, without their offsets. -/
theorem map_fst_zip_layout (p : ℕ) (records : List Bytes) :
    (records.zip ((layout p records).map recordOffset)).map Prod.fst = records := by
  refine List.map_fst_zip ?_
  rw [List.length_map, length_layout]

theorem orderly_layout (p : ℕ) (records : List Bytes) :
    Orderly .start (layout p records).flatten := by
  induction records generalizing p with
  | nil => exact trivial
  | cons record records ih =>
    rw [layout, List.flatten_cons]
    refine Orderly.append (orderly_initial p true record .start _ (fun hf => absurd hf (by simp))
      (fun _ => rfl) List.prefix_rfl) ?_
    rw [assemble_fragments p true record .start fun hf => absurd hf (by simp)]
    exact ih _

/-- **Log round trip.** Whatever the records, the sessions that wrote them and the number of zero
bytes behind them, the reader returns exactly the records, each with the offset of its first
physical header, and reports nothing. The first conjunct says where the headers are. -/
theorem readAll_sessions (dest : WritableFile) (hdest : dest.Sound) (hempty : dest.contents = [])
    (cuts : List (List Bytes)) (z : ℕ) (source : SequentialFile) (hsource : source.Sound)
    (hcontents : source.contents = (sessions dest cuts).contents ++ List.replicate z 0)
    (reporter : Bool) :
    Stream (sessions dest cuts).contents 0 (layout 0 cuts.flatten).flatten
        (sessions dest cuts).contents.length ∧
      (Reader.new source reporter true 0).readAll.1
        = cuts.flatten.zip ((layout 0 cuts.flatten).map recordOffset) ∧
      (Reader.new source reporter true 0).readAll.2.reports = [] := by
  have hstream := (stream_sessions hdest cuts).2
  rw [hempty, List.length_nil] at hstream
  have hsteady := Reader.steady_new hsource reporter true
  have hsrc : Stream source.contents 0 (layout 0 cuts.flatten).flatten
      (sessions dest cuts).contents.length :=
    hstream.mono (by rw [hcontents]; exact List.prefix_append _ _)
  obtain ⟨r₁, fragment, hsteady₁, -, hreports₁, hread₁⟩ :=
    hsteady.readFrom_stream hsrc .start []
  obtain ⟨r₂, hread₂, hreports₂⟩ := hsteady₁.readFrom_zeros (z := z)
    (by rw [hcontents, List.drop_left]) fragment
  rw [assemble_layout, hread₂, List.append_nil, ← hsteady.readAll_eq] at hread₁
  refine ⟨hstream, ?_, ?_⟩
  · rw [hread₁]
  · rw [hread₁, hreports₂, hreports₁ (orderly_layout _ _)]
    rfl

/-- Two sessions and three zero bytes: `"hi"` and the empty record, then `"!"`. -/
theorem readAll_two_sessions :
    (Reader.new ⟨(sessions WritableFile.fresh [[[104, 105], []], [[33]]]).contents
        ++ List.replicate 3 0, 0, fun _ => .success⟩ true true 0).readAll.1
      = [([104, 105], 0), ([], 9), ([33], 16)] := by
  have h := (readAll_sessions WritableFile.fresh (fun _ => rfl) rfl [[[104, 105], []], [[33]]] 3
    ⟨_, 0, fun _ => .success⟩ (fun _ => rfl) rfl true).2.1
  rw [h]
  simp [layout, fragments, limitOf, avail, nextHeader, blockLimit, kBlockSize, kHeaderSize,
    Fragment.limit, recordOffset]

/-! ### Logs cut off -/

theorem Fragment.Placed.take {data : Bytes} {p c : ℕ} {f : Fragment} (h : f.Placed data p)
    (hc : f.limit ≤ c) : f.Placed (data.take c) p where
  next := h.next
  inBlock := h.inBlock
  stored := by
    rw [List.drop_take]
    refine List.prefix_take_iff.mpr ⟨h.stored, ?_⟩
    rw [Fragment.bytes, length_physicalRecord]
    rw [Fragment.limit] at hc
    omega
  kind := h.kind

/-- Cut off inside a fragment, or in the trailer in front of it. -/
theorem Fragment.Placed.cutShort {data : Bytes} {p c : ℕ} {f : Fragment} (h : f.Placed data p)
    (hc : c < f.limit) (hp : p ≤ c) (hlen : (data.take c).length = c) :
    CutShort (data.take c) (skipTrailer (data.take c).length p) := by
  rw [hlen]
  by_cases hnext : nextHeader p ≤ c
  · rw [skipTrailer_eq_nextHeader hnext, h.next]
    refine Or.inr ⟨?_, f.type, f.payload, ?_, ?_, ?_⟩
    · have := h.inBlock
      omega
    · have := h.inBlock
      simp only [Fragment.limit, blockLimit, kBlockSize, kHeaderSize] at this
      omega
    · rw [hlen]
      exact hc
    · rw [List.drop_take]
      refine List.prefix_of_prefix_length_le (List.take_prefix _ _) h.stored ?_
      rw [List.length_take, length_physicalRecord]
      rw [Fragment.limit] at hc
      omega
  · have hskip : skipTrailer c p = p := by
      rw [nextHeader] at hnext
      rw [skipTrailer, if_neg]
      rintro ⟨hle, hlt⟩
      rw [if_pos hlt] at hnext
      exact hnext hle
    rw [hskip]
    refine Or.inl ?_
    rw [nextHeader] at hnext
    split at hnext <;> omega

/-- The fragments in front of the cut are still a run, and what follows is cut short. -/
theorem Stream.take {data : Bytes} {p c : ℕ} {fs : List Fragment}
    (h : Stream data p fs data.length) (hp : p ≤ c) (hc : c ≤ data.length) :
    Stream (data.take c) p (fs.takeWhile fun f => f.limit ≤ c)
        (limitOf p (fs.takeWhile fun f => f.limit ≤ c)) ∧
      CutShort (data.take c)
        (skipTrailer (data.take c).length (limitOf p (fs.takeWhile fun f => f.limit ≤ c))) := by
  have hlen : (data.take c).length = c := by rw [List.length_take, min_eq_left hc]
  induction fs generalizing p with
  | nil =>
    refine ⟨rfl, Or.inl ?_⟩
    have hpos : 0 < kHeaderSize := by decide
    have hle := le_skipTrailer (data.take c).length p
    have heq : p = data.length := h
    rw [List.takeWhile_nil, limitOf]
    omega
  | cons f fs ih =>
    obtain ⟨hplaced, hrest⟩ := h
    by_cases hf : f.limit ≤ c
    · rw [List.takeWhile_cons_of_pos (by simpa using hf)]
      obtain ⟨hstream, hshort⟩ := ih hrest hf
      exact ⟨⟨hplaced.take hf, hstream⟩, hshort⟩
    · rw [List.takeWhile_cons_of_neg (by simpa using hf)]
      exact ⟨rfl, hplaced.cutShort (Nat.not_le.mp hf) hp hlen⟩

theorem Stream.limit_mem {data : Bytes} {p q : ℕ} {fs : List Fragment} (h : Stream data p fs q)
    {f : Fragment} (hf : f ∈ fs) : p < f.limit ∧ f.limit ≤ q := by
  induction fs generalizing p with
  | nil => exact absurd hf List.not_mem_nil
  | cons g fs ih =>
    rcases List.mem_cons.mp hf with rfl | hf'
    · exact ⟨h.1.lt_limit, h.2.le⟩
    · obtain ⟨hlt, hle⟩ := ih h.2 hf'
      exact ⟨h.1.lt_limit.trans hlt, hle⟩

/-- All of a record's fragments end within the first `c` bytes. -/
def Within (c : ℕ) (fs : List Fragment) : Bool := fs.all fun f => f.limit ≤ c

theorem exists_fragments_of_mem_zip {p : ℕ} {records : List Bytes} {x : Bytes × List Fragment}
    (hx : x ∈ records.zip (layout p records)) : ∃ p', x.2 = fragments p' true x.1 := by
  induction records generalizing p with
  | nil => exact absurd hx List.not_mem_nil
  | cons record records ih =>
    rcases List.mem_cons.mp hx with rfl | hx'
    · exact ⟨p, rfl⟩
    · exact ih hx'

/-- The first fragment of a record is one of the layout. -/
theorem exists_first_of_mem_zip {p : ℕ} {records : List Bytes} {x : Bytes × List Fragment}
    (hx : x ∈ records.zip (layout p records)) :
    ∃ f ∈ x.2, f ∈ (layout p records).flatten ∧ recordOffset x.2 = f.offset := by
  obtain ⟨p', heq⟩ := exists_fragments_of_mem_zip hx
  obtain ⟨f, fs, hfs⟩ : ∃ f fs, x.2 = f :: fs := by
    rw [heq, fragments]
    exact ⟨_, _, rfl⟩
  have hf : f ∈ x.2 := hfs ▸ List.mem_cons_self
  exact ⟨f, hf, List.mem_flatten.mpr ⟨x.2, (List.of_mem_zip hx).2, hf⟩, by rw [hfs]; rfl⟩

/-- Behind a cut there is no whole record. -/
theorem not_within_of_lt {data : Bytes} {p q c : ℕ} {records : List Bytes} (hc : c < p)
    (h : Stream data p (layout p records).flatten q) :
    (records.zip (layout p records)).filter (fun x => Within c x.2) = [] := by
  refine List.filter_eq_nil_iff.mpr fun x hx => ?_
  obtain ⟨f, hf, hmem, -⟩ := exists_first_of_mem_zip hx
  have hlt := (h.limit_mem hmem).1
  rw [Within, List.all_eq_true]
  intro hall
  have hle := hall f hf
  rw [decide_eq_true_eq] at hle
  omega

/-- A cut layout assembles to the records in front of the cut, in an orderly way. -/
theorem assemble_takeWhile_layout {data : Bytes} {p q : ℕ} (c : ℕ) {records : List Bytes}
    (h : Stream data p (layout p records).flatten q) :
    (assemble .start ((layout p records).flatten.takeWhile fun f => f.limit ≤ c)).1.map Prod.fst
        = ((records.zip (layout p records)).filter fun x => Within c x.2).map Prod.fst ∧
      Orderly .start ((layout p records).flatten.takeWhile fun f => f.limit ≤ c) := by
  induction records generalizing p with
  | nil => exact ⟨rfl, trivial⟩
  | cons record records ih =>
    rw [layout, List.flatten_cons] at h ⊢
    set fs := fragments p true record with hfs
    have hexpects : Assembly.Expects .start true := fun hf => absurd hf (by simp)
    obtain ⟨q', hhead, hrest⟩ := h.split
    have hq := hhead.eq_limitOf
    subst hq
    by_cases hall : ∀ f ∈ fs, f.limit ≤ c
    · have hwithin : Within c fs = true := by simpa [Within] using hall
      obtain ⟨hih, hord⟩ := ih hrest
      have hasm := assemble_fragments p true record .start hexpects
      rw [List.takeWhile_append_of_pos (by simpa using hall), List.zip_cons_cons,
        List.filter_cons_of_pos (by simpa using hwithin), assemble_append, List.map_append,
        List.map_cons, ← hih, hasm]
      refine ⟨rfl, Orderly.append ?_ ?_⟩
      · exact orderly_initial p true record .start _ hexpects (fun _ => rfl) List.prefix_rfl
      · rw [hasm]
        exact hord
    · obtain ⟨f, hf, hlt⟩ : ∃ f ∈ fs, c < f.limit := by
        simpa using hall
      have hwithin : ¬ Within c fs = true := by
        simpa [Within] using ⟨f, hf, hlt⟩
      have hne : fs.takeWhile (fun f => f.limit ≤ c) ≠ fs := by
        intro heq
        have hle := List.takeWhile_eq_self_iff.mp heq f hf
        rw [decide_eq_true_eq] at hle
        omega
      have htake : (fs ++ (layout (limitOf p fs) records).flatten).takeWhile (fun f => f.limit ≤ c)
          = fs.takeWhile (fun f => f.limit ≤ c) := by
        rw [List.takeWhile_append, if_neg]
        exact fun hlen => hne ((List.takeWhile_prefix _).eq_of_length hlen)
      rw [htake, List.zip_cons_cons, List.filter_cons_of_neg (by simpa using hwithin),
        not_within_of_lt (hlt.trans_le (hhead.limit_mem hf).2) hrest,
        assemble_incomplete p true record .start _ hexpects (List.takeWhile_prefix _) hne]
      exact ⟨rfl, orderly_initial p true record .start _ hexpects (fun _ => rfl)
        (List.takeWhile_prefix _)⟩

/-- **Crash truncation is clean.** From the first `c` bytes of a log, the reader returns exactly the
records all of whose fragments lie within them, and reports nothing. The first conjunct says where
the fragments are. -/
theorem readAll_take_sessions (dest : WritableFile) (hdest : dest.Sound)
    (hempty : dest.contents = []) (cuts : List (List Bytes)) (c : ℕ)
    (hc : c ≤ (sessions dest cuts).contents.length) (source : SequentialFile)
    (hsource : source.Sound) (hcontents : source.contents = (sessions dest cuts).contents.take c)
    (reporter : Bool) :
    Stream (sessions dest cuts).contents 0 (layout 0 cuts.flatten).flatten
        (sessions dest cuts).contents.length ∧
      (Reader.new source reporter true 0).readAll.1.map Prod.fst
        = ((cuts.flatten.zip (layout 0 cuts.flatten)).filter fun x => Within c x.2).map Prod.fst ∧
      (Reader.new source reporter true 0).readAll.2.reports = [] := by
  have hstream := (stream_sessions hdest cuts).2
  rw [hempty, List.length_nil] at hstream
  obtain ⟨hrecords, hord⟩ := assemble_takeWhile_layout c hstream
  obtain ⟨hcut, hshort⟩ := hstream.take (Nat.zero_le c) hc
  have hsteady := Reader.steady_new hsource reporter true
  rw [← hcontents] at hcut hshort
  obtain ⟨r₁, fragment, hsteady₁, -, hreports₁, hread₁⟩ := hsteady.readFrom_stream hcut .start []
  obtain ⟨r₂, hread₂, hreports₂⟩ := hsteady₁.readFrom_short hshort
    (assemble .start ((layout 0 cuts.flatten).flatten.takeWhile fun f => f.limit ≤ c)).2 fragment
  rw [hread₂, List.append_nil, ← hsteady.readAll_eq] at hread₁
  refine ⟨hstream, ?_, ?_⟩
  · rw [hread₁]
    exact hrecords
  · rw [hread₁, hreports₂, hreports₁ hord]
    rfl

/-- The same log cut off inside its third record, whose header starts at offset 16. -/
theorem readAll_take_two_sessions :
    (Reader.new ⟨(sessions WritableFile.fresh [[[104, 105], []], [[33]]]).contents.take 20, 0,
        fun _ => .success⟩ true true 0).readAll.1.map Prod.fst = [[104, 105], []] := by
  have hlen : 20 ≤ (sessions WritableFile.fresh [[[104, 105], []], [[33]]]).contents.length := by
    have hend := (@stream_sessions WritableFile.fresh (fun _ => rfl)
      [[[104, 105], []], [[33]]]).2.eq_limitOf
    rw [hend]
    simp [layout, fragments, limitOf, avail, nextHeader, blockLimit, kBlockSize, kHeaderSize,
      Fragment.limit, WritableFile.fresh]
  have h := (readAll_take_sessions WritableFile.fresh (fun _ => rfl) rfl [[[104, 105], []], [[33]]]
    20 hlen ⟨_, 0, fun _ => .success⟩ (fun _ => rfl) rfl true).2.1
  rw [h]
  simp [layout, fragments, limitOf, avail, nextHeader, blockLimit, kBlockSize, kHeaderSize,
    Fragment.limit, Within]

end Log

end Squirrel
