import H2Tap.Conn.CompleteFrames
import H2Tap.Conn.Target
import H2Tap.Rebuild.Replay

/-!
# A capture that starts with reordered segments

A seeded direction counts its bytes from the segment that arrives first. Bytes before that segment
are dropped as retransmissions when they arrive later, so a capture that lost nothing is still found
to be misaligned if its first segment starts after the target. `reordered_start` says that this is
the only way: the capture is aligned exactly if its first segment starts at or before the target,
and then the header blocks are those that are decoded from the same segments in order.
-/

namespace H2Tap

open Lib

namespace Reassembler

/-- Of a segment that starts before the next expected byte, only what comes after it counts. -/
theorem push_early {r : Reassembler} {base : Seq} {k : Nat} (hinit : r.initialized = true)
    (hnext : r.nextSeq = base + BitVec.ofNat 32 k) {a : Nat} (hle : a ≤ k) (hnear : k < a + 2 ^ 31)
    (data : Bytes) (nowUs : Nat) :
    r.push (base + BitVec.ofNat 32 a) data nowUs =
      r.push (base + BitVec.ofNat 32 k) (data.drop (k - a)) nowUs := by
  have hstart : ∀ seq, r.start seq = r := fun seq => by rw [start, if_pos hinit]
  have hdelta : seqDelta (base + BitVec.ofNat 32 a) r.nextSeq = (a : Int) - k := by
    rw [hnext]
    exact seq_delta_near base (by omega) hnear
  have hoverlap : r.overlap (base + BitVec.ofNat 32 a) = k - a := by
    rw [overlap, hdelta]
    omega
  have hdue : (a : Int) - k ≤ 0 := by omega
  have hself : r.overlap r.nextSeq = 0 := by simp [overlap]
  rw [← hnext]
  simp only [push, hstart, pushData, hdelta, hoverlap, hdue, seq_delta_self, le_refl, hself,
    List.drop_zero, if_true]
  by_cases hold : data.length ≤ k - a
  · have hnil : data.drop (k - a) = [] := List.drop_eq_nil_of_le hold
    rw [hnil]
    simp [hold]
  · have hlength : (data.drop (k - a)).length = data.length - (k - a) := List.length_drop
    have hdata : data.isEmpty = false := by
      rw [List.isEmpty_eq_false_iff]
      exact List.length_pos_iff.mp (by omega)
    have htail : (data.drop (k - a)).isEmpty = false := by
      rw [List.isEmpty_eq_false_iff]
      exact List.length_pos_iff.mp (by omega)
    simp only [hdata, htail, Bool.false_eq_true, if_false]
    rw [if_neg (by omega), if_neg (by omega)]

end Reassembler

/-! ## A direction that is fed slices -/

namespace Direction

variable [HuffmanDecoding]

/-- The direction is fed a segment of the stream that starts at `base`. -/
def feedSlice (base : Seq) (stream : Bytes) (d : Direction) (s : Slice) :
    Direction × List ProcessedFrame :=
  d.feed (base + BitVec.ofNat 32 s.start) (s.data stream) s.nowUs

/-- A segment that does not make the reassembler declare a gap, when the first one started `first`
bytes into the stream. It has less than 2^30 bytes and starts within the window in which its
sequence number tells its place. -/
def arrivesAfter (base : Seq) (stream : Bytes) (first : Nat) (d : Direction) (s : Slice) : Prop :=
  s.len < 2 ^ 30 ∧ first + d.reasm.deliveredOff < s.start + 2 ^ 31 ∧
    s.start < first + d.reasm.deliveredOff + 2 ^ 31 ∧
    (d.reasm.push (base + BitVec.ofNat 32 s.start) (s.data stream) s.nowUs).2 = false

instance (base : Seq) (stream : Bytes) (first : Nat) (d : Direction) (s : Slice) :
    Decidable (d.arrivesAfter base stream first s) := inferInstanceAs (Decidable (_ ∧ _))

/-- The segments arrive in this order without loss: together they cover the stream, and no gap is
declared. -/
structure Lossless (base : Seq) (stream : Bytes) (d : Direction) (first : Slice)
    (later : List Slice) : Prop where
  within : ∀ s ∈ first :: later, s.Within stream
  covers : ∀ i < stream.length, ∃ s ∈ first :: later, s.Covers i
  arrive : Guarded (feedSlice base stream) (arrivesAfter base stream first.start) d (first :: later)

/-! ## Whether the capture is found to be misaligned -/

/-- A misalignment is never taken back. -/
theorem misaligned_parse {d : Direction} (h : d.snapshotMisaligned = true) :
    d.parse.1.snapshotMisaligned = true := by
  refine parse_keeps (P := fun t => t.snapshotMisaligned = true) (fun t ht => ?_) h
  cases hpending : t.pendingStartSeq with
  | none => exact (misaligned_parse_step t hpending).trans ht
  | some target =>
      simp only [parseStep, hpending]
      split
      · simp only [discardStep]
        split <;> exact ht
      · simp only [seekStep]
        split
        · split <;> exact ht
        · split
          · rfl
          · exact ht

omit [HuffmanDecoding] in
theorem misaligned_reassembled (d : Direction) (pushed : Reassembler × Bool) :
    (d.withReassembled pushed).snapshotMisaligned = d.snapshotMisaligned := by
  unfold withReassembled
  split <;> rfl

theorem misaligned_run (base : Seq) (stream : Bytes) {d : Direction} (slices : List Slice)
    (h : d.snapshotMisaligned = true) :
    (run (feedSlice base stream) d slices).1.snapshotMisaligned = true := by
  refine (run_invariant (feedSlice base stream) (P := fun t => t.snapshotMisaligned = true)
    (G := fun _ _ => True) (Q := fun _ => True) (fun t s ht _ => ⟨?_, trivial⟩) h
    (guarded_true d slices)).1
  exact misaligned_parse ((misaligned_reassembled _ _).trans ht)

/-- The direction has not passed its target without stopping there. -/
structure Aligned (target base : Seq) (d : Direction) : Prop where
  placed : d.reasm.Placed base
  ahead : d.reasm.HoldsAhead
  misaligned : d.snapshotMisaligned = false
  phase : d.pendingStartSeq = none ∨
    OnTheWay target base d ∧ (d.reasm.offset : Int) ≤ seqDelta target base

section

variable {target base : Seq} {d : Direction}

theorem Aligned.turn (h : Aligned target base d) : Aligned target base d.parseStep.next := by
  have hnext : d.parseStep.next.reasm.Placed base ∧ d.parseStep.next.reasm.HoldsAhead := by
    rcases reasm_parse_step d with hsame | ⟨n, hconsumed⟩
    · rw [hsame]
      exact ⟨h.placed, h.ahead⟩
    · rw [hconsumed]
      exact ⟨h.placed.consume n, h.ahead.consume n⟩
  rcases h.phase with hpending | ⟨hway, hle⟩
  · refine ⟨hnext.1, hnext.2, (misaligned_parse_step d hpending).trans h.misaligned, Or.inl ?_⟩
    cases hturn : d.parseStep with
    | stop d' =>
        rcases parse_step_stops hturn with rfl | ⟨-, n, rfl⟩
        · exact hpending
        · exact hpending
    | more d' frame => exact (parse_step_moves hpending hturn).2.1
  · have hrest : d.parseStep.next.snapshotMisaligned = false ∧
        (d.parseStep.next.pendingStartSeq = none ∨ OnTheWay target base d.parseStep.next ∧
          (d.parseStep.next.reasm.offset : Int) ≤ seqDelta target base) := by
      rw [hway.turn h.placed.baseSeq]
      split
      · split
        · exact ⟨h.misaligned, Or.inr ⟨hway, hle⟩⟩
        · refine ⟨h.misaligned, Or.inr ⟨⟨hway.pending, hway.discard, ?_⟩, ?_⟩⟩
          · simp only [Progress.next, Reassembler.offset, Reassembler.bufOff_consume] at hle ⊢
            omega
          · simp only [Progress.next, Reassembler.offset, Reassembler.bufOff_consume] at hle ⊢
            omega
      · rw [if_neg (by omega)]
        exact ⟨h.misaligned, Or.inl rfl⟩
    exact ⟨hnext.1, hnext.2, hrest.1, hrest.2⟩

omit [HuffmanDecoding] in
theorem Aligned.reassembled {pushed : Reassembler × Bool}
    (hreached : Reassembler.Reached base d.reasm pushed) (hgap : pushed.2 = false)
    (h : Aligned target base d) : Aligned target base (d.withReassembled pushed) := by
  have hoffset := hreached.no_gap hgap
  rw [withReassembled, hgap]
  refine ⟨hreached.placed, hreached.ahead, h.misaligned, h.phase.imp_right ?_⟩
  rintro ⟨hway, hle⟩
  have hnear := hway.near
  refine ⟨⟨hway.pending, hway.discard, ?_⟩, ?_⟩
  · simp only [Bool.false_eq_true, if_false, Reassembler.offset, hoffset] at hnear ⊢
    exact hnear
  · simp only [Bool.false_eq_true, if_false, Reassembler.offset, hoffset] at hle ⊢
    exact hle

theorem Aligned.feed (h : Aligned target base d) {seq : Seq} {data : Bytes} {nowUs : Nat}
    (hgap : (d.reasm.push seq data nowUs).2 = false) :
    Aligned target base (d.feed seq data nowUs).1 :=
  parse_keeps (fun _ ht => Aligned.turn ht)
    (Aligned.reassembled (h.placed.push h.ahead seq data nowUs) hgap h)

end

variable {base target : Seq} {stream : Bytes} {seeded : Direction} {first : Slice}
  {later : List Slice}

/-- The first segment starts less than half of the number space after the first byte, which comes
later and is then recognized as an early one. -/
theorem Lossless.near (h : Lossless base stream seeded first later) : first.start < 2 ^ 31 := by
  have hfirst := h.within first List.mem_cons_self
  obtain ⟨hlen, hend⟩ := hfirst
  obtain ⟨s, hs, hle, -⟩ := h.covers 0 (by omega)
  obtain ⟨d, -, hwindow, -⟩ := h.arrive.of_mem hs
  omega

/-- A capture without loss is found to be misaligned exactly if its first segment starts after the
target. -/
theorem aligned_iff (h : Lossless base stream seeded first later) (hfresh : seeded.reasm = .new)
    (hpending : seeded.pendingStartSeq = some target) (hdiscard : seeded.discard = 0)
    (hmisaligned : seeded.snapshotMisaligned = false) (hbefore : 0 ≤ seqDelta target base) :
    (run (feedSlice base stream) seeded (first :: later)).1.snapshotMisaligned = false ↔
      (first.start : Int) ≤ seqDelta target base := by
  have hnear := h.near
  have hdata := Slice.data_ne_nil (h.within first List.mem_cons_self)
  have hdelta := seq_delta_offset target base (n := first.start) (by omega)
  obtain ⟨hreached, hgap, hoffset⟩ :=
    Reassembler.first_push (base + BitVec.ofNat 32 first.start) hdata first.nowUs
  rw [← hfresh] at hgap hoffset
  set pushed := seeded.reasm.push (base + BitVec.ofNat 32 first.start) (first.data stream)
    first.nowUs with hpushed
  rw [← hfresh, ← hpushed] at hreached
  have hreassembled : seeded.withReassembled pushed = { seeded with reasm := pushed.1 } := by
    rw [withReassembled, hgap]
    rfl
  have hway : OnTheWay target (base + BitVec.ofNat 32 first.start)
      { seeded with reasm := pushed.1 } := by
    refine ⟨hpending, hdiscard, ?_⟩
    simp only [hoffset, hdelta]
    omega
  have hfed : (seeded.feedSlice base stream first).1 =
      ({ seeded with reasm := pushed.1 } : Direction).parse.1 := by
    rw [feedSlice, feed, ← hpushed, hreassembled]
  by_cases hle : (first.start : Int) ≤ seqDelta target base
  · refine iff_of_true ?_ hle
    have hstart : Aligned target (base + BitVec.ofNat 32 first.start)
        (seeded.feedSlice base stream first).1 := by
      rw [hfed]
      refine parse_keeps (fun _ ht => Aligned.turn ht)
        ⟨hreached.placed, hreached.ahead, hmisaligned, Or.inr ⟨hway, ?_⟩⟩
      simp only [hoffset, hdelta]
      omega
    have hstep : ∀ t s, Aligned target (base + BitVec.ofNat 32 first.start) t →
        t.arrivesAfter base stream first.start s →
        Aligned target (base + BitVec.ofNat 32 first.start) (t.feedSlice base stream s).1 ∧ True :=
      fun t s ht hguard => ⟨Aligned.feed ht hguard.2.2.2, trivial⟩
    have hend := run_invariant (Q := fun _ => True) (feedSlice base stream) hstep hstart h.arrive.2
    exact hend.1.misaligned
  · refine iff_of_false ?_ hle
    rw [Bool.not_eq_false, run]
    refine misaligned_run base stream later ?_
    have hturn := hway.turn hreached.placed.baseSeq
    simp only [hoffset, hdelta] at hturn
    rw [if_neg (by omega), if_pos (by omega)] at hturn
    rw [hfed, parse_of_more hturn]
    exact misaligned_parse rfl

/-! ## The header blocks -/

/-- Bytes that arrive on the way to the target. -/
theorem approaches_leads {src : Source} {skip : Nat} (hat : src.start.atFrame = true)
    (hstart : src.start.preSnapshotSkipped = skip) (hskip : skip < 2 ^ 31) :
    LeadsIn src fun k rest d => Approaches src skip k rest d ∧ (k < skip ∨ k = 0) := by
  intro k data rest d pushed hbefore hadds
  rcases approaches_parse hat hstart hskip (approaches_received hbefore.1 hadds) with
    ⟨hnone, hlater, hlt⟩ | hreads
  · exact Or.inl ⟨hnone, hlater, Or.inl hlt⟩
  · exact Or.inr hreads

section

variable {src : Source} {before : Nat → Bytes → Direction → Prop} {lead start : Nat} {more : Bytes}
  {seen : Nat → Prop} {pfs : List ProcessedFrame} {d : Direction}

/-- A segment that arrives once byte `start` of the stream is taken for the first one. -/
theorem Collects.slice (hkeeps : KeepsPlace src lead (stream.drop start).length)
    (hleads : LeadsIn src before)
    (hdelivery : src.delivery = .anyOrder (base + BitVec.ofNat 32 start) (stream.drop start))
    (htotal : (stream.drop start).length + more.length = lead + (framesWire src.frames).length)
    (h : Collects src before lead (base + BitVec.ofNat 32 start) (stream.drop start) more seen pfs
      d)
    {s : Slice} (hwithin : s.Within stream) (harrive : d.arrivesAfter base stream start s) :
    Collects src before lead (base + BitVec.ofNat 32 start) (stream.drop start) more
      (fun i => seen i ∨ s.Covers (start + i)) (pfs ++ (d.feedSlice base stream s).2)
      (d.feedSlice base stream s).1 := by
  obtain ⟨hlen, hlow, hhigh, hgap⟩ := harrive
  have hlength := Slice.data_length hwithin
  have hslice : s.data stream <+: stream.drop s.start := List.take_prefix _ _
  by_cases hearly : s.start < start
  · have hpush := Reassembler.push_early (k := start + d.reasm.deliveredOff)
      h.collected.collecting.initialized (by
        rw [h.collected.collecting.nextSeq, BitVec.add_assoc, ← BitVec.ofNat_add]) (by omega) hlow
      (s.data stream) s.nowUs
    have htail : (s.data stream).drop (start + d.reasm.deliveredOff - s.start) <+:
        (stream.drop start).drop d.reasm.deliveredOff := by
      rw [List.drop_drop]
      exact Reassembler.slice_tail hslice (by omega)
    have hshort : ((s.data stream).drop (start + d.reasm.deliveredOff - s.start)).length <
      2 ^ 30 := by
      rw [List.length_drop]
      omega
    rw [hpush, BitVec.ofNat_add, ← BitVec.add_assoc] at hgap
    have hhad : Collects src before lead (base + BitVec.ofNat 32 start) (stream.drop start) more
        (fun i => seen i ∨ i < d.reasm.deliveredOff) pfs d :=
      { h with bytes := fun i hi => hi.elim (h.bytes i) Or.inl }
    have hfed := hhad.feed hkeeps hleads hdelivery htotal htail (by omega) (by omega) hshort s.nowUs
      hgap
    have hfeed : d.feedSlice base stream s =
        d.feed (base + BitVec.ofNat 32 start + BitVec.ofNat 32 d.reasm.deliveredOff)
          ((s.data stream).drop (start + d.reasm.deliveredOff - s.start)) s.nowUs := by
      rw [feedSlice, Direction.feed, hpush, BitVec.ofNat_add, ← BitVec.add_assoc]
      rfl
    rw [hfeed]
    refine { hfed with bytes := fun i hi => hfed.bytes i ?_ }
    rw [List.length_drop, hlength]
    rcases hi with hseen | ⟨hle, hlt⟩
    · exact Or.inl (Or.inl hseen)
    · omega
  · have hplace : base + BitVec.ofNat 32 s.start =
        base + BitVec.ofNat 32 start + BitVec.ofNat 32 (s.start - start) := by
      rw [BitVec.add_assoc, ← BitVec.ofNat_add, Nat.add_sub_of_le (not_lt.mp hearly)]
    have hslice' : s.data stream <+: (stream.drop start).drop (s.start - start) := by
      rwa [List.drop_drop, Nat.add_sub_of_le (not_lt.mp hearly)]
    rw [hplace] at hgap
    have hfed := h.feed hkeeps hleads hdelivery htotal hslice' (by omega) (by omega)
      (by rw [hlength]; exact hlen) s.nowUs hgap
    rw [feedSlice, hplace]
    refine { hfed with bytes := fun i hi => hfed.bytes i (hi.imp_right ?_) }
    rintro ⟨hle, hlt⟩
    omega

/-- Any number of segments. -/
theorem Collects.slices (hkeeps : KeepsPlace src lead (stream.drop start).length)
    (hleads : LeadsIn src before)
    (hdelivery : src.delivery = .anyOrder (base + BitVec.ofNat 32 start) (stream.drop start))
    (htotal : (stream.drop start).length + more.length = lead + (framesWire src.frames).length)
    (h : Collects src before lead (base + BitVec.ofNat 32 start) (stream.drop start) more seen pfs
      d)
    {slices : List Slice} (hwithin : ∀ s ∈ slices, s.Within stream)
    (harrive : Guarded (feedSlice base stream) (arrivesAfter base stream start) d slices) :
    Collects src before lead (base + BitVec.ofNat 32 start) (stream.drop start) more
      (fun i => seen i ∨ ∃ s ∈ slices, s.Covers (start + i))
      (pfs ++ (run (feedSlice base stream) d slices).2.flatten)
      (run (feedSlice base stream) d slices).1 := by
  induction slices generalizing seen pfs d with
  | nil =>
      refine { h with
        bytes := fun i hi => h.bytes i (hi.resolve_right ?_)
        follows := by simpa using h.follows }
      rintro ⟨_, hmem, -⟩
      cases hmem
  | cons s slices ih =>
      have hfirst := h.slice hkeeps hleads hdelivery htotal (hwithin s List.mem_cons_self) harrive.1
      have hend := ih hfirst (fun t ht => hwithin t (List.mem_cons_of_mem _ ht)) harrive.2
      refine { hend with bytes := fun i hi => hend.bytes i ?_, follows := ?_ }
      · rcases hi with hseen | ⟨t, hmem, hcovers⟩
        · exact Or.inl (Or.inl hseen)
        · rcases List.mem_cons.mp hmem with rfl | hmem
          · exact Or.inl (Or.inr hcovers)
          · exact Or.inr ⟨t, hmem, hcovers⟩
      · simp only [run, List.flatten_cons, ← List.append_assoc]
        exact hend.follows

end

/-- The first segment finds the same state whether it starts the reassembler or not. -/
theorem first_slice (hfresh : seeded.reasm = .new)
    (hwithin : first.Within stream) :
    seeded.feedSlice base stream first = ({ seeded with
        reasm := Reassembler.new.start (base + BitVec.ofNat 32 first.start) } :
        Direction).feedSlice base stream first ∧
      (Guarded (feedSlice base stream) (arrivesAfter base stream first.start) seeded
          (first :: later) ↔
        Guarded (feedSlice base stream) (arrivesAfter base stream first.start) { seeded with
          reasm := Reassembler.new.start (base + BitVec.ofNat 32 first.start) }
          (first :: later)) := by
  have hpush := Reassembler.push_start Reassembler.new (base + BitVec.ofNat 32 first.start)
    (Slice.data_ne_nil hwithin) first.nowUs
  have hfeed : seeded.feedSlice base stream first = ({ seeded with
      reasm := Reassembler.new.start (base + BitVec.ofNat 32 first.start) } :
      Direction).feedSlice base stream first := by
    simp only [feedSlice, feed, hfresh, hpush]
    rfl
  refine ⟨hfeed, ?_⟩
  rw [Guarded, Guarded, hfeed, arrivesAfter, arrivesAfter, hfresh, hpush]
  rfl

section

variable {skip : Nat} {frames : List Frame} {more : Bytes}

/-- If the first segment starts at or before the target, then the header blocks are those of the
frames from the target on. -/
theorem reordered_blocks (hframes : FramesFrom stream skip frames more)
    (h : Lossless base stream seeded first later) (hle : first.start ≤ skip)
    (hseeded : Seeded (base + BitVec.ofNat 32 first.start) (skip - first.start) seeded) :
    ∃ i, (frames ≠ [] → ReceivedInFull frames more i) ∧
      decodedBlocks (run (feedSlice base stream) seeded (first :: later)).2.flatten =
        blocksOf (({ seeded with pendingStartSeq := none } : Direction).absorbOutput
          (frames.take i)) := by
  obtain ⟨hlenfirst, hendfirst⟩ := h.within first List.mem_cons_self
  set base' := base + BitVec.ofNat 32 first.start with hbase'
  set started : Direction := { seeded with reasm := Reassembler.new.start base' } with hstarted
  let src : Source := {
    start := { seeded with pendingStartSeq := none, preSnapshotSkipped := skip - first.start }
    frames := frames
    delivery := .anyOrder base' (stream.drop first.start) }
  obtain ⟨hdiscard, hsynced, hpreface⟩ := hseeded.mode
  have hat : src.start.atFrame = true := by
    simp [src, atFrame, hdiscard, hsynced, hpreface]
  obtain ⟨lead, hlead, hbytes⟩ := hframes.bytes
  have hdrop : stream.drop first.start ++ more = lead.drop first.start ++ framesWire frames := by
    rw [← List.drop_append_of_le_length (by omega), hbytes,
      List.drop_append_of_le_length (by omega)]
  have htotal : (stream.drop first.start).length + more.length =
      (skip - first.start) + (framesWire src.frames).length := by
    have hlengths := congrArg List.length hdrop
    rwa [List.length_append, List.length_append, List.length_drop, List.length_drop, hlead,
      ← List.length_drop] at hlengths
  have hkeeps : KeepsPlace src (skip - first.start) (stream.drop first.start).length :=
    hframes.keeps_place rfl ⟨fun hfalse => Bool.noConfusion hfalse, hsynced⟩ hle (by omega)
  let before : Nat → Bytes → Direction → Prop := fun k rest d =>
    Approaches src (skip - first.start) k rest d ∧ (k < skip - first.start ∨ k = 0)
  have hleads : LeadsIn src before := approaches_leads hat rfl hseeded.near
  have hcollected := Reassembler.collected_start base' (stream.drop first.start)
  have hstart : Collects src before (skip - first.start) base' (stream.drop first.start) more
      (fun _ => False) [] started := by
    refine ⟨hcollected, Nat.zero_le _, fun i hi => hi.elim, Or.inl
      ⟨⟨⟨?_, ⟨lead.drop first.start, ?_, hdrop⟩, hcollected⟩, Or.inr rfl⟩, rfl⟩⟩
    · simp only [src, hstarted, Delivery.anyOrder, ← hseeded.target]
      rw [show (Reassembler.new.start base').offset = seeded.preSnapshotSkipped from
        hseeded.skipped.symm]
    · rw [List.length_drop, hlead]
      rfl
  obtain ⟨hfirst, hguard⟩ : seeded.feedSlice base stream first = _ ∧
      (Guarded _ _ seeded (first :: later) ↔ _) :=
    first_slice hseeded.fresh (h.within first List.mem_cons_self)
  have hrun : run (feedSlice base stream) seeded (first :: later) =
      run (feedSlice base stream) started (first :: later) := by
    rw [run, run, hfirst]
  have harrive := hguard.mp h.arrive
  have hend := hstart.slices hkeeps hleads rfl htotal h.within harrive
  rw [hrun]
  generalize run (feedSlice base stream) started (first :: later) = final at hend
  have hdelivered : (stream.drop first.start).length ≤ final.1.reasm.deliveredOff := by
    refine Reassembler.delivered_of_all fun i hi => hend.bytes i (Or.inr ?_)
    rw [List.length_drop] at hi
    exact h.covers (first.start + i) (by omega)
  have hfollows := hend.follows
  rw [List.drop_eq_nil_of_le hdelivered, List.nil_append, List.nil_append] at hfollows
  rcases hfollows with ⟨⟨-, hbefore⟩, hnone⟩ | ⟨j, hreads, hsettled, hpfs⟩
  · have hempty : frames = [] := by
      refine hframes.reached.resolve_left ?_
      rw [List.length_drop] at hdelivered
      omega
    refine ⟨0, fun hne => absurd hempty hne, ?_⟩
    rw [hnone, hempty]
    rfl
  · obtain ⟨i, hfull, -, hblocks⟩ := reads_received_in_full hreads hsettled
    refine ⟨i, fun _ => hfull, ?_⟩
    rw [← blocks_of_frame_outputs, hpfs, returned_all_outputs, hblocks]
    exact congrArg blocksOf (absorb_output_skipped { seeded with pendingStartSeq := none } _ _)

end

/-! ## The same segments in order -/

/-- Segments that are sorted by their starts leave no hole, so none is held. -/
theorem sorted_arrive {slices : List Slice} {d : Direction} {k : Nat}
    (horder : d.reasm.InOrder base k) (hplaced : d.reasm.Placed base)
    (hwithin : ∀ s ∈ slices, s.Within stream ∧ s.len < 2 ^ 30)
    (hsorted : slices.Pairwise fun s t => s.start ≤ t.start)
    (hcovers : ∀ i < stream.length, k ≤ i → ∃ s ∈ slices, s.Covers i)
    (hnear : ∀ s ∈ slices, k ≤ s.start + 2 ^ 30) :
    Guarded (feedSlice base stream) (arrivesAfter base stream 0) d slices := by
  induction slices generalizing d k with
  | nil => trivial
  | cons s slices ih =>
      obtain ⟨hs, hlen⟩ := hwithin s List.mem_cons_self
      have hlength := Slice.data_length hs
      obtain ⟨hpositive, hend⟩ := hs
      have hnear' := hnear s List.mem_cons_self
      rw [List.pairwise_cons] at hsorted
      have hle : s.start ≤ k := by
        by_contra hlt
        obtain ⟨t, ht, hbefore, -⟩ := hcovers k (by omega) (le_refl k)
        rcases List.mem_cons.mp ht with rfl | ht
        · exact hlt hbefore
        · have hlater := hsorted.1 t ht
          omega
      have hreceived := horder.received
      have hdelivered := hplaced.received
      have hahead : d.reasm.HoldsAhead := fun segment hsegment => by
        rw [horder.ooo] at hsegment
        cases hsegment
      have hpush := Reassembler.push_early horder.initialized horder.nextSeq hle (by omega)
        (s.data stream) s.nowUs
      obtain ⟨hgap, -, hnext⟩ := Reassembler.push_in_order horder
        ((s.data stream).drop (k - s.start)) s.nowUs
      rw [← hpush] at hgap hnext
      rw [List.length_drop, hlength] at hnext
      have hplaced' := (hplaced.push hahead (base + BitVec.ofNat 32 s.start) (s.data stream)
        s.nowUs).placed
      obtain ⟨horder', hplaced''⟩ := reasm_parse
        (P := fun r => r.InOrder base (k + (s.len - (k - s.start))) ∧ r.Placed base)
        (fun r n hr => ⟨hr.1.consume n, hr.2.consume n⟩)
        (d := d.withReassembled (d.reasm.push (base + BitVec.ofNat 32 s.start) (s.data stream)
          s.nowUs))
        (by
          rw [withReassembled, hgap]
          exact ⟨hnext, hplaced'⟩)
      refine ⟨⟨hlen, by omega, by omega, hgap⟩, ih horder' hplaced''
        (fun t ht => hwithin t (List.mem_cons_of_mem _ ht)) hsorted.2 (fun i hi hlater => ?_)
        fun t ht => ?_⟩
      · obtain ⟨t, ht, hle', hlt⟩ := hcovers i hi (by omega)
        rcases List.mem_cons.mp ht with rfl | ht
        · omega
        · exact ⟨t, ht, hle', hlt⟩
      · have hlater := hsorted.1 t ht
        have hnear'' := hnear t (List.mem_cons_of_mem _ ht)
        omega

/-- The same segments in order arrive without loss, and the first of them starts the stream. -/
theorem Lossless.sorted (h : Lossless base stream seeded first later)
    (hfresh : seeded.reasm = .new) {ordered : List Slice} (hperm : ordered.Perm (first :: later))
    (hsorted : ordered.Pairwise fun s t => s.start ≤ t.start) :
    ∃ s slices, ordered = s :: slices ∧ s.start = 0 ∧ Lossless base stream seeded s slices := by
  cases ordered with
  | nil => exact absurd hperm.symm (List.not_perm_nil_cons _ _ ·.symm)
  | cons s slices =>
      have hwithin : ∀ t ∈ s :: slices, t.Within stream ∧ t.len < 2 ^ 30 := by
        intro t ht
        have hmem := hperm.mem_iff.mp ht
        obtain ⟨d, hlen, -⟩ := h.arrive.of_mem hmem
        exact ⟨h.within t hmem, hlen⟩
      have hcovers : ∀ i < stream.length, ∃ t ∈ s :: slices, t.Covers i := by
        intro i hi
        obtain ⟨t, ht, hcovers⟩ := h.covers i hi
        exact ⟨t, hperm.mem_iff.mpr ht, hcovers⟩
      have hs := (hwithin s List.mem_cons_self).1
      have hzero : s.start = 0 := by
        obtain ⟨hpositive, hend⟩ := hs
        obtain ⟨t, ht, hbefore, -⟩ := hcovers 0 (by omega)
        rcases List.mem_cons.mp ht with rfl | ht
        · omega
        · have hlater := (List.pairwise_cons.mp hsorted).1 t ht
          omega
      have hbase : base + BitVec.ofNat 32 s.start = base := by simp [hzero]
      refine ⟨s, slices, rfl, hzero, ⟨fun t ht => (hwithin t ht).1, hcovers, ?_⟩⟩
      refine (first_slice hfresh hs).2.mpr ?_
      rw [hbase, hzero]
      refine sorted_arrive (Reassembler.in_order_start base)
        ⟨rfl, rfl, by simp [Reassembler.start, Reassembler.new], rfl⟩ hwithin hsorted
        (fun i hi _ => hcovers i hi) fun t _ => Nat.zero_le _

end Direction

/-! ## The direction that is seeded -/

/-- A direction when its first packet has been seeded from a snapshot. -/
def seededDir (seed : Seed) : Direction := (DirState.new.seed false (some seed)).1.dir

theorem seeded_dir_eq {seed : Seed} (husable : seed.usable = true) :
    seededDir seed =
      (Direction.joinedMidstream true).seedFromSnapshot seed.entries seed.maxSize
        seed.nextFrameSeq := by
  simp only [seededDir, DirState.seed, DirState.new, Bool.false_eq_true, if_false, husable, if_true]

/-- A sequence number at or after another, by its distance. -/
theorem eq_add_seq_delta {target base : Seq} (h : 0 ≤ seqDelta target base) :
    target = base + BitVec.ofNat 32 (seqDelta target base).toNat ∧
      (seqDelta target base).toNat < 2 ^ 31 := by
  unfold seqDelta at h ⊢
  have hcond := BitVec.toInt_eq_toNat_cond (target - base)
  have hlt := (target - base).isLt
  have htoNat : (target - base).toInt.toNat = (target - base).toNat := by
    split at hcond <;> omega
  rw [htoNat, BitVec.ofNat_toNat, BitVec.setWidth_eq]
  refine ⟨by bv_omega, ?_⟩
  split at hcond <;> omega

open Direction in
/-- A capture that lost nothing is found to be aligned exactly if the segment that arrives first
starts at or before the target. If from the target on no frame makes a direction give up its place,
the capture gives the header blocks of the same segments in order, and is aligned, exactly then. -/
theorem reordered_start [HuffmanDecoding] {seed : Seed} (husable : seed.usable = true) {base : Seq}
    {stream : Bytes} (hbefore : 0 ≤ seqDelta seed.nextFrameSeq base) {first : Slice}
    {later : List Slice} (h : Lossless base stream (seededDir seed) first later) :
    let replayed := run (feedSlice base stream) (seededDir seed)
    ((replayed (first :: later)).1.snapshotMisaligned = false ↔
      (first.start : Int) ≤ seqDelta seed.nextFrameSeq base) ∧
    (KeepsFraming (stream.drop (seqDelta seed.nextFrameSeq base).toNat) →
      ∀ ordered : List Slice, ordered.Perm (first :: later) →
        (ordered.Pairwise fun s t => s.start ≤ t.start) →
        ((replayed (first :: later)).1.snapshotMisaligned = false ∧
            decodedBlocks (replayed (first :: later)).2.flatten =
              decodedBlocks (replayed ordered).2.flatten ↔
          (first.start : Int) ≤ seqDelta seed.nextFrameSeq base)) := by
  intro replayed
  simp only [replayed]
  rw [seeded_dir_eq husable] at h ⊢
  set seeded := (joinedMidstream true).seedFromSnapshot seed.entries seed.maxSize seed.nextFrameSeq
  have haligned := aligned_iff h rfl rfl rfl rfl hbefore
  refine ⟨haligned, fun hframing ordered hperm hsorted => ⟨fun hboth => haligned.mp hboth.1,
    fun hle => ⟨haligned.mpr hle, ?_⟩⟩⟩
  obtain ⟨htarget, hnear⟩ := eq_add_seq_delta hbefore
  obtain ⟨s, slices, rfl, hzero, hlossless⟩ := h.sorted rfl hperm hsorted
  obtain ⟨frames, more, hframes⟩ := exists_frames_from hframing
  have hseeded : ∀ n ≤ (seqDelta seed.nextFrameSeq base).toNat, Seeded (base + BitVec.ofNat 32 n)
      ((seqDelta seed.nextFrameSeq base).toNat - n) seeded := by
    intro n hn
    refine ⟨rfl, rfl, ?_, ⟨rfl, rfl, rfl⟩, by omega⟩
    rw [BitVec.add_assoc, ← BitVec.ofNat_add, Nat.add_sub_of_le hn, ← htarget]
    rfl
  obtain ⟨i, hfull, hblocks⟩ := reordered_blocks hframes h (by omega) (hseeded _ (by omega))
  obtain ⟨j, hfull', hblocks'⟩ :=
    reordered_blocks hframes hlossless (by omega) (hseeded _ (by omega))
  rw [hblocks, hblocks']
  by_cases hempty : frames = []
  · rw [hempty, List.take_nil, List.take_nil]
  · rw [received_in_full_unique (hfull hempty) (hfull' hempty)]

/-- Two header blocks, of which the second refers to what the first inserts. -/
def twoBlocks : Bytes := framesWire [Direction.insertingFrame, Direction.referringFrame]

/-- A snapshot after the first block. -/
def afterInserting : Seed where
  entries := [Field.new (asciiBytes "foo") (asciiBytes "bar")]
  maxSize := 4096
  nextFrameSeq := 118
  usable := true
  reason := none

open Direction in
/-- A segment from before the target arrives first, then one that ends the stream, then the two that
are missing. -/
theorem reordered_start_early :
    let _ := noHuffman.toHuffmanDecoding
    let replayed := run (feedSlice 100 twoBlocks) (seededDir afterInserting)
    (replayed [⟨5, 10, 0⟩, ⟨20, 8, 1⟩, ⟨0, 7, 2⟩, ⟨15, 5, 3⟩]).1.snapshotMisaligned = false ∧
      decodedBlocks (replayed [⟨5, 10, 0⟩, ⟨20, 8, 1⟩, ⟨0, 7, 2⟩, ⟨15, 5, 3⟩]).2.flatten =
        decodedBlocks (replayed [⟨0, 7, 2⟩, ⟨5, 10, 0⟩, ⟨15, 5, 3⟩, ⟨20, 8, 1⟩]).2.flatten := by
  intro _ replayed
  have hlossless : Lossless 100 twoBlocks (seededDir afterInserting) ⟨5, 10, 0⟩
      [⟨20, 8, 1⟩, ⟨0, 7, 2⟩, ⟨15, 5, 3⟩] :=
    ⟨by decide +kernel, by decide +kernel, by decide +kernel⟩
  have husable : afterInserting.usable = true := rfl
  have hiff := (reordered_start husable (by decide) hlossless).2
    (by decide +kernel) [⟨0, 7, 2⟩, ⟨5, 10, 0⟩, ⟨15, 5, 3⟩, ⟨20, 8, 1⟩] (by decide) (by decide)
  exact hiff.mpr (by decide)

open Direction in
/-- The two segments of a stream that starts at the target arrive in the wrong order. None is lost,
yet the capture is found to be misaligned and gives no header block. -/
theorem reordered_start_misaligned :
    let _ := noHuffman.toHuffmanDecoding
    let seed : Seed := ⟨[], 4096, 100, true, none⟩
    let replayed := run (feedSlice 100 twoBlocks) (seededDir seed)
    Lossless 100 twoBlocks (seededDir seed) ⟨14, 14, 0⟩ [⟨0, 14, 1⟩] ∧
      seqDelta seed.nextFrameSeq 100 = 0 ∧ KeepsFraming twoBlocks ∧
      (replayed [⟨14, 14, 0⟩, ⟨0, 14, 1⟩]).1.snapshotMisaligned = true ∧
      (replayed [⟨0, 14, 1⟩, ⟨14, 14, 0⟩]).1.snapshotMisaligned = false ∧
      (decodedBlocks (replayed [⟨14, 14, 0⟩, ⟨0, 14, 1⟩]).2.flatten).length = 0 ∧
      (decodedBlocks (replayed [⟨0, 14, 1⟩, ⟨14, 14, 0⟩]).2.flatten).length = 2 := by
  intro _ seed replayed
  exact ⟨⟨by decide +kernel, by decide +kernel, by decide +kernel⟩, by decide, by decide +kernel,
    by decide +kernel, by decide +kernel, by decide +kernel, by decide +kernel⟩

end H2Tap
