import H2Tap.Conn.FrameBoundary

/-!
# Seeking the frame boundary of a snapshot

A direction that was seeded from a snapshot drops bytes until it stands at the recorded sequence
number, and reads frames from there. `Seeks` is its state while bytes are dropped; `seeks_run` says
that it then follows the stream from the recorded boundary on, and `frames_after_target` that no
frame it returns starts before.
-/

namespace H2Tap

open Lib

namespace Reassembler

/-- The first segment of a direction without a SYN is in order. -/
theorem in_order_start (seq : Seq) : (new.start seq).InOrder seq 0 :=
  ⟨rfl, rfl, rfl, by simp [start, new], rfl⟩

/-- A segment with data initializes the reassembler before it is looked at. -/
theorem push_start (r : Reassembler) (seq : Seq) {data : Bytes} (hdata : data ≠ []) (nowUs : Nat) :
    r.push seq data nowUs = (r.start seq).push seq data nowUs := by
  have hempty : data.isEmpty = false := by simpa using hdata
  have hstart : (r.start seq).start seq = r.start seq := by
    unfold start
    split
    · rfl
    · rfl
  simp only [push, hempty, Bool.false_eq_true, if_false, hstart]

end Reassembler

namespace Direction

/-! ## Dropping bytes until the target -/

/-- The direction has dropped the first bytes of a stream whose frames start `skip` bytes on. -/
structure Approaches (src : Source) (skip k : Nat) (rest : Bytes) (d : Direction) : Prop where
  seeking : d = { src.start with
    pendingStartSeq := some (src.delivery.base + BitVec.ofNat 32 skip)
    preSnapshotSkipped := d.reasm.offset
    reasm := d.reasm }
  bytes : ∃ tail, tail.length + d.reasm.offset = skip ∧
    d.reasm.available ++ rest = tail ++ framesWire src.frames
  order : src.delivery.Holds d.reasm k

/-- The same, for segments that arrive in order. -/
structure Seeks (src : Source) (base : Seq) (skip k : Nat) (rest : Bytes)
    (d : Direction) : Prop where
  delivery : src.delivery = .inOrder base
  seeking : d = { src.start with
    pendingStartSeq := some (base + BitVec.ofNat 32 skip)
    preSnapshotSkipped := d.reasm.offset
    reasm := d.reasm }
  bytes : ∃ tail, tail.length + d.reasm.offset = skip ∧
    d.reasm.available ++ rest = tail ++ framesWire src.frames
  order : d.reasm.InOrder base k

theorem seeks_iff_approaches {src : Source} {base : Seq} (hdelivery : src.delivery = .inOrder base)
    (skip k : Nat) (rest : Bytes) (d : Direction) :
    Seeks src base skip k rest d ↔ Approaches src skip k rest d := by
  have hbase : src.delivery.base = base := by rw [hdelivery]; rfl
  have horder : src.delivery.Holds d.reasm k ↔ d.reasm.InOrder base k := by rw [hdelivery]; rfl
  exact ⟨fun h => ⟨hbase ▸ h.seeking, h.bytes, horder.mpr h.order⟩,
    fun h => ⟨hdelivery, hbase ▸ h.seeking, h.bytes, horder.mp h.order⟩⟩

variable [HuffmanDecoding]

section

variable {src : Source} {base : Seq} {skip k : Nat} {rest : Bytes} {d : Direction}

/-- A turn of a seeking direction, by how many bytes are missing to the target. -/
theorem seek_turn (hskip : skip < 2 ^ 31) (hdiscard : d.discard = 0)
    (hpending : d.pendingStartSeq = some (base + BitVec.ofNat 32 skip))
    (hbase : d.reasm.baseSeq = base) (hle : d.reasm.offset ≤ skip) : d.parseStep =
      if skip - d.reasm.offset > 0 then
        if min (skip - d.reasm.offset) d.reasm.available.length = 0 then .stop d
        else .more { d with
          reasm := d.reasm.consume (min (skip - d.reasm.offset) d.reasm.available.length)
          preSnapshotSkipped := d.preSnapshotSkipped +
            min (skip - d.reasm.offset) d.reasm.available.length } none
      else .more { d with pendingStartSeq := none } none := by
  have hdelta : seqDelta (base + BitVec.ofNat 32 skip) d.reasm.nextUnparsedSeq =
      ((skip - d.reasm.offset : Nat) : Int) := by
    rw [Reassembler.nextUnparsedSeq, Reassembler.seqAt, hbase]
    simp only [Reassembler.offset] at hle ⊢
    rw [seq_delta_near base (by omega) (by omega)]
    omega
  simp only [parseStep, hdiscard, gt_iff_lt, lt_self_iff_false, if_false, hpending, seekStep,
    hdelta, Int.toNat_natCast]
  by_cases hahead : 0 < skip - d.reasm.offset
  · have hpositive : (0 : Int) < ((skip - d.reasm.offset : Nat) : Int) := by omega
    simp only [hahead, hpositive, if_true]
  · have hzero : ((skip - d.reasm.offset : Nat) : Int) = 0 := by omega
    simp only [hahead, hzero, lt_self_iff_false, if_false]

theorem Approaches.turn (hat : src.start.atFrame = true) (hskip : skip < 2 ^ 31)
    (h : Approaches src skip k rest d) : d.parseStep =
      if skip - d.reasm.offset > 0 then
        if min (skip - d.reasm.offset) d.reasm.available.length = 0 then .stop d
        else .more { d with
          reasm := d.reasm.consume (min (skip - d.reasm.offset) d.reasm.available.length)
          preSnapshotSkipped := d.preSnapshotSkipped +
            min (skip - d.reasm.offset) d.reasm.available.length } none
      else .more { d with pendingStartSeq := none } none := by
  obtain ⟨tail, htail, -⟩ := h.bytes
  have hmode : d.discard = 0 ∧
      d.pendingStartSeq = some (src.delivery.base + BitVec.ofNat 32 skip) := by
    rw [h.seeking]
    exact ⟨(at_frame_parts hat).1, rfl⟩
  exact seek_turn hskip hmode.1 hmode.2 (src.delivery.place h.order).1 (by omega)

omit [HuffmanDecoding] in
/-- Dropping bytes on the way to the target. -/
theorem Approaches.drop (h : Approaches src skip k rest d) {n : Nat}
    (hn : n ≤ skip - d.reasm.offset) (havailable : n ≤ d.reasm.available.length) :
    Approaches src skip k rest { d with
      reasm := d.reasm.consume n, preSnapshotSkipped := d.preSnapshotSkipped + n } ∧
      (d.reasm.consume n).offset = d.reasm.offset + n := by
  obtain ⟨tail, htail, hbytes⟩ := h.bytes
  have hoffset : (d.reasm.consume n).offset = d.reasm.offset + n := by
    simp only [Reassembler.offset, Reassembler.bufOff_consume, min_eq_left havailable]
  refine ⟨⟨?_, ⟨tail.drop n, ?_, ?_⟩, src.delivery.consume h.order n⟩, hoffset⟩
  · have hskipped : d.preSnapshotSkipped = d.reasm.offset := by
      conv_lhs => rw [h.seeking]
    simp only [hoffset, hskipped]
    conv_lhs => rw [h.seeking]
  · simp only [hoffset, List.length_drop]
    omega
  · simp only [Reassembler.available_consume]
    rw [← List.drop_append_of_le_length havailable, hbytes,
      List.drop_append_of_le_length (by omega)]

/-- At the target the direction stands at the first frame. -/
theorem Approaches.arrive (hat : src.start.atFrame = true)
    (hstart : src.start.preSnapshotSkipped = skip) (h : Approaches src skip k rest d)
    (hoffset : d.reasm.offset = skip) : Reads src k rest 0 { d with pendingStartSeq := none } := by
  obtain ⟨tail, htail, hbytes⟩ := h.bytes
  obtain rfl : tail = [] := List.length_eq_zero_iff.mp (by omega)
  have hpending := (at_frame_parts hat).2.1
  refine reads_start hat ?_ hbytes h.order
  rw [h.seeking]
  simp only [hoffset, ← hstart, ← hpending]

/-- Parsing drops what comes before the target, and stops there or reads frames from it on. -/
theorem approaches_parse (hat : src.start.atFrame = true)
    (hstart : src.start.preSnapshotSkipped = skip) (hskip : skip < 2 ^ 31)
    (h : Approaches src skip k rest d) :
    (d.parse.2 = [] ∧ Approaches src skip k rest d.parse.1 ∧ k < skip) ∨
      ∃ d', Reads src k rest 0 d' ∧ d.parse = d'.parse := by
  have harrive : ∀ {d : Direction}, Approaches src skip k rest d → d.reasm.offset = skip →
      ∃ d', Reads src k rest 0 d' ∧ d.parse = d'.parse := by
    intro d h hoffset
    have hturn := h.turn hat hskip
    rw [hoffset, Nat.sub_self, if_neg (lt_irrefl 0)] at hturn
    rw [parse_of_more hturn, Option.toList_none, List.nil_append]
    exact ⟨_, h.arrive hat hstart hoffset, rfl⟩
  have hdry : ∀ {d : Direction}, Approaches src skip k rest d → d.reasm.offset < skip →
      d.reasm.available = [] →
      d.parse.2 = [] ∧ Approaches src skip k rest d.parse.1 ∧ k < skip := by
    intro d h hoffset hnil
    have hturn := h.turn hat hskip
    rw [hnil, List.length_nil, Nat.min_zero, if_pos (by omega), if_pos rfl] at hturn
    have hreceived := (src.delivery.place h.order).2
    rw [hnil, List.length_nil, Nat.add_zero] at hreceived
    rw [parse_of_stop hturn]
    exact ⟨rfl, h, by simp only [Reassembler.offset] at hoffset; omega⟩
  obtain ⟨tail, htail, -⟩ := h.bytes
  rcases Nat.eq_or_lt_of_le (show d.reasm.offset ≤ skip by omega) with hoffset | hoffset
  · exact Or.inr (harrive h hoffset)
  · by_cases hnil : d.reasm.available = []
    · exact Or.inl (hdry h hoffset hnil)
    · have hlength := List.length_pos_iff.mpr hnil
      have hturn := h.turn hat hskip
      rw [if_pos (by omega), if_neg (by omega)] at hturn
      obtain ⟨hseeks, hmoved⟩ := h.drop (min_le_left _ _)
        (min_le_right (skip - d.reasm.offset) d.reasm.available.length)
      rw [parse_of_more hturn, Option.toList_none, List.nil_append]
      rcases Nat.lt_or_ge d.reasm.available.length (skip - d.reasm.offset) with hshort | hle
      · refine Or.inl (hdry hseeks (hmoved.trans_lt (by omega)) ?_)
        rw [Reassembler.available_consume, min_eq_right hshort.le, List.drop_length]
      · exact Or.inr (harrive hseeks (hmoved.trans (by omega)))

omit [HuffmanDecoding] in
/-- A segment takes a direction on that drops bytes. -/
theorem approaches_received {data : Bytes} {pushed : Reassembler × Bool}
    (h : Approaches src skip k (data ++ rest) d) (hadds : src.delivery.Adds d.reasm k data pushed) :
    Approaches src skip (k + data.length) rest (d.withReassembled pushed) := by
  have hoffset := hadds.bufOff_eq h.order
  obtain ⟨tail, htail, hbytes⟩ := h.bytes
  simp only [withReassembled, hadds.no_gap, Bool.false_eq_true, if_false]
  refine ⟨?_, ⟨tail, ?_, ?_⟩, hadds.holds⟩
  · simp only [Reassembler.offset, hoffset]
    conv_lhs => rw [h.seeking]
    rfl
  · simp only [Reassembler.offset, hoffset] at htail ⊢
    exact htail
  · simp only [hadds.available_eq, List.append_assoc, hbytes]

/-- A segment in order takes a seeking direction on. -/
theorem seeks_feed (hat : src.start.atFrame = true) (hstart : src.start.preSnapshotSkipped = skip)
    (hskip : skip < 2 ^ 31) (segment : Bytes × Nat)
    (h : Seeks src base skip k (segment.1 ++ rest) d) :
    Follows src (fun k rest d => Seeks src base skip k rest d ∧ k < skip) (k + segment.1.length)
      rest ((d.feed (base + BitVec.ofNat 32 k) segment.1 segment.2).2.map frameOutput)
      (d.feed (base + BitVec.ofNat 32 k) segment.1 segment.2).1 := by
  have hadds : src.delivery.Adds d.reasm k segment.1
      (d.reasm.push (base + BitVec.ofNat 32 k) segment.1 segment.2) := by
    rw [h.delivery]
    exact adds_in_order h.order segment.1 segment.2
  have happroaches := approaches_received ((seeks_iff_approaches h.delivery _ _ _ _).mp h) hadds
  unfold feed
  rcases approaches_parse hat hstart hskip happroaches with
    ⟨hnone, hlater, hbefore⟩ | ⟨d', hreads, hparse⟩
  · exact Or.inr (Or.inl
      ⟨⟨(seeks_iff_approaches h.delivery _ _ _ _).mpr hlater, hbefore⟩, by rw [hnone]; rfl⟩)
  · rw [hparse]
    exact follows_parse hreads

end

/-! ## From the first segment on -/

/-- The frames that a direction reads once it has dropped `skip` bytes. -/
def seekSource (seeded : Direction) (frames : List Frame) (base : Seq) (skip : Nat) : Source where
  start := { seeded with pendingStartSeq := none, preSnapshotSkipped := skip }
  frames := frames
  delivery := .inOrder base

/-- A direction whose first segment is still to come, told to start `skip` bytes after it. -/
structure Seeded (base : Seq) (skip : Nat) (d : Direction) : Prop where
  fresh : d.reasm = Reassembler.new
  skipped : d.preSnapshotSkipped = 0
  target : d.pendingStartSeq = some (base + BitVec.ofNat 32 skip)
  mode : d.discard = 0 ∧ d.desynced = false ∧ d.expectPreface = false
  near : skip < 2 ^ 31

section

variable {seeded : Direction} {base : Seq} {skip : Nat}

/-- The first segment with data is what a direction at the start of the stream would be fed. -/
theorem feed_first (h : Seeded base skip seeded) {data : Bytes} (hdata : data ≠ []) (nowUs : Nat) :
    seeded.feed base data nowUs =
      ({ seeded with reasm := Reassembler.new.start base } : Direction).feed
        (base + BitVec.ofNat 32 0) data nowUs := by
  have hbase : base + BitVec.ofNat 32 0 = base := by simp
  simp only [feed, h.fresh, hbase]
  rw [Reassembler.push_start _ _ hdata]
  rfl

/-- Fed a stream in order, a seeded direction drops what comes before its target and follows the
frames from there. -/
theorem seeks_run {frames : List Frame} {lead rest : Bytes} {segments : List (Bytes × Nat)}
    (h : Seeded base skip seeded) (hlead : lead.length = skip)
    (hstream : segmentBytes segments ++ rest = lead ++ framesWire frames)
    (hdata : ∀ segment ∈ segments, segment.1 ≠ []) (hsome : segments ≠ []) :
    let src := seekSource seeded frames base skip
    let result := run feedNext (seeded, base) segments
    Follows src (fun k rest d => Seeks src base skip k rest d ∧ k < skip)
      (segmentBytes segments).length rest (result.2.flatten.map frameOutput) result.1.1 := by
  intro src result
  obtain ⟨first, more, rfl⟩ := List.exists_cons_of_ne_nil hsome
  have hat : src.start.atFrame = true := by
    obtain ⟨hdiscard, hsynced, hpreface⟩ := h.mode
    simp [src, seekSource, atFrame, hdiscard, hsynced, hpreface]
  have hbytes : segmentBytes (first :: more) = first.1 ++ segmentBytes more := rfl
  rw [hbytes, List.append_assoc] at hstream
  have hseeks : Seeks src base skip 0 (first.1 ++ (segmentBytes more ++ rest))
      { seeded with reasm := Reassembler.new.start base } := by
    refine ⟨rfl, ?_, ⟨lead, hlead, hstream⟩, Reassembler.in_order_start base⟩
    simp only [src, seekSource, ← h.target]
    rw [show (Reassembler.new.start base).offset = seeded.preSnapshotSkipped from h.skipped.symm]
  have hfirst := seeks_feed hat rfl h.near first hseeks
  have hrun := follows_run more rfl
    (fun k rest d segment hbefore => seeks_feed hat rfl h.near segment hbefore.1) hfirst
  have hfeed := feed_first h (hdata first List.mem_cons_self) first.2
  simp only [result, run, feedNext, hfeed, List.flatten_cons, List.map_append, hbytes,
    List.length_append, Nat.zero_add] at hrun ⊢
  exact hrun

end

/-! ## No frame before the target -/

/-- The reader has not gone back, and what was received still counts as in order. -/
structure MovesOn (d d' : Direction) : Prop where
  offset_le : d.reasm.offset ≤ d'.reasm.offset
  order : ∀ base k, d.reasm.InOrder base k → d'.reasm.InOrder base k

omit [HuffmanDecoding] in
theorem moves_on_same {d d' : Direction} (h : d'.reasm = d.reasm) : MovesOn d d' := by
  constructor
  · rw [h]
  · intro base k horder
    rwa [h]

omit [HuffmanDecoding] in
theorem moves_on_consume {d d' : Direction} {n : Nat} (h : d'.reasm = d.reasm.consume n) :
    MovesOn d d' := by
  constructor
  · rw [h, Reassembler.offset, Reassembler.offset, Reassembler.bufOff_consume]
    omega
  · intro base k horder
    rw [h]
    exact horder.consume n

theorem handle_frame_start_off (d : Direction) (hdr : FrameHeader) (payload : Bytes)
    (startOff : Nat) (startSeq : Seq) :
    (d.handleFrame hdr payload startOff startSeq).2.startOff = startOff := by
  unfold handleFrame
  split
  · rfl
  · split
    · rfl
    · split <;> rfl

/-- Once the target is reached a turn moves on, and a frame it returns starts where it started. -/
theorem parse_step_moves {d d' : Direction} {frame : Option ProcessedFrame}
    (hpending : d.pendingStartSeq = none) (h : d.parseStep = .more d' frame) :
    MovesOn d d' ∧ d'.pendingStartSeq = none ∧ ∀ pf ∈ frame, pf.startOff = d.reasm.offset := by
  have hmove : ∀ {d₁ : Direction} {n : Nat}, Progress.more d₁ none = .more d' frame →
      d₁.reasm = d.reasm.consume n ∨ d₁.reasm = d.reasm → d₁.pendingStartSeq = none →
      MovesOn d d' ∧ d'.pendingStartSeq = none ∧ ∀ pf ∈ frame, pf.startOff = d.reasm.offset := by
    intro d₁ n heq hreasm hnone
    cases heq
    exact ⟨hreasm.elim moves_on_consume moves_on_same, hnone, by simp⟩
  simp only [parseStep, hpending] at h
  split at h
  · simp only [discardStep] at h
    split at h
    · cases h
    · exact hmove h (Or.inl rfl) hpending
  · split at h
    · rw [resync_step_eq] at h
      split at h
      · cases h
      · split at h
        · exact hmove h (Or.inl rfl) hpending
        · cases h
        · split at h <;> cases h
    · split at h
      · simp only [prefaceStep] at h
        split at h
        · cases h
        · split at h
          · exact hmove h (Or.inl rfl) hpending
          · exact hmove (n := 0) h (Or.inr rfl) hpending
      · unfold frameStep at h
        split at h
        · cases h
        · next hdr hparse =>
            split at h
            · split at h
              · cases h
              · cases h
                have hposition := same_position_handle_frame { d with
                  reasm := d.reasm.consume (frameHeaderLen + hdr.len)
                  frames := d.frames + 1 } hdr
                  ((d.reasm.available.drop frameHeaderLen).take hdr.len) d.reasm.offset
                  d.reasm.nextUnparsedSeq
                refine ⟨moves_on_consume hposition.reasm,
                  hposition.pendingStartSeq.trans hpending, ?_⟩
                intro pf hpf
                cases hpf
                exact handle_frame_start_off _ _ _ _ _
            · cases h
              refine ⟨moves_on_consume (n := frameHeaderLen) rfl, hpending, ?_⟩
              intro pf hpf
              cases hpf
              rfl

/-- A turn that stops leaves the direction as it is, or drops bytes while hunting for a frame. -/
theorem parse_step_stops {d d' : Direction} (h : d.parseStep = .stop d') :
    d' = d ∨ d.pendingStartSeq = none ∧ ∃ n, d' = { d with reasm := d.reasm.consume n } := by
  unfold parseStep at h
  split at h
  · simp only [discardStep] at h
    split at h
    · cases h
      exact Or.inl rfl
    · cases h
  · split at h
    · simp only [seekStep] at h
      split at h
      · split at h
        · cases h
          exact Or.inl rfl
        · cases h
      · split at h <;> cases h
    · next hpending =>
        split at h
        · rw [resync_step_eq] at h
          split at h
          · cases h
            exact Or.inl rfl
          · split at h
            · cases h
            · cases h
              exact Or.inl rfl
            · split at h
              · exact Or.inr ⟨hpending, _, (Progress.stop.inj h).symm⟩
              · cases h
                exact Or.inl rfl
        · split at h
          · simp only [prefaceStep] at h
            split at h
            · cases h
              exact Or.inl rfl
            · split at h <;> cases h
          · unfold frameStep at h
            split at h
            · cases h
              exact Or.inl rfl
            · split at h
              · split at h
                · cases h
                  exact Or.inl rfl
                · cases h
              · cases h

/-- The direction is on the way to its target, or past it. -/
structure TowardsTarget (base : Seq) (skip k : Nat) (d : Direction) : Prop where
  order : d.reasm.InOrder base k
  place : d.pendingStartSeq = some (base + BitVec.ofNat 32 skip) ∧ d.discard = 0 ∧
      d.reasm.offset ≤ skip ∨
    d.pendingStartSeq = none ∧ skip ≤ d.reasm.offset

section

variable {base : Seq} {skip k : Nat} {d : Direction}

theorem TowardsTarget.stop (h : TowardsTarget base skip k d) {d' : Direction}
    (hturn : d.parseStep = .stop d') : TowardsTarget base skip k d' := by
  rcases parse_step_stops hturn with rfl | ⟨hpending, n, rfl⟩
  · exact h
  · have hmoves : MovesOn d { d with reasm := d.reasm.consume n } := moves_on_consume rfl
    refine ⟨hmoves.order base k h.order, Or.inr ⟨hpending, ?_⟩⟩
    rcases h.place with ⟨hsome, -⟩ | ⟨-, hpast⟩
    · rw [hpending] at hsome
      cases hsome
    · exact hpast.trans hmoves.offset_le

theorem TowardsTarget.more (hskip : skip < 2 ^ 31) (h : TowardsTarget base skip k d)
    {d' : Direction} {frame : Option ProcessedFrame} (hturn : d.parseStep = .more d' frame) :
    TowardsTarget base skip k d' ∧ ∀ pf ∈ frame, skip ≤ pf.startOff := by
  rcases h.place with ⟨hpending, hdiscard, hle⟩ | ⟨hpending, hpast⟩
  · rw [seek_turn hskip hdiscard hpending h.order.baseSeq hle] at hturn
    split at hturn
    · split at hturn
      · cases hturn
      · cases hturn
        refine ⟨⟨h.order.consume _, Or.inl ⟨hpending, hdiscard, ?_⟩⟩, by simp⟩
        simp only [Reassembler.offset, Reassembler.bufOff_consume] at hle ⊢
        omega
    · cases hturn
      exact ⟨⟨h.order, Or.inr ⟨rfl, by simp only; omega⟩⟩, by simp⟩
  · obtain ⟨hmoves, hnone, hframe⟩ := parse_step_moves hpending hturn
    refine ⟨⟨hmoves.order base k h.order, Or.inr ⟨hnone, hpast.trans hmoves.offset_le⟩⟩, ?_⟩
    intro pf hpf
    rw [hframe pf hpf]
    exact hpast

/-- A segment in order. -/
theorem TowardsTarget.feed (hskip : skip < 2 ^ 31) (h : TowardsTarget base skip k d) (data : Bytes)
    (nowUs : Nat) :
    TowardsTarget base skip (k + data.length)
        (d.feed (base + BitVec.ofNat 32 k) data nowUs).1 ∧
      ∀ pf ∈ (d.feed (base + BitVec.ofNat 32 k) data nowUs).2, skip ≤ pf.startOff := by
  have hadds := adds_in_order h.order data nowUs
  have hoffset := hadds.bufOff_eq h.order
  simp only [Direction.feed, withReassembled, hadds.no_gap, Bool.false_eq_true, if_false]
  refine parse_rule (G := fun _ => True) (fun d d' h hturn => TowardsTarget.stop h hturn)
    (fun d d' frame h _ hturn => TowardsTarget.more hskip h hturn) (fun _ _ => trivial)
    ⟨hadds.holds, ?_⟩
  have hplace := h.place
  simp only [Reassembler.offset, hoffset] at hplace ⊢
  exact hplace

theorem towards_target_run (hskip : skip < 2 ^ 31) (h : TowardsTarget base skip k d)
    (segments : List (Bytes × Nat)) :
    ∀ pf ∈ (run feedNext (d, base + BitVec.ofNat 32 k) segments).2.flatten, skip ≤ pf.startOff := by
  induction segments generalizing k d with
  | nil => simp
  | cons segment segments ih =>
      obtain ⟨hnext, hframes⟩ := h.feed hskip segment.1 segment.2
      have hlater := ih hnext
      rw [BitVec.ofNat_add, ← BitVec.add_assoc] at hlater
      simp only [run, feedNext, List.flatten_cons, List.mem_append]
      rintro pf (hpf | hpf)
      · exact hframes pf hpf
      · exact hlater pf hpf

/-- No frame that a seeded direction returns starts before its target. -/
theorem frames_after_target {seeded : Direction} (h : Seeded base skip seeded)
    {segments : List (Bytes × Nat)} (hdata : ∀ segment ∈ segments, segment.1 ≠ []) :
    ∀ pf ∈ (run feedNext (seeded, base) segments).2.flatten, skip ≤ pf.startOff := by
  cases segments with
  | nil => simp
  | cons first more =>
      have hstart : TowardsTarget base skip 0
          { seeded with reasm := Reassembler.new.start base } :=
        ⟨Reassembler.in_order_start base, Or.inl ⟨h.target, h.mode.1, Nat.zero_le _⟩⟩
      have hrun := towards_target_run h.near hstart (first :: more)
      have hfeed := feed_first h (hdata first List.mem_cons_self) first.2
      have hbase : base + BitVec.ofNat 32 0 = base := by simp
      simp only [run, feedNext, hfeed, hbase] at hrun ⊢
      exact hrun

end

end Direction

end H2Tap
