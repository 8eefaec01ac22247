import H2Tap.Conn.InOrder

/-!
# Where a snapshot says the next frame starts

A direction watched from its SYN on, client preface included: `watched_run` says where it stands
after any part of a well-framed stream, however the stream was cut. From it,
`snapshot_at_frame_iff` tells when the sequence number a snapshot records is that of a frame. The
parser also stops inside a payload that it drops and before a preface that is not complete, and
neither is seen by `is_snapshottable`.
-/

namespace H2Tap

open Lib

/-- What is sent before the first frame. -/
def leadBytes (hasPreface : Bool) : Bytes := if hasPreface then preface else []

namespace Direction

/-- A direction watched from its SYN: `from_connection_start`, `set_table_track_limit` and the
`note_syn` of its reassembler. -/
def watchedFrom (keepPayloads hasPreface : Bool) (limit : Nat) (isn : Seq) : Direction :=
  { (fromConnectionStart keepPayloads hasPreface).setTableTrackLimit limit with
    reasm := Reassembler.new.noteSyn isn }

/-- The frames of a stream that is watched from its SYN. -/
def watchedSource (keepPayloads : Bool) (limit : Nat) (isn : Seq) (delivery : Delivery)
    (frames : List Frame) : Source where
  start := watchedFrom keepPayloads false limit isn
  frames := frames
  delivery := delivery

/-- The client preface has not been received in full. -/
structure AwaitsPreface (src : Source) (k : Nat) (rest : Bytes) (d : Direction) : Prop where
  waiting : d = { src.start with expectPreface := true, reasm := d.reasm }
  bytes : d.reasm.available ++ rest = preface ++ framesWire src.frames
  short : d.reasm.available.length < preface.length
  order : src.delivery.Holds d.reasm k

variable [HuffmanDecoding]

/-! ## The client preface -/

section

variable {src : Source} {k : Nat} {rest : Bytes} {d : Direction}

/-- A direction that stands at the first frame. -/
theorem reads_start (hat : src.start.atFrame = true)
    (hstart : d = { src.start with reasm := d.reasm })
    (hbytes : d.reasm.available ++ rest = framesWire src.frames)
    (horder : src.delivery.Holds d.reasm k) : Reads src k rest 0 d := by
  obtain ⟨hdiscard, hpending, hsynced, hpreface⟩ := at_frame_parts hat
  have hsame : d.discard = 0 ∧ d.pendingStartSeq = none ∧ d.desynced = false ∧
      d.expectPreface = false := by
    rw [hstart]
    exact ⟨hdiscard, hpending, hsynced, hpreface⟩
  exact {
    count := Nat.zero_le _
    handled := ⟨src.start.frames, hstart.trans (by
      simp only [relocated, absorbed, List.take_zero, run_nil, hsame.1, hdiscard])⟩
    bytes := ⟨[], hsame.1.symm, hbytes⟩
    dropping := fun hmore => absurd hmore (by omega)
    synced := hsame.2
    order := horder }

/-- While the preface is awaited a segment leaves the direction waiting, or completes it and takes
the direction to the first frame. -/
theorem awaits_preface_leads (hat : src.start.atFrame = true) {data : Bytes}
    {pushed : Reassembler × Bool} (h : AwaitsPreface src k (data ++ rest) d)
    (hadds : src.delivery.Adds d.reasm k data pushed) :
    ((d.withReassembled pushed).parse.2 = [] ∧
        AwaitsPreface src (k + data.length) rest (d.withReassembled pushed).parse.1) ∨
      ∃ d', Reads src (k + data.length) rest 0 d' ∧
        (d.withReassembled pushed).parse = d'.parse := by
  obtain ⟨hwaiting, hbytes, -, -⟩ := h
  obtain ⟨hgap, havailable, horder⟩ := hadds
  simp only [withReassembled, hgap, Bool.false_eq_true, if_false]
  rw [← List.append_assoc, ← havailable] at hbytes
  obtain ⟨reasm, gap⟩ := pushed
  simp only at hbytes horder ⊢
  obtain ⟨hdiscard, hpending, hsynced, hpreface⟩ := at_frame_parts hat
  have hreceived : ({ d with reasm := reasm } : Direction) =
      { src.start with expectPreface := true, reasm := reasm } := by rw [hwaiting]
  rw [hreceived]
  have hturn : ({ src.start with expectPreface := true, reasm := reasm } : Direction).parseStep =
      ({ src.start with expectPreface := true, reasm := reasm } : Direction).prefaceStep := by
    simp [parseStep, hdiscard, hpending, hsynced]
  by_cases hshort : reasm.available.length < preface.length
  · simp only [prefaceStep, hshort, if_true] at hturn
    rw [parse_of_stop hturn]
    exact Or.inl ⟨rfl, ⟨rfl, hbytes, hshort, horder⟩⟩
  · obtain ⟨later, hlater, hrest⟩ := append_split hbytes (by omega)
    have hmatched : preface.isPrefixOf reasm.available = true := by
      rw [hlater, List.isPrefixOf_iff_prefix]
      exact List.prefix_append _ _
    simp only [prefaceStep, hshort, hmatched, if_true, if_false] at hturn
    rw [parse_of_more hturn, Option.toList_none, List.nil_append]
    refine Or.inr ⟨{ src.start with expectPreface := false
                                    reasm := reasm.consume preface.length }, ?_, rfl⟩
    refine reads_start hat ?_ ?_ (src.delivery.consume horder _)
    · rw [← hpreface]
    · rw [Reassembler.available_consume, hlater, List.drop_left, hrest]

/-- While the preface is awaited a segment completes it, or leaves the direction waiting. -/
theorem awaits_preface_received (hat : src.start.atFrame = true) {data : Bytes}
    {pushed : Reassembler × Bool} (h : AwaitsPreface src k (data ++ rest) d)
    (hadds : src.delivery.Adds d.reasm k data pushed) :
    Follows src (AwaitsPreface src) (k + data.length) rest
      ((d.withReassembled pushed).parse.2.map frameOutput) (d.withReassembled pushed).parse.1 := by
  rcases awaits_preface_leads hat h hadds with ⟨hnone, hawaits⟩ | ⟨d', hreads, hparse⟩
  · exact Or.inr (Or.inl ⟨hawaits, by rw [hnone]; rfl⟩)
  · rw [hparse]
    exact follows_parse hreads

end

/-! ## Watching a stream from its SYN -/

section

variable (keepPayloads hasPreface : Bool) (limit : Nat) (isn : Seq) {frames : List Frame}
  {segments : List (Bytes × Nat)} {rest : Bytes}

omit [HuffmanDecoding] in
theorem watched_at_frame : (watchedFrom keepPayloads false limit isn).atFrame = true := rfl

/-- What is awaited before the first frame of a stream that is watched from its SYN. -/
def AwaitsFirstFrame (delivery : Delivery) (frames : List Frame) (k : Nat) (rest : Bytes)
    (d : Direction) : Prop :=
  hasPreface = true ∧
    AwaitsPreface (watchedSource keepPayloads limit isn delivery frames) k rest d

/-- With the SYN the direction is at the start of the stream. -/
theorem watched_start (frames : List Frame) {delivery : Delivery}
    (hstart : delivery.Holds (Reassembler.new.noteSyn isn) 0) :
    Follows (watchedSource keepPayloads limit isn delivery frames)
      (AwaitsFirstFrame keepPayloads hasPreface limit isn delivery frames) 0
      (leadBytes hasPreface ++ framesWire frames) []
      (watchedFrom keepPayloads hasPreface limit isn) := by
  cases hasPreface with
  | true =>
      refine Or.inr (Or.inl ⟨⟨rfl, rfl, rfl, ?_, hstart⟩, rfl⟩)
      rw [preface_length]
      exact Nat.succ_pos 23
  | false =>
      refine Or.inr (Or.inr ⟨0, reads_start rfl rfl rfl hstart, ?_, rfl⟩)
      simp only [Settled]
      split
      · rfl
      · split
        · trivial
        · exact Or.inl (Nat.succ_pos 8)

/-- A segment takes the direction on, also before its first frame. -/
theorem watched_received {delivery : Delivery} {k : Nat} {data : Bytes}
    {pushed : Reassembler × Bool} {outs : List (Option DecodedBlock × Option Nat)} {d : Direction}
    (hadds : delivery.Holds d.reasm k → delivery.Adds d.reasm k data pushed)
    (h : Follows (watchedSource keepPayloads limit isn delivery frames)
      (AwaitsFirstFrame keepPayloads hasPreface limit isn delivery frames) k (data ++ rest) outs
        d) :
    Follows (watchedSource keepPayloads limit isn delivery frames)
      (AwaitsFirstFrame keepPayloads hasPreface limit isn delivery frames) (k + data.length) rest
      (outs ++ (d.withReassembled pushed).parse.2.map frameOutput)
      (d.withReassembled pushed).parse.1 := by
  refine follows_received ?_ hadds h
  rintro ⟨hpreface, hawaits⟩
  rcases awaits_preface_received (watched_at_frame keepPayloads limit isn) hawaits
    (hadds hawaits.order) with hlost | ⟨hstill, houts⟩ | hreads
  · exact Or.inl hlost
  · exact Or.inr (Or.inl ⟨⟨hpreface, hstill⟩, houts⟩)
  · exact Or.inr (Or.inr hreads)

/-- After any part of a stream, the direction has lost its place, or waits for the rest of the
preface, or has absorbed all frames that are complete. -/
theorem watched_run
    (hstream : segmentBytes segments ++ rest = leadBytes hasPreface ++ framesWire frames) :
    let delivery := Delivery.inOrder (isn + 1)
    let result := run feedNext (watchedFrom keepPayloads hasPreface limit isn, isn + 1) segments
    Follows (watchedSource keepPayloads limit isn delivery frames)
      (AwaitsFirstFrame keepPayloads hasPreface limit isn delivery frames)
      (segmentBytes segments).length rest (result.2.flatten.map frameOutput) result.1.1 := by
  have hstart := watched_start keepPayloads hasPreface limit isn frames
    (show (Delivery.inOrder (isn + 1)).Holds (Reassembler.new.noteSyn isn) 0 from
      Reassembler.in_order_note_syn isn)
  rw [← hstream] at hstart
  have hrun := follows_run _ rfl (fun k rest d segment hbefore => by
    have hnext := watched_received keepPayloads hasPreface limit isn
      (fun horder => adds_in_order horder segment.1 segment.2)
      (Or.inr (Or.inl ⟨hbefore, rfl⟩))
    exact hnext) hstart
  simpa using hrun

end

/-! ## Frame boundaries -/

/-- The offset of frame `j` in a stream with `lead` bytes before its first frame. -/
def frameStart (lead : Nat) (frames : List Frame) (j : Nat) : Nat :=
  lead + (framesWire (frames.take j)).length

/-- `seq` is the sequence number of the first byte of a frame, or of the end of the stream, among
the last bytes of the `k` received since `base`. -/
def IsFrameSeq (base : Seq) (lead : Nat) (frames : List Frame) (k : Nat) (seq : Seq) : Prop :=
  ∃ j ≤ frames.length, frameStart lead frames j ≤ k ∧ k - frameStart lead frames j < 2 ^ 31 ∧
    seq = base + BitVec.ofNat 32 (frameStart lead frames j)

/-- The payload of such a frame is dropped as it arrives. -/
def dropsPayload (keepPayloads : Bool) (hdr : FrameHeader) : Bool :=
  !(fromConnectionStart keepPayloads false).wantPayload hdr

omit [HuffmanDecoding] in
theorem drops_payload_eq (d : Direction) (hdr : FrameHeader) :
    dropsPayload d.keepPayloads hdr = !d.wantPayload hdr := rfl

/-- The first `k` bytes end after the header of a frame whose payload is dropped, and before the end
of that payload. -/
def EndsInDroppedPayload (keepPayloads : Bool) (lead : Nat) (frames : List Frame) (k : Nat) :
    Prop :=
  ∃ i f, frames[i]? = some f ∧ dropsPayload keepPayloads f.hdr = true ∧
    frameStart lead frames i + frameHeaderLen ≤ k ∧
    k < frameStart lead frames i + frameHeaderLen + f.hdr.len

/-- The first `k` bytes end before the end of the client preface. -/
def EndsInPreface (hasPreface : Bool) (k : Nat) : Prop := hasPreface = true ∧ k < preface.length

section

variable {lead k : Nat} {frames : List Frame}

omit [HuffmanDecoding] in
theorem frame_start_mono (lead : Nat) (frames : List Frame) {i j : Nat} (h : i ≤ j) :
    frameStart lead frames i ≤ frameStart lead frames j := by
  have hlength := congrArg (fun frames => (framesWire frames).length) (take_split frames h)
  simp only [framesWire, List.flatMap_append, List.length_append] at hlength
  simp only [frameStart, framesWire]
  omega

omit [HuffmanDecoding] in
theorem frame_start_succ (lead : Nat) {i : Nat} {f : Frame} (h : frames[i]? = some f) :
    frameStart lead frames (i + 1) = frameStart lead frames i + frameHeaderLen + f.hdr.len := by
  have hwire := f.wire_length
  simp only [frameStart, List.take_add_one, h, Option.toList_some, framesWire, List.flatMap_append,
    List.flatMap_cons, List.flatMap_nil, List.append_nil, List.length_append, hwire]
  omega

omit [HuffmanDecoding] in
/-- No frame starts strictly inside another one. -/
theorem frame_start_not_between (lead : Nat) {i : Nat} (j : Nat) {f : Frame}
    (h : frames[i]? = some f)
    (hbefore : frameStart lead frames i < frameStart lead frames j) :
    frameStart lead frames i + frameHeaderLen + f.hdr.len ≤ frameStart lead frames j := by
  rw [← frame_start_succ lead h]
  refine frame_start_mono lead frames ?_
  by_contra hle
  exact absurd (frame_start_mono lead frames (show j ≤ i by omega)) (by omega)

omit [HuffmanDecoding] in
/-- Sequence numbers of bytes less than half of the number space apart tell them apart. -/
theorem offset_eq_of_seq_eq {base : Seq} {m n : Nat} (hle : m ≤ n) (hnear : n - m < 2 ^ 31)
    (heq : base + BitVec.ofNat 32 n = base + BitVec.ofNat 32 m) : m = n := by
  have hmod := congrArg BitVec.toNat (BitVec.add_right_inj base |>.mp heq)
  simp only [BitVec.toNat_ofNat] at hmod
  omega

omit [HuffmanDecoding] in
theorem LostSync.not_snapshottable {d : Direction} (h : d.LostSync) :
    ¬ d.isSnapshottable = true := by
  simp only [isSnapshottable, h.1, Bool.not_true, Bool.false_and, Bool.false_eq_true, not_false_iff]

/-- With nothing to drop the parser stands at a frame, and the bytes received end neither in a
payload that is dropped nor far behind. -/
theorem settled_at_frame {src : Source} {rest : Bytes} {j : Nat} {d : Direction}
    (hreads : Reads src k rest j d) (hsettled : Settled src j d) (hdiscard : d.discard = 0)
    (hoffset : d.reasm.offset = frameStart lead src.frames j) :
    k - d.reasm.offset < 2 ^ 31 ∧
      ¬ EndsInDroppedPayload src.start.keepPayloads lead src.frames k := by
  have hreceived := (src.delivery.place hreads.order).2
  obtain ⟨tail, htail, hbytes⟩ := hreads.bytes
  simp only [Reassembler.offset] at hoffset ⊢
  simp only [Settled, hdiscard, gt_iff_lt, lt_self_iff_false, if_false] at hsettled
  -- the frame at the boundary is not received in full, or there is none
  have hshort : ∀ f, src.frames[j]? = some f →
      k < frameStart lead src.frames j + frameHeaderLen ∨
        dropsPayload src.start.keepPayloads f.hdr = false ∧ f.hdr.len ≤ maxBufferedFrame ∧
          k < frameStart lead src.frames j + frameHeaderLen + f.hdr.len := by
    intro f hf
    rw [hf] at hsettled
    rcases hsettled with hhead | ⟨hwant, hpart⟩
    · exact Or.inl (by omega)
    · refine Or.inr ⟨by rw [drops_payload_eq, hwant, Bool.not_true], ?_, by omega⟩
      simp only [wantPayload, Bool.and_eq_true, decide_eq_true_eq] at hwant
      exact hwant.2
  cases hframe : src.frames[j]? with
  | none =>
      have hend := List.getElem?_eq_none_iff.mp hframe
      rw [List.drop_eq_nil_of_le hend, frames_wire_nil, List.append_nil] at hbytes
      have hlengths := congrArg List.length hbytes
      simp only [List.length_append] at hlengths
      refine ⟨by omega, ?_⟩
      rintro ⟨i, f, hf, -, -, hlt⟩
      have hi := (List.getElem?_eq_some_iff.mp hf).1
      have hnext := frame_start_mono lead src.frames (show i + 1 ≤ j by omega)
      rw [frame_start_succ _ hf] at hnext
      omega
  | some f =>
      have hpart := hshort f hframe
      refine ⟨?_, ?_⟩
      · simp only [frameHeaderLen, maxBufferedFrame] at hpart
        omega
      · rintro ⟨i, f', hf', hdrops, hge, hlt⟩
        rcases lt_trichotomy i j with hi | rfl | hi
        · have hnext := frame_start_mono lead src.frames
            (show i + 1 ≤ j by omega)
          rw [frame_start_succ _ hf'] at hnext
          omega
        · rw [hframe] at hf'
          cases hf'
          rcases hpart with hhead | ⟨hkeeps, -⟩
          · omega
          · rw [hdrops] at hkeeps
            cases hkeeps
        · have hnext := frame_start_mono lead src.frames
            (show j + 1 ≤ i by omega)
          rw [frame_start_succ _ hframe] at hnext
          omega

/-- Inside a payload that it drops the parser stands at the end of what was received, which is no
frame. -/
theorem settled_in_payload {src : Source} {rest : Bytes} {j : Nat} {d : Direction}
    (hreads : Reads src k rest j d) (hsettled : Settled src j d) (hdiscard : 0 < d.discard)
    (hoffset : d.reasm.offset + d.discard = frameStart lead src.frames j) :
    EndsInDroppedPayload src.start.keepPayloads lead src.frames k ∧
      ¬ IsFrameSeq src.delivery.base lead src.frames k
        (src.delivery.base + BitVec.ofNat 32 d.reasm.offset) := by
  have hreceived := (src.delivery.place hreads.order).2
  simp only [Settled, gt_iff_lt, hdiscard, if_true] at hsettled
  rw [hsettled, List.length_nil, Nat.add_zero] at hreceived
  obtain ⟨i, f, hi, hf, hwant, hle⟩ := hreads.dropping hdiscard
  have hsucc := frame_start_succ lead hf
  rw [hi] at hsucc
  simp only [Reassembler.offset] at hoffset ⊢
  constructor
  · exact ⟨i, f, hf, by rw [drops_payload_eq, hwant, Bool.not_false], by omega, by omega⟩
  · rintro ⟨j', -, hle', hnear, hseq⟩
    rw [hreceived] at hseq
    have heq := offset_eq_of_seq_eq hle' hnear hseq
    have hbetween := frame_start_not_between lead j' hf (by
      simp only [frameHeaderLen] at hsucc
      omega)
    omega

/-- In every state reached on a well-framed stream at which a direction is snapshottable, the
sequence number that the snapshot records is that of a frame exactly when the bytes received end
neither in the client preface nor in a payload that the parser drops. -/
theorem snapshot_at_frame_iff (keepPayloads hasPreface : Bool) (isn : Seq) (frames : List Frame)
    (segments : List (Bytes × Nat)) (rest : Bytes)
    (hstream : segmentBytes segments ++ rest = leadBytes hasPreface ++ framesWire frames) :
    let start := watchedFrom keepPayloads hasPreface usizeMax isn
    let d := (run feedNext (start, isn + 1) segments).1.1
    let k := (segmentBytes segments).length
    let lead := (leadBytes hasPreface).length
    d.isSnapshottable = true →
      (IsFrameSeq (isn + 1) lead frames k d.nextFrameSeq ↔
        ¬ EndsInPreface hasPreface k ∧ ¬ EndsInDroppedPayload keepPayloads lead frames k) := by
  intro start d k lead hsnapshottable
  have hlengths := congrArg List.length hstream
  simp only [List.length_append] at hlengths
  rcases watched_run keepPayloads hasPreface usizeMax isn hstream with
    hlost | ⟨⟨hpreface, hawaits⟩, -⟩ | ⟨j, hreads, hsettled, -⟩
  · exact absurd hsnapshottable hlost.sync.not_snapshottable
  · have hshort : k < preface.length := by
      have hbytes := congrArg List.length hawaits.bytes
      have hlead : lead = preface.length := by simp only [lead, leadBytes, hpreface, if_true]
      have hframes : (watchedSource keepPayloads usizeMax isn (.inOrder (isn + 1)) frames).frames =
          frames := rfl
      have := hawaits.short
      simp only [List.length_append, hframes] at hbytes
      omega
    refine iff_of_false ?_ (fun h => h.1 ⟨hpreface, hshort⟩)
    rintro ⟨j, -, hle, -⟩
    have hlead : lead = preface.length := by simp only [lead, leadBytes, hpreface, if_true]
    simp only [frameStart] at hle
    omega
  · have hoffset : d.reasm.offset + d.discard = frameStart lead frames j :=
      hreads.offset_eq _ hlengths
    have hseq : d.nextFrameSeq = isn + 1 + BitVec.ofNat 32 d.reasm.offset := by
      have hbase : d.reasm.baseSeq = isn + 1 := Reassembler.InOrder.baseSeq hreads.order
      rw [nextFrameSeq, Reassembler.nextUnparsedSeq, Reassembler.seqAt, hbase]
      rfl
    rw [hseq]
    have hreceived : d.reasm.offset + d.reasm.available.length = k :=
      Reassembler.InOrder.received hreads.order
    rcases Nat.eq_zero_or_pos d.discard with hdiscard | hdiscard
    · rw [hdiscard, Nat.add_zero] at hoffset
      obtain ⟨hnear, hdropped⟩ : k - d.reasm.offset < 2 ^ 31 ∧
          ¬ EndsInDroppedPayload keepPayloads lead frames k :=
        settled_at_frame hreads hsettled hdiscard hoffset
      refine iff_of_true ⟨j, hreads.count, by omega, by omega, by rw [hoffset]⟩ ⟨?_, hdropped⟩
      rintro ⟨hpreface, hlt⟩
      have hlead : lead = preface.length := by simp only [lead, leadBytes, hpreface, if_true]
      simp only [frameStart] at hoffset
      omega
    · obtain ⟨hdropped, hnot⟩ := settled_in_payload hreads hsettled hdiscard hoffset
      exact iff_of_false hnot (fun h => h.2 hdropped)

end

end Direction

/-- A DATA frame of four bytes on stream 1. -/
def sampleDataFrame : Frame where
  head := [0, 0, 4, FrameType.data, 0, 0, 0, 0, 1]
  hdr := ⟨4, FrameType.data, 0, 1⟩
  payload := [1, 2, 3, 4]
  head_length := rfl
  parse_eq := rfl
  payload_length := rfl

namespace Direction

/-- A client that has sent its preface and all of a DATA frame but its last byte, seen by a
direction that drops payloads and by one that keeps them. -/
theorem snapshot_at_frame_iff_data :
    let _ := noHuffman.toHuffmanDecoding
    let segments := [(preface, 0), (sampleDataFrame.wire.take 12, 1)]
    let reached (keep : Bool) := (run feedNext (watchedFrom keep true usizeMax 7, 8) segments).1.1
    (IsFrameSeq 8 24 [sampleDataFrame] 36 (reached false).nextFrameSeq ↔
      ¬ EndsInPreface true 36 ∧ ¬ EndsInDroppedPayload false 24 [sampleDataFrame] 36) ∧
    (IsFrameSeq 8 24 [sampleDataFrame] 36 (reached true).nextFrameSeq ↔
      ¬ EndsInPreface true 36 ∧ ¬ EndsInDroppedPayload true 24 [sampleDataFrame] 36) := by
  intro _ segments reached
  exact ⟨snapshot_at_frame_iff false true 7 [sampleDataFrame] segments [4] (by decide +kernel)
      (by decide +kernel),
    snapshot_at_frame_iff true true 7 [sampleDataFrame] segments [4] (by decide +kernel)
      (by decide +kernel)⟩

/-- A DATA frame of which two payload bytes have arrived, and a client that has sent one byte of its
preface: both directions are snapshottable, and the sequence number they record is inside the
payload and inside the preface. -/
theorem snapshot_inside_payload_or_preface :
    let _ := noHuffman.toHuffmanDecoding
    let partPayload := [(sampleDataFrame.wire.take 11, 0)]
    let partPreface := [(preface.take 1, 0)]
    let inPayload := (run feedNext (watchedFrom false false usizeMax 7, 8) partPayload).1.1
    let inPreface := (run feedNext (watchedFrom false true usizeMax 7, 8) partPreface).1.1
    (segmentBytes partPayload ++ [3, 4] = leadBytes false ++ framesWire [sampleDataFrame] ∧
      inPayload.isSnapshottable = true ∧
      ¬ IsFrameSeq 8 0 [sampleDataFrame] 11 inPayload.nextFrameSeq) ∧
    (segmentBytes partPreface ++ (preface.drop 1 ++ sampleDataFrame.wire) =
        leadBytes true ++ framesWire [sampleDataFrame] ∧
      inPreface.isSnapshottable = true ∧
      ¬ IsFrameSeq 8 preface.length [sampleDataFrame] 1 inPreface.nextFrameSeq) := by
  unfold IsFrameSeq
  decide +kernel

end Direction

end H2Tap
