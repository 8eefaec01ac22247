import H2Tap.Lib.Run
import H2Tap.Delivery
import H2Tap.Conn.ParseLoop

/-!
# A stream that arrives in order

What a direction does with a well-framed stream, frame by frame: `absorb` is the effect of one whole
frame, wherever it stands and however it was cut into segments. `Reads` relates a direction in the
middle of a stream to the frames it has absorbed and the bytes still to come. `parse_reads` says
that the parse loop absorbs all frames that are complete, or loses its place on a malformed one.
-/

namespace H2Tap

open Lib

/-- A frame on the wire: nine header bytes and as many payload bytes as they announce. -/
structure Frame where
  head : Bytes
  hdr : FrameHeader
  payload : Bytes
  head_length : head.length = frameHeaderLen
  parse_eq : FrameHeader.parse head = some hdr
  payload_length : payload.length = hdr.len

namespace Frame

def wire (f : Frame) : Bytes := f.head ++ f.payload

theorem wire_length (f : Frame) : f.wire.length = frameHeaderLen + f.hdr.len := by
  rw [wire, List.length_append, f.head_length, f.payload_length]

end Frame

/-- The bytes of a sequence of frames. -/
def framesWire (frames : List Frame) : Bytes := frames.flatMap Frame.wire

@[simp] theorem frames_wire_nil : framesWire [] = [] := rfl

@[simp] theorem frames_wire_cons (f : Frame) (frames : List Frame) :
    framesWire (f :: frames) = f.wire ++ framesWire frames := rfl

/-- Of two ways to cut a byte string, the longer first part starts with the shorter one. -/
theorem append_split {a b c d : Bytes} (h : a ++ b = c ++ d) (hle : c.length ≤ a.length) :
    ∃ a', a = c ++ a' ∧ a' ++ b = d := by
  rcases List.append_eq_append_iff.mp h with ⟨c', rfl, rfl⟩ | ⟨a', rfl, rfl⟩
  · have hnil : c' = [] := by
      rw [List.length_append] at hle
      exact List.length_eq_zero_iff.mp (by omega)
    subst hnil
    exact ⟨[], by simp, by simp⟩
  · exact ⟨a', rfl, rfl⟩

/-- The first `j` frames are the first `i` and those after. -/
theorem take_split (frames : List Frame) {i j : Nat} (h : i ≤ j) :
    frames.take j = frames.take i ++ (frames.take j).drop i := by
  conv_lhs => rw [← List.take_append_drop i (frames.take j)]
  rw [List.take_take, min_eq_left h]

namespace Direction

/-- What a call returns of a frame, apart from its bytes and place. -/
def frameOutput (pf : ProcessedFrame) : Option DecodedBlock × Option Nat :=
  (pf.decoded, pf.settingsTableSize)

variable [HuffmanDecoding]

/-- What a whole frame does to a direction at a frame boundary. -/
def absorb (d : Direction) (f : Frame) : Direction × (Option DecodedBlock × Option Nat) :=
  if d.wantPayload f.hdr then
    ((d.handleFrame f.hdr f.payload 0 0).1, frameOutput (d.handleFrame f.hdr f.payload 0 0).2)
  else (d, (none, none))

/-- The direction after some frames. -/
def absorbed (d : Direction) (frames : List Frame) : Direction := (run absorb d frames).1

/-- What a direction returns for some frames. -/
def absorbOutput (d : Direction) (frames : List Frame) :
    List (Option DecodedBlock × Option Nat) := (run absorb d frames).2

/-- The place only shows in the returned frame. -/
theorem handle_frame_place (d : Direction) (hdr : FrameHeader) (payload : Bytes) (startOff : Nat)
    (startSeq : Seq) :
    (d.handleFrame hdr payload startOff startSeq).1 = (d.handleFrame hdr payload 0 0).1 ∧
      frameOutput (d.handleFrame hdr payload startOff startSeq).2 =
        frameOutput (d.handleFrame hdr payload 0 0).2 := by
  unfold handleFrame
  split
  · exact ⟨rfl, rfl⟩
  · split
    · exact ⟨rfl, rfl⟩
    · split <;> exact ⟨rfl, rfl⟩

/-- Absorbing a frame does not move the direction. -/
theorem same_position_absorb (d : Direction) (f : Frame) : SamePosition d (d.absorb f).1 := by
  unfold absorb
  split
  · exact same_position_handle_frame d _ _ _ _
  · exact same_position_refl d

theorem same_position_absorbed (d : Direction) (frames : List Frame) :
    SamePosition d (d.absorbed frames) := by
  induction frames generalizing d with
  | nil => exact same_position_refl d
  | cons f frames ih => exact (same_position_absorb d f).trans (ih _)

/-! ## A direction in the middle of a stream -/

/-- A stream of frames, the direction at its first frame boundary and the way in which the bytes
arrive. -/
structure Source where
  start : Direction
  frames : List Frame
  delivery : Delivery

/-- After `k` bytes, with `rest` still to come, the direction has absorbed the first `j` frames;
what it drops of the last one and what it buffers is the rest of the stream. -/
structure Reads (src : Source) (k : Nat) (rest : Bytes) (j : Nat) (d : Direction) : Prop where
  count : j ≤ src.frames.length
  handled : ∃ n, d = (src.start.absorbed (src.frames.take j)).relocated src.start.keepPayloads n
    d.reasm d.discard
  bytes : ∃ tail, tail.length = d.discard ∧
    d.reasm.available ++ rest = tail ++ framesWire (src.frames.drop j)
  dropping : 0 < d.discard → ∃ i f, i + 1 = j ∧ src.frames[i]? = some f ∧
    src.start.wantPayload f.hdr = false ∧ d.discard ≤ f.hdr.len
  synced : d.pendingStartSeq = none ∧ d.desynced = false ∧ d.expectPreface = false
  order : src.delivery.Holds d.reasm k

/-- Nothing more can be done with the bytes received: they end inside a payload that is dropped, or
before the frame at the boundary is complete. -/
def Settled (src : Source) (j : Nat) (d : Direction) : Prop :=
  if d.discard > 0 then d.reasm.available = []
  else
    match src.frames[j]? with
    | none => True
    | some f => d.reasm.available.length < frameHeaderLen ∨
        src.start.wantPayload f.hdr = true ∧
          d.reasm.available.length < frameHeaderLen + f.hdr.len

/-- The direction has lost its place at one of the frames that were received in full. -/
structure Lost (src : Source) (rest : Bytes) (d : Direction) : Prop where
  sync : d.LostSync
  frame : ∃ j ≤ src.frames.length, (src.start.absorbed (src.frames.take j)).desynced = true ∧
    rest.length ≤ (framesWire (src.frames.drop j)).length

/-- Handling a frame keeps the place, or gives up on it with the block. -/
theorem handle_frame_desynced (d : Direction) (hdr : FrameHeader) (payload : Bytes)
    (startOff : Nat) (startSeq : Seq) (hsynced : d.desynced = false) :
    (d.handleFrame hdr payload startOff startSeq).1.desynced = false ∨
      (d.handleFrame hdr payload startOff startSeq).1.poisoned = true ∧
        (d.handleFrame hdr payload startOff startSeq).1.desynced = true := by
  have hfinish : ∀ {opened : Direction}, opened.desynced = false →
      (opened.finishIfEnd hdr).1.desynced = false := by
    intro opened hopened
    unfold finishIfEnd finishBlock
    split
    · split
      · exact hopened
      · split <;> exact hopened
    · exact hopened
  cases hheader : hdr.isHeaderFrame with
  | false =>
      rw [(handle_non_header_frame d hheader payload startOff startSeq).1]
      exact Or.inl hsynced
  | true =>
      rw [handle_header_frame d hheader]
      cases hadd : d.addFragment hdr payload with
      | none => exact Or.inr ⟨rfl, rfl⟩
      | some opened =>
          obtain ⟨-, -, -, hdesynced, -⟩ := add_fragment_open hadd
          exact Or.inl (hfinish (hdesynced.trans hsynced))

/-! ## One turn -/

section

variable {src : Source} {k j : Nat} {rest : Bytes} {d : Direction}

omit [HuffmanDecoding] in
theorem frames_drop {f : Frame} (h : src.frames[j]? = some f) :
    src.frames.drop j = f :: src.frames.drop (j + 1) := by
  obtain ⟨hj, rfl⟩ := List.getElem?_eq_some_iff.mp h
  exact List.drop_eq_getElem_cons hj

omit [HuffmanDecoding] in
theorem frames_take {f : Frame} (h : src.frames[j]? = some f) :
    src.frames.take (j + 1) = src.frames.take j ++ [f] := by
  rw [List.take_add_one, h, Option.toList_some]

theorem absorbed_append (d : Direction) (frames later : List Frame) :
    d.absorbed (frames ++ later) = (d.absorbed frames).absorbed later := by
  simp only [absorbed, run_append]

theorem absorbed_singleton (d : Direction) (f : Frame) : d.absorbed [f] = (d.absorb f).1 := rfl

theorem absorb_output_append (d : Direction) (frames later : List Frame) :
    d.absorbOutput (frames ++ later) =
      d.absorbOutput frames ++ (d.absorbed frames).absorbOutput later := by
  simp only [absorbOutput, absorbed, run_append]

/-- A turn while a payload is dropped takes all there is of it. -/
theorem reads_discard (h : Reads src k rest j d) (hdiscard : 0 < d.discard) :
    (d.parseStep = .stop d ∧ Settled src j d) ∨
      ∃ d', d.parseStep = .more d' none ∧ Reads src k rest j d' := by
  have hturn : d.parseStep = d.discardStep := by simp only [parseStep, gt_iff_lt, hdiscard, if_true]
  simp only [discardStep] at hturn
  by_cases hnone : min d.discard d.reasm.available.length = 0
  · rw [if_pos hnone] at hturn
    refine Or.inl ⟨hturn, ?_⟩
    simp only [Settled, gt_iff_lt, hdiscard, if_true]
    exact List.length_eq_zero_iff.mp (by omega)
  · rw [if_neg hnone] at hturn
    refine Or.inr ⟨_, hturn, ?_⟩
    obtain ⟨n, hhandled⟩ := h.handled
    obtain ⟨tail, htail, hbytes⟩ := h.bytes
    exact {
      count := h.count
      handled := ⟨n, by rw [hhandled]; rfl⟩
      bytes := by
        refine ⟨tail.drop (min d.discard d.reasm.available.length), ?_, ?_⟩
        · simp only [List.length_drop, htail]
        · simp only [Reassembler.available_consume]
          rw [← List.drop_append_of_le_length (min_le_right _ _), hbytes,
            List.drop_append_of_le_length (by omega)]
      dropping := by
        intro hmore
        obtain ⟨i, f, hi, hf, hwant, hle⟩ := h.dropping hdiscard
        exact ⟨i, f, hi, hf, hwant, by simp only; omega⟩
      synced := h.synced
      order := src.delivery.consume h.order _ }

/-- What is read of the direction's mode is what the stream started with. -/
theorem want_payload_absorbed (d : Direction) (frames : List Frame) (hdr : FrameHeader) :
    (d.absorbed frames).wantPayload hdr = d.wantPayload hdr := by
  simp only [wantPayload, (same_position_absorbed d frames).keepPayloads]

/-- Taking the next frame absorbs it. -/
theorem reads_take (h : Reads src k rest j d) (hdiscard : d.discard = 0) {f : Frame}
    (hframe : src.frames[j]? = some f) (hwant : src.start.wantPayload f.hdr = true)
    {later : Bytes} (havailable : d.reasm.available = f.head ++ later)
    (hlater : later ++ rest = f.payload ++ framesWire (src.frames.drop (j + 1)))
    (hwhole : frameHeaderLen + f.hdr.len ≤ d.reasm.available.length) :
    frameOutput (d.takeFrame f.hdr).2 =
        ((src.start.absorbed (src.frames.take j)).absorb f).2 ∧
      (Lost src rest (d.takeFrame f.hdr).1 ∨ Reads src k rest (j + 1) (d.takeFrame f.hdr).1) := by
  obtain ⟨n, hhandled⟩ := h.handled
  obtain ⟨later', rfl, hlater'⟩ := append_split hlater (by
    rw [f.payload_length]
    rw [havailable, List.length_append, f.head_length] at hwhole
    omega)
  have hpayload : (d.reasm.available.drop frameHeaderLen).take f.hdr.len = f.payload := by
    rw [havailable, ← f.head_length, List.drop_left, ← f.payload_length, List.take_left]
  have hdrop : d.reasm.available.drop (frameHeaderLen + f.hdr.len) = later' := by
    rw [havailable, ← f.head_length, List.drop_length_add_append, ← f.payload_length,
      List.drop_left]
  have hhandle := handle_frame_relocated (src.start.absorbed (src.frames.take j))
    src.start.keepPayloads n d.reasm d.discard f.hdr f.payload d.reasm.offset
    d.reasm.nextUnparsedSeq
  rw [← hhandled] at hhandle
  obtain ⟨hplace, hplaceOut⟩ := handle_frame_place (src.start.absorbed (src.frames.take j)) f.hdr
    f.payload d.reasm.offset d.reasm.nextUnparsedSeq
  have habsorb : (src.start.absorbed (src.frames.take j)).absorb f =
      (((src.start.absorbed (src.frames.take j)).handleFrame f.hdr f.payload 0 0).1,
        frameOutput ((src.start.absorbed (src.frames.take j)).handleFrame f.hdr f.payload
          0 0).2) := by
    simp only [absorb, want_payload_absorbed, hwant, if_true]
  have hkeep : d.keepPayloads = src.start.keepPayloads := by
    rw [hhandled]
    rfl
  rw [take_frame_eq]
  simp only [hpayload, hhandle, habsorb, hplaceOut, hplace, true_and]
  have hsynced : (src.start.absorbed (src.frames.take j)).desynced = false := by
    have := h.synced.2.1
    rw [hhandled] at this
    exact this
  rcases handle_frame_desynced _ f.hdr f.payload 0 0 hsynced with hstill | ⟨hpoisoned, hlost⟩
  · right
    have hposition := same_position_handle_frame (src.start.absorbed (src.frames.take j)) f.hdr
      f.payload 0 0
    have hmode : (src.start.absorbed (src.frames.take j)).pendingStartSeq = none ∧
        (src.start.absorbed (src.frames.take j)).expectPreface = false := by
      have := h.synced
      rw [hhandled] at this
      exact ⟨this.1, this.2.2⟩
    exact {
      count := (List.getElem?_eq_some_iff.mp hframe).1
      handled := by
        refine ⟨d.frames + 1, ?_⟩
        rw [frames_take hframe, absorbed_append, absorbed_singleton, habsorb]
        simp only [relocated, hkeep]
      bytes := by
        refine ⟨[], hdiscard.symm, ?_⟩
        simp only [relocated, Reassembler.available_consume, hdrop, List.nil_append, hlater']
      dropping := by
        intro hmore
        simp only [relocated, hdiscard, lt_self_iff_false] at hmore
      synced := ⟨hposition.pendingStartSeq.trans hmode.1, hstill,
        hposition.expectPreface.trans hmode.2⟩
      order := src.delivery.consume h.order _ }
  · refine Or.inl ⟨⟨hpoisoned, Or.inl hlost⟩, j + 1,
      (List.getElem?_eq_some_iff.mp hframe).1, ?_, ?_⟩
    · rw [frames_take hframe, absorbed_append, absorbed_singleton, habsorb]
      exact hlost
    · rw [← hlater', List.length_append]
      omega

/-- Stepping over the header of a frame of no interest absorbs the frame. -/
theorem reads_skip (h : Reads src k rest j d) {f : Frame}
    (hframe : src.frames[j]? = some f) (hwant : src.start.wantPayload f.hdr = false)
    {later : Bytes} (havailable : d.reasm.available = f.head ++ later)
    (hlater : later ++ rest = f.payload ++ framesWire (src.frames.drop (j + 1))) :
    frameOutput (d.skipFrame f.hdr).2 =
        ((src.start.absorbed (src.frames.take j)).absorb f).2 ∧
      Reads src k rest (j + 1) (d.skipFrame f.hdr).1 := by
  obtain ⟨n, hhandled⟩ := h.handled
  have habsorb : (src.start.absorbed (src.frames.take j)).absorb f =
      (src.start.absorbed (src.frames.take j), (none, none)) := by
    simp only [absorb, want_payload_absorbed, hwant, Bool.false_eq_true, if_false]
  refine ⟨by rw [habsorb]; rfl, ?_⟩
  exact {
    count := (List.getElem?_eq_some_iff.mp hframe).1
    handled := by
      refine ⟨d.frames + 1, ?_⟩
      rw [frames_take hframe, absorbed_append, absorbed_singleton, habsorb]
      have hrest : ∀ r : Reassembler, { d with
          reasm := r, discard := f.hdr.len, frames := d.frames + 1 } =
          (src.start.absorbed (src.frames.take j)).relocated src.start.keepPayloads (d.frames + 1) r
            f.hdr.len := by
        intro r
        rw [hhandled]
        rfl
      exact hrest _
    bytes := by
      refine ⟨f.payload, f.payload_length, ?_⟩
      simp only [skipFrame, Reassembler.available_consume, havailable]
      rw [← f.head_length, List.drop_left, hlater]
    dropping := by
      intro hmore
      exact ⟨j, f, rfl, hframe, hwant, le_refl _⟩
    synced := h.synced
    order := src.delivery.consume h.order _ }

/-- A turn at a frame boundary absorbs the next frame, waits for it, or loses its place. -/
theorem reads_frame (h : Reads src k rest j d) (hdiscard : d.discard = 0) :
    (d.parseStep = .stop d ∧ Settled src j d) ∨
      ∃ f d' pf, src.frames[j]? = some f ∧ d.parseStep = .more d' (some pf) ∧
        frameOutput pf = ((src.start.absorbed (src.frames.take j)).absorb f).2 ∧
        (Lost src rest d' ∨ Reads src k rest (j + 1) d') := by
  obtain ⟨hpending, hsynced, hpreface⟩ := h.synced
  obtain ⟨n, hhandled⟩ := h.handled
  obtain ⟨tail, htail, hbytes⟩ := h.bytes
  have hturn : d.parseStep = d.frameStep := by
    simp [parseStep, hdiscard, hpending, hsynced, hpreface]
  obtain rfl : tail = [] := List.length_eq_zero_iff.mp (htail.trans hdiscard)
  rw [List.nil_append] at hbytes
  have hsettled : Settled src j d ↔ match src.frames[j]? with
      | none => True
      | some f => d.reasm.available.length < frameHeaderLen ∨
          src.start.wantPayload f.hdr = true ∧
            d.reasm.available.length < frameHeaderLen + f.hdr.len := by
    simp only [Settled, hdiscard, gt_iff_lt, lt_self_iff_false, if_false]
  cases hframe : src.frames[j]? with
  | none =>
      have hend : src.frames.drop j = [] :=
        List.drop_eq_nil_of_le (List.getElem?_eq_none_iff.mp hframe)
      rw [hend, frames_wire_nil, List.append_eq_nil_iff] at hbytes
      refine Or.inl ⟨?_, by rw [hsettled, hframe]; trivial⟩
      rw [hturn, frameStep, hbytes.1]
      rfl
  | some f =>
      rw [hframe] at hsettled
      rw [frames_drop hframe, frames_wire_cons, Frame.wire, List.append_assoc] at hbytes
      by_cases hshort : d.reasm.available.length < frameHeaderLen
      · refine Or.inl ⟨?_, hsettled.mpr (Or.inl hshort)⟩
        rw [hturn, frameStep, (FrameHeader.parse_eq_none_iff _).mpr hshort]
      · obtain ⟨later, havailable, hlater⟩ := append_split hbytes (by rw [f.head_length]; omega)
        have hparse : FrameHeader.parse d.reasm.available = some f.hdr := by
          rw [havailable]
          exact FrameHeader.parse_append f.parse_eq later
        have hwant : d.wantPayload f.hdr = src.start.wantPayload f.hdr := by
          rw [hhandled]
          rfl
        rw [frameStep, hparse] at hturn
        simp only [hwant] at hturn
        cases hwanted : src.start.wantPayload f.hdr with
        | true =>
            rw [hwanted, if_pos rfl] at hturn
            split at hturn
            · next hpart =>
                exact Or.inl ⟨hturn, hsettled.mpr (Or.inr ⟨hwanted, hpart⟩)⟩
            · next hwhole =>
                exact Or.inr ⟨f, _, _, rfl, hturn,
                  reads_take h hdiscard hframe hwanted havailable hlater (by omega)⟩
        | false =>
            rw [hwanted] at hturn
            simp only [Bool.false_eq_true, if_false] at hturn
            obtain ⟨hout, hreads⟩ := reads_skip h hframe hwanted havailable hlater
            exact Or.inr ⟨f, _, _, rfl, hturn, hout, Or.inr hreads⟩

omit [HuffmanDecoding] in
/-- The frames from `j` on, when the first of them is `f`. -/
theorem frames_between {f : Frame} {j' : Nat} (hframe : src.frames[j]? = some f) (hlt : j < j') :
    (src.frames.take j').drop j = f :: (src.frames.take j').drop (j + 1) := by
  obtain ⟨hj, rfl⟩ := List.getElem?_eq_some_iff.mp hframe
  have hlength : j < (src.frames.take j').length := by
    rw [List.length_take]
    omega
  rw [List.drop_eq_getElem_cons hlength, List.getElem_take]

/-! ## The whole loop -/

/-- The parse loop absorbs every frame that is complete and returns what they return, or loses its
place. -/
theorem parse_reads (h : Reads src k rest j d) :
    Lost src rest d.parse.1 ∨ ∃ j', j ≤ j' ∧ Reads src k rest j' d.parse.1 ∧
      Settled src j' d.parse.1 ∧ d.parse.2.map frameOutput =
        (src.start.absorbed (src.frames.take j)).absorbOutput ((src.frames.take j').drop j) := by
  induction hwork : d.work using Nat.strongRecOn generalizing d j with
  | ind n ih =>
      subst hwork
      have hstop (hturn : d.parseStep = .stop d) (hsettled : Settled src j d) :
          Lost src rest d.parse.1 ∨ ∃ j', j ≤ j' ∧ Reads src k rest j' d.parse.1 ∧
            Settled src j' d.parse.1 ∧ d.parse.2.map frameOutput =
              (src.start.absorbed (src.frames.take j)).absorbOutput
                ((src.frames.take j').drop j) := by
        refine Or.inr ⟨j, le_refl j, ?_⟩
        rw [parse_of_stop hturn, List.drop_eq_nil_of_le (List.length_take_le _ _)]
        exact ⟨h, hsettled, rfl⟩
      by_cases hdiscard : 0 < d.discard
      · rcases reads_discard h hdiscard with ⟨hturn, hsettled⟩ | ⟨d', hturn, hreads⟩
        · exact hstop hturn hsettled
        · rw [parse_of_more hturn, Option.toList_none, List.nil_append]
          exact ih _ (work_parse_step hturn) hreads rfl
      · rcases reads_frame h (by omega) with
          ⟨hturn, hsettled⟩ | ⟨f, d', pf, hframe, hturn, hout, hnext⟩
        · exact hstop hturn hsettled
        · rw [parse_of_more hturn]
          rcases hnext with hlost | hreads
          · exact Or.inl ⟨lost_sync_parse hlost.sync, hlost.frame⟩
          · rcases ih _ (work_parse_step hturn) hreads rfl with
              hlost | ⟨j', hle, hreads', hsettled, houts⟩
            · exact Or.inl hlost
            · refine Or.inr ⟨j', by omega, hreads', hsettled, ?_⟩
              rw [Option.toList_some, List.singleton_append, List.map_cons, houts, hout,
                frames_between hframe hle, frames_take hframe, absorbed_append]
              rfl

/-- A segment moves `data` from the bytes to come to the bytes received. -/
theorem reads_received {data : Bytes} {pushed : Reassembler × Bool}
    (h : Reads src k (data ++ rest) j d) (hadds : src.delivery.Adds d.reasm k data pushed) :
    Reads src (k + data.length) rest j (d.withReassembled pushed) := by
  obtain ⟨n, hhandled⟩ := h.handled
  obtain ⟨tail, htail, hbytes⟩ := h.bytes
  simp only [withReassembled, hadds.no_gap, Bool.false_eq_true, if_false]
  exact {
    count := h.count
    handled := ⟨n, by rw [hhandled]; rfl⟩
    bytes := by
      refine ⟨tail, htail, ?_⟩
      simp only [hadds.available_eq, List.append_assoc, hbytes]
    dropping := h.dropping
    synced := h.synced
    order := hadds.holds }

end

/-! ## Segments in order -/

/-- Feed the next segment of a stream that has reached the sequence number `s.2`. -/
def feedNext (s : Direction × Seq) (segment : Bytes × Nat) :
    (Direction × Seq) × List ProcessedFrame :=
  (((s.1.feed s.2 segment.1 segment.2).1, s.2 + BitVec.ofNat 32 segment.1.length),
    (s.1.feed s.2 segment.1 segment.2).2)

/-- The bytes of a list of segments, each with the time it arrives. -/
def segmentBytes (segments : List (Bytes × Nat)) : Bytes := segments.flatMap Prod.fst

/-- The same segments as operations, from the sequence number `seq` on. -/
def segmentOps (seq : Seq) : List (Bytes × Nat) → List DirOp
  | [] => []
  | segment :: segments => .feed seq segment.1 segment.2 ::
      segmentOps (seq + BitVec.ofNat 32 segment.1.length) segments

omit [HuffmanDecoding] in
/-- The last segment comes after the bytes of all others. -/
theorem segment_ops_concat (seq : Seq) (segments : List (Bytes × Nat)) (segment : Bytes × Nat) :
    segmentOps seq (segments ++ [segment]) = segmentOps seq segments ++
      [.feed (seq + BitVec.ofNat 32 (segmentBytes segments).length) segment.1 segment.2] := by
  induction segments generalizing seq with
  | nil =>
      have hfirst : seq + BitVec.ofNat 32 (segmentBytes []).length = seq := BitVec.add_zero seq
      rw [hfirst]
      rfl
  | cons first segments ih =>
      have hbytes : segmentBytes (first :: segments) = first.1 ++ segmentBytes segments := rfl
      rw [List.cons_append, segmentOps, ih, segmentOps, List.cons_append, hbytes,
        List.length_append, BitVec.ofNat_add, BitVec.add_assoc]

omit [HuffmanDecoding] in
theorem LostSync.reassembled {d : Direction} (h : d.LostSync) (pushed : Reassembler × Bool) :
    (d.withReassembled pushed).LostSync := by
  unfold withReassembled
  split
  · exact ⟨rfl, Or.inl rfl⟩
  · exact h

/-- Where a direction that is fed a stream can be: it has lost its place, or is still before
the first frame, as `before` says, or has absorbed the first `j` frames. `outs` is what it has
returned. -/
def Follows (src : Source) (before : Nat → Bytes → Direction → Prop) (k : Nat) (rest : Bytes)
    (outs : List (Option DecodedBlock × Option Nat)) (d : Direction) : Prop :=
  Lost src rest d ∨ before k rest d ∧ outs = [] ∨
    ∃ j, Reads src k rest j d ∧ Settled src j d ∧ outs = src.start.absorbOutput (src.frames.take j)

section

variable {src : Source} {before : Nat → Bytes → Direction → Prop} {k : Nat} {rest : Bytes}
  {outs : List (Option DecodedBlock × Option Nat)} {d : Direction}

/-- What `parse` makes of a direction that stands at the first frame or after it. -/
theorem follows_parse {j : Nat} (h : Reads src k rest j d) :
    Follows src before k rest
      (src.start.absorbOutput (src.frames.take j) ++ d.parse.2.map frameOutput) d.parse.1 := by
  rcases parse_reads h with hlost | ⟨j', hle, hreads, hsettled, houts⟩
  · exact Or.inl hlost
  · refine Or.inr (Or.inr ⟨j', hreads, hsettled, ?_⟩)
    rw [houts, ← absorb_output_append, ← take_split _ hle]

/-- What parsing after a segment keeps, if it keeps it before the first frame. -/
theorem follows_received {data : Bytes} {pushed : Reassembler × Bool}
    (hbefore : before k (data ++ rest) d →
      Follows src before (k + data.length) rest
        ((d.withReassembled pushed).parse.2.map frameOutput) (d.withReassembled pushed).parse.1)
    (hadds : src.delivery.Holds d.reasm k → src.delivery.Adds d.reasm k data pushed)
    (h : Follows src before k (data ++ rest) outs d) :
    Follows src before (k + data.length) rest
      (outs ++ (d.withReassembled pushed).parse.2.map frameOutput)
      (d.withReassembled pushed).parse.1 := by
  rcases h with hlost | ⟨hstart, rfl⟩ | ⟨j, hreads, -, rfl⟩
  · obtain ⟨i, hi, hdesynced, hlength⟩ := hlost.frame
    rw [List.length_append] at hlength
    exact Or.inl ⟨lost_sync_parse (hlost.sync.reassembled _), i, hi, hdesynced, by omega⟩
  · exact hbefore hstart
  · exact follows_parse (reads_received hreads (hadds hreads.order))

/-- Segments in order, cut anywhere, keep the direction on the stream. -/
theorem follows_run (segments : List (Bytes × Nat)) {base : Seq}
    (hdelivery : src.delivery = .inOrder base)
    (hbefore : ∀ k rest d (segment : Bytes × Nat), before k (segment.1 ++ rest) d →
      Follows src before (k + segment.1.length) rest
        ((d.feed (base + BitVec.ofNat 32 k) segment.1 segment.2).2.map frameOutput)
        (d.feed (base + BitVec.ofNat 32 k) segment.1 segment.2).1)
    (h : Follows src before k (segmentBytes segments ++ rest) outs d) :
    let result := run feedNext (d, base + BitVec.ofNat 32 k) segments
    Follows src before (k + (segmentBytes segments).length) rest
      (outs ++ result.2.flatten.map frameOutput) result.1.1 := by
  induction segments generalizing k outs d with
  | nil => simpa [segmentBytes] using h
  | cons segment segments ih =>
      have hbytes : segmentBytes (segment :: segments) = segment.1 ++ segmentBytes segments := rfl
      rw [hbytes, List.append_assoc] at h
      have hadds : src.delivery.Holds d.reasm k → src.delivery.Adds d.reasm k segment.1
          (d.reasm.push (base + BitVec.ofNat 32 k) segment.1 segment.2) := by
        rw [hdelivery]
        exact fun horder => adds_in_order horder segment.1 segment.2
      have hnext := ih (follows_received (hbefore _ _ _ segment) hadds h)
      simp only [run, feedNext, feed, List.flatten_cons, List.map_append, hbytes,
        List.length_append,
        BitVec.add_assoc, ← BitVec.ofNat_add, ← List.append_assoc, ← Nat.add_assoc] at hnext ⊢
      exact hnext

/-- How far the direction has read, in bytes: all that was received but what is buffered. -/
theorem Reads.offset_eq (lead : Nat) {j : Nat} (h : Reads src k rest j d)
    (htotal : k + rest.length = lead + (framesWire src.frames).length) :
    d.reasm.offset + d.discard = lead + (framesWire (src.frames.take j)).length := by
  obtain ⟨tail, htail, hbytes⟩ := h.bytes
  have hlengths := congrArg List.length hbytes
  have hsplit : framesWire src.frames =
      framesWire (src.frames.take j) ++ framesWire (src.frames.drop j) := by
    rw [framesWire, framesWire, framesWire, ← List.flatMap_append, List.take_append_drop]
  have hreceived := (src.delivery.place h.order).2
  rw [hsplit, List.length_append] at htotal
  simp only [List.length_append] at hlengths
  simp only [Reassembler.offset]
  omega

end

end Direction

end H2Tap
