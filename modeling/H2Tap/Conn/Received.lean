import H2Tap.Hpack.Restored
import H2Tap.Conn.InOrder

/-!
# What the frames received in full have done

Which frames of a stream are received in full depends on the bytes to come only. A direction that
has settled has absorbed these (`reads_in_full`), and perhaps the header of one more, whose payload
it drops. What was decoded and announced is then what these frames return, and a place that was lost
at one of them stays lost.
-/

namespace H2Tap.Direction

open Lib

section

variable [HuffmanDecoding]

/-! ## Single frames -/

/-- A frame whose payload is dropped does nothing. -/
theorem absorb_of_unwanted {d : Direction} {f : Frame} (hwant : d.wantPayload f.hdr = false) :
    d.absorb f = (d, (none, none)) := by
  simp only [absorb, hwant, Bool.false_eq_true, if_false]

/-- A frame that carries no header block, or one too large to buffer, leaves a direction alone. -/
theorem absorb_without_block (d : Direction) {f : Frame}
    (hf : f.hdr.isHeaderFrame = false ∨ maxBufferedFrame < f.hdr.len) :
    (d.absorb f).1 = d ∧ (d.absorb f).2.1 = none := by
  unfold absorb
  split
  · next hwant =>
      rcases hf with hheader | hlarge
      · exact handle_non_header_frame d hheader f.payload 0 0
      · simp only [wantPayload, Bool.and_eq_true, decide_eq_true_eq] at hwant
        omega
  · exact ⟨rfl, rfl⟩

omit [HuffmanDecoding] in
theorem want_header_frame (d : Direction) {hdr : FrameHeader} (hheader : hdr.isHeaderFrame = true)
    (hlen : hdr.len ≤ maxBufferedFrame) : d.wantPayload hdr = true := by
  simp only [wantPayload, hheader, hlen, Bool.or_true, Bool.true_or, Bool.true_and, decide_true]

/-- A header frame that can be buffered is handled in either mode. -/
theorem absorb_header_frame (d : Direction) {f : Frame} (hheader : f.hdr.isHeaderFrame = true)
    (hlen : f.hdr.len ≤ maxBufferedFrame) :
    (d.absorb f).1 = (d.handleFrame f.hdr f.payload 0 0).1 ∧
      (d.absorb f).2 = frameOutput (d.handleFrame f.hdr f.payload 0 0).2 := by
  simp only [absorb, want_header_frame d hheader hlen, if_true, and_self]

omit [HuffmanDecoding] in
theorem continuation_is_header {hdr : FrameHeader} (h : hdr.typ = FrameType.continuation) :
    hdr.isHeaderFrame = true := by
  simp only [FrameHeader.isHeaderFrame, h]
  decide

/-- A frame that adds a fragment to the open block. -/
theorem absorb_fragment {d opened : Direction} {f : Frame} (hheader : f.hdr.isHeaderFrame = true)
    (hlen : f.hdr.len ≤ maxBufferedFrame)
    (hadd : d.addFragment f.hdr f.payload = some opened) :
    d.absorb f = ((opened.finishIfEnd f.hdr).1, ((opened.finishIfEnd f.hdr).2, none)) := by
  obtain ⟨hstate, hout⟩ := absorb_header_frame d hheader hlen
  rw [handle_header_frame d hheader, hadd] at hstate hout
  exact Prod.ext hstate hout

/-- A frame does not give a lost place back, nor a table that is over its limit. -/
theorem absorb_sticky (d : Direction) (f : Frame) :
    (d.LostPlace → (d.absorb f).1.LostPlace) ∧
      ((d.absorb f).1.dec.overLimit = false → d.dec.overLimit = false) := by
  unfold absorb
  split
  · have htake := handle_frame_cases d f.hdr f.payload 0 0
    refine ⟨htake.lost_place, ?_⟩
    simp only
    generalize (d.handleFrame f.hdr f.payload 0 0).1 = d' at htake ⊢
    generalize (d.handleFrame f.hdr f.payload 0 0).2.decoded = decoded at htake
    intro hwithin
    cases htake with
    | other _ hheader hsame => rwa [hsame.dec] at hwithin
    | bad _ hheader hadd hsame => rwa [hsame.dec] at hwithin
    | opened opened _ hheader hadd hend hsame =>
        rwa [hsame.dec, (add_fragment_open hadd).2.1] at hwithin
    | failed opened _ dec e hheader hadd hend hdecode hsame =>
        rw [hsame.dec] at hwithin
        exact (Decoder.decode_limit _ _ hdecode).2 hwithin
    | decoded opened _ bhdr dec fields hheader hadd hend hbhdr hdecode hsame =>
        rw [hsame.dec] at hwithin
        exact (Decoder.decode_limit _ _ hdecode).2 hwithin
  · exact ⟨id, id⟩

theorem absorbed_sticky (d : Direction) (frames : List Frame) :
    (d.LostPlace → (d.absorbed frames).LostPlace) ∧
      ((d.absorbed frames).dec.overLimit = false → d.dec.overLimit = false) := by
  induction frames generalizing d with
  | nil => exact ⟨id, id⟩
  | cons f frames ih =>
      obtain ⟨hplace, hover⟩ := absorb_sticky d f
      obtain ⟨hplace', hover'⟩ := ih (d.absorb f).1
      exact ⟨fun h => hplace' (hplace h), fun h => hover (hover' h)⟩

/-! ## What is returned -/

/-- The header blocks among what a direction returned. -/
def blocksOf (outs : List (Option DecodedBlock × Option Nat)) : List DecodedBlock :=
  outs.filterMap Prod.fst

/-- The table sizes among what a direction returned. -/
def sizesOf (outs : List (Option DecodedBlock × Option Nat)) : List Nat := outs.filterMap Prod.snd

omit [HuffmanDecoding] in
theorem blocks_of_append (outs later : List (Option DecodedBlock × Option Nat)) :
    blocksOf (outs ++ later) = blocksOf outs ++ blocksOf later := List.filterMap_append

omit [HuffmanDecoding] in
theorem sizes_of_append (outs later : List (Option DecodedBlock × Option Nat)) :
    sizesOf (outs ++ later) = sizesOf outs ++ sizesOf later := List.filterMap_append

omit [HuffmanDecoding] in
/-- Where every frame returns nothing, there is nothing. -/
theorem nothing_returned (outs : List (Option DecodedBlock × Option Nat))
    (h : ∀ out ∈ outs, out = (none, none)) : blocksOf outs = [] ∧ sizesOf outs = [] := by
  constructor <;> exact List.filterMap_eq_nil_iff.mpr fun out hout => by rw [h out hout]

omit [HuffmanDecoding] in
theorem blocks_of_frame_outputs (frames : List ProcessedFrame) :
    blocksOf (frames.map frameOutput) = decodedBlocks frames := by
  rw [blocksOf, List.filterMap_map]
  rfl

omit [HuffmanDecoding] in
theorem sizes_of_frame_outputs (frames : List ProcessedFrame) :
    sizesOf (frames.map frameOutput) = settingsSizes frames := by
  rw [sizesOf, List.filterMap_map]
  rfl

/-! ## Frames received in full -/

omit [HuffmanDecoding] in
theorem frames_left_antitone (frames : List Frame) {i j : Nat} (h : i ≤ j) :
    (framesWire (frames.drop j)).length ≤ (framesWire (frames.drop i)).length := by
  have hsplit : frames.drop i = (frames.drop i).take (j - i) ++ frames.drop j := by
    conv_lhs => rw [← List.take_append_drop (j - i) (frames.drop i)]
    rw [List.drop_drop, Nat.add_sub_of_le h]
  rw [hsplit, framesWire, framesWire, List.flatMap_append, List.length_append]
  omega

omit [HuffmanDecoding] in
theorem frames_left_succ {frames : List Frame} {i : Nat} {f : Frame} (h : frames[i]? = some f) :
    (framesWire (frames.drop i)).length =
      frameHeaderLen + f.hdr.len + (framesWire (frames.drop (i + 1))).length := by
  obtain ⟨hi, rfl⟩ := List.getElem?_eq_some_iff.mp h
  rw [List.drop_eq_getElem_cons hi, frames_wire_cons, List.length_append, Frame.wire_length]

/-- `j` frames of the stream are received in full, with `rest` still to come. -/
def ReceivedInFull (frames : List Frame) (rest : Bytes) (j : Nat) : Prop :=
  j ≤ frames.length ∧
    ∀ i ≤ frames.length, rest.length ≤ (framesWire (frames.drop i)).length ↔ i ≤ j

omit [HuffmanDecoding] in
theorem received_in_full_unique {frames : List Frame} {rest : Bytes} {i j : Nat}
    (hi : ReceivedInFull frames rest i) (hj : ReceivedInFull frames rest j) : i = j :=
  le_antisymm ((hj.2 i hi.1).mp ((hi.2 i hi.1).mpr (le_refl i)))
    ((hi.2 j hj.1).mp ((hj.2 j hj.1).mpr (le_refl j)))

omit [HuffmanDecoding] in
theorem nothing_received {frames : List Frame} {rest : Bytes} {i : Nat}
    (h : ReceivedInFull frames rest i) (hrest : (framesWire frames).length ≤ rest.length) :
    i = 0 := by
  by_contra hne
  have hlength : 0 < frames.length := by
    have := h.1
    omega
  have hsucc := frames_left_succ (List.getElem?_eq_getElem hlength)
  have hanti := frames_left_antitone frames (show 0 + 1 ≤ i by omega)
  have hle := (h.2 i h.1).mpr (le_refl i)
  simp only [frameHeaderLen, List.drop_zero] at hsucc
  omega

/-- A direction that has settled has absorbed the frames received in full, and perhaps the header of
one more, whose payload it drops. -/
theorem reads_in_full {src : Source} {k j : Nat} {rest : Bytes} {d : Direction}
    (h : Reads src k rest j d) (hsettled : Settled src j d) :
    ∃ i, ReceivedInFull src.frames rest i ∧ (d.discard = 0 ∧ j = i ∨ j = i + 1 ∧
      ∃ f, src.frames[i]? = some f ∧ src.start.wantPayload f.hdr = false ∧
        d.discard ≤ f.hdr.len) := by
  obtain ⟨tail, htail, hbytes⟩ := h.bytes
  have hlengths := congrArg List.length hbytes
  simp only [List.length_append] at hlengths
  rcases Nat.eq_zero_or_pos d.discard with hdiscard | hdiscard
  · refine ⟨j, ⟨h.count, fun i hi => ⟨fun hle => ?_, fun hle => ?_⟩⟩,
      Or.inl ⟨hdiscard, rfl⟩⟩
    · by_contra hlt
      have hj : j < src.frames.length := by omega
      have hf := List.getElem?_eq_getElem hj
      have hsucc := frames_left_succ hf
      have hanti := frames_left_antitone src.frames (show j + 1 ≤ i by omega)
      simp only [Settled, hdiscard, gt_iff_lt, lt_self_iff_false, if_false, hf] at hsettled
      omega
    · have hanti := frames_left_antitone src.frames hle
      omega
  · obtain ⟨i, f, rfl, hf, hwant, hle⟩ := h.dropping hdiscard
    have hsucc := frames_left_succ hf
    simp only [Settled, gt_iff_lt, hdiscard, if_true] at hsettled
    rw [hsettled, List.length_nil] at hlengths
    refine ⟨i, ⟨(List.getElem?_eq_some_iff.mp hf).1.le, fun i' hi' =>
      ⟨fun hle' => ?_, fun hle' => ?_⟩⟩, Or.inr ⟨rfl, f, hf, hwant, hle⟩⟩
    · by_contra hlt
      have hanti := frames_left_antitone src.frames (show i + 1 ≤ i' by omega)
      omega
    · have hanti := frames_left_antitone src.frames hle'
      omega

/-- What a settled direction has absorbed and returned is what the frames received in full do. -/
theorem reads_received_in_full {src : Source} {k j : Nat} {rest : Bytes} {d : Direction}
    (h : Reads src k rest j d) (hsettled : Settled src j d) :
    ∃ i, ReceivedInFull src.frames rest i ∧
      src.start.absorbed (src.frames.take j) = src.start.absorbed (src.frames.take i) ∧
      blocksOf (src.start.absorbOutput (src.frames.take j)) =
        blocksOf (src.start.absorbOutput (src.frames.take i)) := by
  obtain ⟨i, hfull, ⟨-, rfl⟩ | ⟨rfl, f, hf, hwant, -⟩⟩ := reads_in_full h hsettled
  · exact ⟨j, hfull, rfl, rfl⟩
  · have hunwanted : (src.start.absorbed (src.frames.take i)).wantPayload f.hdr = false := by
      rw [want_payload_absorbed, hwant]
    have habsorb := absorb_of_unwanted hunwanted
    refine ⟨i, hfull, ?_, ?_⟩
    · rw [frames_take hf, absorbed_append, absorbed_singleton, habsorb]
    · rw [frames_take hf, absorb_output_append, blocks_of_append,
        (nothing_returned ((src.start.absorbed (src.frames.take i)).absorbOutput [f])
          (by simp [absorbOutput, run, habsorb])).1, List.append_nil]

end

/-! ## Two header blocks -/

/-- A HEADERS frame whose block inserts an entry. -/
def insertingFrame : Frame where
  head := [0, 0, 9, FrameType.headers, Flags.endHeaders, 0, 0, 0, 1]
  hdr := ⟨9, FrameType.headers, Flags.endHeaders, 1⟩
  payload := [0x40, 3] ++ asciiBytes "foo" ++ [3] ++ asciiBytes "bar"
  head_length := rfl
  parse_eq := rfl
  payload_length := by decide +kernel

/-- A HEADERS frame whose block refers to the newest entry. -/
def referringFrame : Frame where
  head := [0, 0, 1, FrameType.headers, Flags.endHeaders, 0, 0, 0, 3]
  hdr := ⟨1, FrameType.headers, Flags.endHeaders, 3⟩
  payload := [0xbe]
  head_length := rfl
  parse_eq := rfl
  payload_length := rfl

end H2Tap.Direction
