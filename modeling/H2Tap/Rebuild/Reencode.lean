import H2Tap.Rebuild.Fragments

/-!
# Reading back a re-encoded header block

A direction between two header blocks that is fed the frames of an encoded block, cut into segments
anywhere, returns these frames and the block with the last of them (`feed_encode_block`).
-/

namespace H2Tap.Direction

open Lib

section

variable [HuffmanDecoding]

/-! ## What is returned of header frames -/

omit [HuffmanDecoding] in
/-- The bytes of a frame that was returned with its payload. -/
def frameBytes (pf : ProcessedFrame) : Bytes := pf.hdr.write ++ pf.payload

/-- Header frames are returned whole. -/
theorem returned_all_header_frames (base : Seq) (off : Nat) (d : Direction) {frames : List Frame}
    (h : ∀ f ∈ frames, IsHeaderFrame f) :
    (returnedAll base off d frames).map frameBytes = frames.map Frame.wire ∧
      ∀ pf ∈ returnedAll base off d frames, pf.truncated = false := by
  induction frames generalizing off d with
  | nil => exact ⟨rfl, by simp [returnedAll]⟩
  | cons f frames ih =>
      rw [List.forall_mem_cons] at h
      obtain ⟨hf, hframes⟩ := h
      obtain ⟨hbytes, htruncated⟩ := ih (off + f.wire.length) (d.absorb f).1 hframes
      have hwhole : frameBytes (returned base off d f) = f.wire ∧
          (returned base off d f).truncated = false := by
        rw [returned, if_pos (want_header_frame d hf.isHeader hf.len_le),
          handle_header_frame d hf.isHeader, Frame.wire, hf.head]
        split <;> exact ⟨rfl, rfl⟩
      rw [returnedAll, List.map_cons, List.map_cons, hwhole.1, hbytes, List.forall_mem_cons]
      exact ⟨rfl, hwhole.2, htruncated⟩

/-- Nothing comes before the first frame. -/
def Never (_ : Nat) (_ : Bytes) (_ : Direction) : Prop := False

/-- Segments in order take a direction that never loses its place on. -/
theorem follows_all_run {src : Source} {lead bound k : Nat} {rest : Bytes} {base : Seq}
    {pfs : List ProcessedFrame} {d : Direction} (hkeeps : KeepsPlace src lead bound)
    (hdelivery : src.delivery = .inOrder base) (segments : List (Bytes × Nat))
    (hk : k + (segmentBytes segments).length ≤ bound)
    (htotal : k + (segmentBytes segments ++ rest).length = lead + (framesWire src.frames).length)
    (h : FollowsAll src Never lead k (segmentBytes segments ++ rest) pfs d) :
    let result := run feedNext (d, base + BitVec.ofNat 32 k) segments
    FollowsAll src Never lead (k + (segmentBytes segments).length) rest
      (pfs ++ result.2.flatten) result.1.1 := by
  induction segments generalizing k pfs d with
  | nil => simpa [segmentBytes] using h
  | cons segment segments ih =>
      have hbytes : segmentBytes (segment :: segments) = segment.1 ++ segmentBytes segments := rfl
      rw [hbytes, List.length_append] at hk
      rw [hbytes, List.append_assoc] at h htotal
      have hadds : src.delivery.Adds d.reasm k segment.1
          (d.reasm.push (base + BitVec.ofNat 32 k) segment.1 segment.2) := by
        rcases h with ⟨hnever, -⟩ | ⟨j, hreads, -⟩
        · exact hnever.elim
        · have horder := hreads.order
          rw [hdelivery] at horder ⊢
          exact adds_in_order horder segment.1 segment.2
      have hfed := follows_all_feed hkeeps (fun hnever _ => hnever.elim) (by omega) htotal h hadds
      rw [List.length_append] at htotal
      have hnext := ih (by omega) (by omega) hfed
      simp only [run, feedNext, List.flatten_cons, hbytes, List.length_append, BitVec.add_assoc,
        ← BitVec.ofNat_add, ← List.append_assoc, ← Nat.add_assoc] at hnext ⊢
      exact hnext

/-! ## A direction that is ready for a block -/

/-- A synced direction that stands at a frame boundary between two header blocks, with no bytes
received but not consumed. -/
structure Resting (d : Direction) : Prop where
  reachable : d.Reachable
  synced : d.desynced = false
  closed : d.blockHdr = none
  pendingStartSeq : d.pendingStartSeq = none
  discard : d.discard = 0
  expectPreface : d.expectPreface = false
  available : d.reasm.available = []
  ooo : d.reasm.ooo = []

/-- The frames of an encoded block were returned whole, with the block on the last one, and the
decoder was left as it was. -/
structure ReturnsBlock (blk : DecodedBlock) (maxFrame : Nat) (d : Direction)
    (result : (Direction × Seq) × List (List ProcessedFrame)) : Prop where
  frames : result.2.flatten.map frameBytes = encodeBlock blk maxFrame
  whole : ∀ pf ∈ result.2.flatten, pf.truncated = false
  decoded : ∃ decoded, result.2.flatten.map ProcessedFrame.decoded =
    List.replicate (result.2.flatten.length - 1) none ++ [some decoded] ∧ blk.SameHeaders decoded
  dec : result.1.1.dec = d.dec

/-- The next bytes in order come at this sequence number. Before the first bytes it is any. -/
def IsNext (d : Direction) (seq : Seq) : Prop := d.reasm.initialized = true → seq = d.reasm.nextSeq

/-- At a frame boundary nothing happens before bytes arrive. -/
theorem feed_nothing {d : Direction} (hat : d.atFrame = true) (havailable : d.reasm.available = [])
    (seq : Seq) (nowUs : Nat) : d.feed seq [] nowUs = (d, []) := by
  obtain ⟨hdiscard, hpending, hsynced, hpreface⟩ := at_frame_parts hat
  have hturn : d.parseStep = .stop d := by
    simp [parseStep, hdiscard, hpending, hsynced, hpreface, frameStep, havailable,
      FrameHeader.parse]
  exact parse_of_stop hturn

omit [HuffmanDecoding] in
theorem start_start (r : Reassembler) (seq : Seq) : (r.start seq).start seq = r.start seq := by
  by_cases hinit : r.initialized = true
  · simp only [Reassembler.start, hinit, if_true]
  · simp [Reassembler.start, hinit]

/-- The sequence number at which a direction starts is that of its first bytes. Empty segments
before them do nothing. -/
theorem run_feed_next_start {d : Direction} (hat : d.atFrame = true)
    (havailable : d.reasm.available = []) (seq : Seq) {segments : List (Bytes × Nat)}
    (hsegments : segmentBytes segments ≠ []) :
    run feedNext (d, seq) segments =
      run feedNext ({ d with reasm := d.reasm.start seq }, seq) segments := by
  induction segments with
  | nil => exact absurd rfl hsegments
  | cons segment segments ih =>
      by_cases hdata : segment.1 = []
      · have hnext : segmentBytes segments ≠ [] := by
          simpa [segmentBytes, hdata] using hsegments
        have havailable' : (d.reasm.start seq).available = [] := by
          unfold Reassembler.start
          split <;> exact havailable
        have hstarted := feed_nothing (d := { d with reasm := d.reasm.start seq }) hat havailable'
          seq segment.2
        simp only [run, feedNext, hdata, feed_nothing hat havailable, hstarted, List.length_nil,
          BitVec.add_zero, ih hnext]
      · have hsome : segment.1.isEmpty = false := by rwa [← Bool.not_eq_true, List.isEmpty_iff]
        have hpush : (d.reasm.start seq).push seq segment.1 segment.2 =
            d.reasm.push seq segment.1 segment.2 := by
          simp only [Reassembler.push, hsome, Bool.false_eq_true, if_false, start_start]
        simp only [run, feedNext, feed, hpush]
        rfl

omit [HuffmanDecoding] in
/-- A reassembler with nothing buffered or held is in order from where it stands. -/
theorem in_order_start {r : Reassembler} (h : r.Accounted) (havailable : r.available = [])
    (hooo : r.ooo = []) {seq : Seq} (hseq : r.initialized = true → seq = r.nextSeq) :
    (r.start seq).available = [] ∧ (r.start seq).InOrder (r.start seq).baseSeq r.deliveredOff ∧
      seq = (r.start seq).baseSeq + BitVec.ofNat 32 r.deliveredOff := by
  obtain ⟨hstart, hinit⟩ := h.start seq
  have hsame : (r.start seq).available = r.available ∧ (r.start seq).ooo = r.ooo ∧
      (r.start seq).deliveredOff = r.deliveredOff ∧ seq = (r.start seq).nextSeq := by
    by_cases hinit : r.initialized = true
    · simp only [Reassembler.start, hinit, if_true, true_and]
      exact hseq hinit
    · simp [Reassembler.start, hinit, Reassembler.available]
  obtain ⟨havailable', hooo', hdelivered, hseq'⟩ := hsame
  have hnext := hstart.nextSeq
  rw [hdelivered] at hnext
  refine ⟨havailable'.trans havailable, ⟨hinit, hooo'.trans hooo, rfl, hnext, ?_⟩,
    hseq'.trans hnext⟩
  rw [hstart.received, hdelivered]

/-- What a resting direction returns when it is fed an encoded block. -/
theorem feed_encoded {d : Direction} (h : d.Resting) {seq : Seq} (hseq : d.IsNext seq)
    {blk : DecodedBlock} (hblk : blk.WellFormed) {maxFrame : Nat} (hmin : 4 ≤ maxFrame)
    (hmax : maxFrame ≤ maxBufferedFrame) {segments : List (Bytes × Nat)}
    (hsegments : segmentBytes segments = (encodeBlock blk maxFrame).flatten) :
    let result := run feedNext (d, seq) segments
    result.2.flatten.map frameBytes = encodeBlock blk maxFrame ∧
      (∀ pf ∈ result.2.flatten, pf.truncated = false) ∧
      ∃ hdr, blk.Heads hdr ∧ result.1.1.dec = (d.holding blk hdr).finishBlock.1.dec ∧
        result.2.flatten.map frameOutput =
          List.replicate (result.2.flatten.length - 1) (none, none) ++
            [((d.holding blk hdr).finishBlock.2, none)] := by
  obtain ⟨haccounted, hidle⟩ := h.reachable.accounted_idle
  obtain ⟨frames, hdr, hwire, hframes, hblocks, hheads, hstate, hout⟩ :=
    absorbed_encode_block hidle h.closed hblk hmin hmax
  have hbytes : segmentBytes segments = framesWire frames := by
    rw [hsegments, ← hwire, framesWire, List.flatMap_def]
  have hat : d.atFrame = true := by
    simp [atFrame, h.discard, h.pendingStartSeq, h.synced, h.expectPreface]
  have hsome : segmentBytes segments ≠ [] := by
    rw [hbytes]
    rcases frames with _ | ⟨f, frames⟩
    · simp [absorbOutput] at hout
    · rw [frames_wire_cons, ← List.length_pos_iff, List.length_append, f.wire_length]
      simp only [frameHeaderLen]
      omega
  rw [run_feed_next_start hat h.available seq hsome]
  obtain ⟨havailable, horder, hseq'⟩ := in_order_start haccounted h.available h.ooo hseq
  set started : Direction := { d with reasm := d.reasm.start seq } with hstarted
  set base := (d.reasm.start seq).baseSeq
  set k := d.reasm.deliveredOff
  let src : Source := ⟨d, frames, .inOrder base⟩
  have hplace : d.InPlace false := ⟨fun hopen => Bool.noConfusion hopen, h.synced⟩
  have hkeeps : KeepsPlace src k (k + (framesWire frames).length) := fun j _ _ =>
    hplace.absorbed (hblocks.take j)
  have hstart : FollowsAll src Never k k (segmentBytes segments ++ []) [] started := by
    refine Or.inr ⟨0, ?_, ?_, rfl⟩
    · rw [List.append_nil, hbytes]
      exact reads_start hat rfl (by rw [hstarted, havailable]; rfl) horder
    · unfold Settled
      rw [if_neg (by rw [hstarted]; simp only [h.discard]; omega)]
      split
      · trivial
      · left
        rw [hstarted, havailable]
        exact Nat.succ_pos 8
  have hrun := follows_all_run hkeeps rfl segments (by rw [hbytes])
    (by rw [List.append_nil, hbytes]) hstart
  rw [← hseq'] at hrun
  obtain ⟨hpfs, n, hfinal⟩ := follows_all_end hrun id
  change _ = returnedAll base k d frames at hpfs
  rw [List.nil_append] at hpfs
  intro result
  obtain ⟨hwhole, htruncated⟩ := returned_all_header_frames base k d hframes
  have houts := returned_all_outputs base k d frames
  rw [← hpfs] at hwhole htruncated houts
  have hlength := congrArg List.length hwhole
  rw [List.length_map, List.length_map] at hlength
  refine ⟨hwhole.trans hwire, htruncated, hdr, hheads, ?_, ?_⟩
  · refine (congrArg Direction.dec hfinal).trans ?_
    rw [← hstate]
    rfl
  · rw [houts, hout, ← hlength]

/-- A block that is encoded again and fed to a resting direction is returned in the frames that
carry it, and decoded with the last of them. It leaves the decoder, and so the dynamic table,
alone. -/
theorem feed_encode_block {d : Direction} (h : d.Resting) {seq : Seq} (hseq : d.IsNext seq)
    {blk : DecodedBlock} (hblk : blk.WellFormed) (hfields : ∀ f ∈ blk.fields, f.Encodable)
    {maxFrame : Nat} (hmin : 4 ≤ maxFrame) (hmax : maxFrame ≤ maxBufferedFrame)
    {segments : List (Bytes × Nat)}
    (hsegments : segmentBytes segments = (encodeBlock blk maxFrame).flatten) :
    ReturnsBlock blk maxFrame d (run feedNext (d, seq) segments) := by
  obtain ⟨hbytes, htruncated, hdr, hhdr, hdec, houts⟩ :=
    feed_encoded h hseq hblk hmin hmax hsegments
  obtain ⟨hsame, decoded, hdecoded, hheaders⟩ := finish_encoded_block d hfields hhdr
  refine ⟨hbytes, htruncated, ⟨decoded, ?_, hheaders⟩, hdec.trans hsame⟩
  have hblocks := congrArg (List.map Prod.fst) houts
  rw [hdecoded] at hblocks
  simpa [frameOutput, Function.comp_def] using hblocks

end

/-- A promise of stream 2 on stream 1, with one field that is never indexed. -/
def samplePromise : DecodedBlock where
  streamId := 1
  fields := [⟨asciiBytes "a", asciiBytes "bc", true, false⟩]
  endStream := false
  kind := .pushPromise
  promisedStreamId := some 2
  exact := true
  unresolved := 0

/-- It spans three frames, which arrive in two segments at a direction that has not seen the SYN. -/
theorem feed_encode_block_promise :
    let _ := noHuffman.toHuffmanDecoding
    let bytes := (encodeBlock samplePromise 4).flatten
    ReturnsBlock samplePromise 4 (fromConnectionStart false false)
      (run feedNext (fromConnectionStart false false, 7)
        [(bytes.take 11, 1), (bytes.drop 11, 2)]) := by
  intro _ bytes
  refine feed_encode_block ⟨.started false false, rfl, rfl, rfl, rfl, rfl, rfl, rfl⟩
    (fun h => nomatch h) ⟨by decide, ?_, by decide, by decide⟩ (by decide) (by decide)
    (by decide) ?_
  · rintro sid ⟨⟩
    decide
  · simp [segmentBytes, bytes]

/-- A field whose name has more bytes than `read_int` can read. -/
def longNameField : Field := ⟨List.replicate (2 ^ 35 + 2 ^ 7 - 1) 0x61, [], false, false⟩

/-- A block with that field alone. -/
def longNameBlock : DecodedBlock where
  streamId := 1
  fields := [longNameField]
  endStream := false
  kind := .headers
  promisedStreamId := none
  exact := true
  unresolved := 0

/-- A field list of any length is not read back: the block with the long name is not decoded. -/
theorem long_name_not_decoded :
    let _ := noHuffman.toHuffmanDecoding
    ¬ ∀ (d : Direction) (seq : Seq) (blk : DecodedBlock) (maxFrame : Nat)
      (segments : List (Bytes × Nat)), d.Resting → d.IsNext seq → blk.WellFormed → 4 ≤ maxFrame →
      maxFrame ≤ maxBufferedFrame → segmentBytes segments = (encodeBlock blk maxFrame).flatten →
      ReturnsBlock blk maxFrame d (run feedNext (d, seq) segments) := by
  intro _ hall
  have hready : (fromConnectionStart false false).Resting :=
    ⟨.started false false, rfl, rfl, rfl, rfl, rfl, rfl, rfl⟩
  have hnext : (fromConnectionStart false false).IsNext 7 := fun h => nomatch h
  have hblk : longNameBlock.WellFormed := by
    refine ⟨by decide, ?_, by decide, by decide⟩
    rintro sid ⟨⟩
  have hbytes : segmentBytes [((encodeBlock longNameBlock 16384).flatten, 1)] =
      (encodeBlock longNameBlock 16384).flatten := by
    simp only [segmentBytes, List.flatMap_cons, List.flatMap_nil, List.append_nil]
  obtain ⟨-, -, ⟨decoded, hblocks, -⟩, -⟩ := hall _ 7 longNameBlock 16384 _ hready hnext hblk
    (by decide) (by decide) hbytes
  obtain ⟨-, -, hdr, -, -, houts⟩ := feed_encoded hready hnext hblk (by decide) (by decide) hbytes
  obtain ⟨dec, hdecode⟩ := (fromConnectionStart false false).dec.decode_literal_of_long_name
    (f := longNameField) rfl (by rw [longNameField, List.length_replicate])
  have hfailed : ((fromConnectionStart false false).holding longNameBlock hdr).finishBlock.2 =
      none := by
    rcases hfinish : ((fromConnectionStart false false).holding longNameBlock hdr).finishBlock with
      ⟨d', result⟩
    rcases finish_block_cases rfl hfinish with ⟨_, _, -, hnone, -⟩ | ⟨_, fields, hok, -⟩
    · exact hnone
    · have hdecoded := hdecode.symm.trans hok
      cases hdecoded
  have hnone := congrArg (List.map Prod.fst) houts
  rw [hfailed] at hnone
  simp [frameOutput, Function.comp_def] at hnone hblocks
  rw [hblocks] at hnone
  simp at hnone

end H2Tap.Direction
