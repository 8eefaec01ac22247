import H2Tap.Rebuild.Reencode

/-!
# Reading back what was written, item by item

What the replay writes for a direction is a list of items: header blocks, other frames and markers.
A direction that stands between two items and is fed the frames of the next one, cut into segments
anywhere, returns one item with the same frames, and stands between two items again
(`Paused.feed_item`).
-/

namespace H2Tap

open Lib

/-! ## Items that can be read back -/

namespace DecodedBlock

/-- What is written of a block: only a promise has a promised stream, and it ends no stream. -/
def carried (blk : DecodedBlock) : DecodedBlock :=
  if blk.kind = .pushPromise then { blk with endStream := false }
  else { blk with promisedStreamId := none }

/-- The rest of a block does not show in its frames. -/
theorem encode_block_carried (blk : DecodedBlock) (maxFrame : Nat) :
    encodeBlock blk.carried maxFrame = encodeBlock blk maxFrame := by
  by_cases hpush : blk.kind = .pushPromise
  · have htype : (FrameType.pushPromise == FrameType.headers) = false := by decide
    simp [encodeBlock, carried, hpush, htype]
  · simp [encodeBlock, carried, hpush]

/-- A block that was read back has the frames of the one that was written. -/
theorem SameHeaders.encode_block_eq {blk decoded : DecodedBlock} (h : blk.SameHeaders decoded)
    (maxFrame : Nat) : encodeBlock decoded maxFrame = encodeBlock blk maxFrame := by
  have hfields : encodeLiteral decoded.fields = encodeLiteral blk.fields := by
    rw [h.fields, encodeLiteral, List.flatMap_map]
    rfl
  simp only [encodeBlock, h.kind, h.promisedStreamId, h.endStream, h.streamId, hfields]

end DecodedBlock

namespace Normalized

/-- What a header block or a marker is written as. -/
def block? : Normalized → Option DecodedBlock
  | .block blk => some blk.carried
  | .frame _ _ => none
  | .failed => some failureMarker

/-- The stream ids have 31 bits, and a frame has the payload that its header announces. -/
def InRange : Normalized → Prop
  | .block blk => blk.carried.WellFormed
  | .frame hdr payload => hdr.isHeaderFrame = false ∧ hdr.len = payload.length ∧
      payload.length ≤ maxBufferedFrame ∧ hdr.streamId < 2 ^ 31
  | .failed => True

/-- The fields of a header block. -/
def fields : Normalized → List Field
  | .block blk => blk.fields
  | .frame _ _ => []
  | .failed => []

/-- The item can be read back: it is in range, and so are the lengths of its fields. -/
structure Readable (item : Normalized) : Prop where
  inRange : item.InRange
  encodable : ∀ f ∈ item.fields, f.Encodable

/-- `item` is read as `again`: a frame as it is, a header block or a marker as a block with the same
headers of which everything is known. -/
def ReadAs (item again : Normalized) : Prop :=
  match item.block? with
  | none => again = item
  | some blk => ∃ decoded, again = .block decoded ∧ blk.SameHeaders decoded ∧
      decoded.exact = true ∧ decoded.unresolved = 0

/-- The frames are the same. -/
theorem ReadAs.frames_eq {item again : Normalized} (h : item.ReadAs again) :
    again.frames = item.frames := by
  cases item with
  | block blk =>
      obtain ⟨decoded, rfl, hsame, -⟩ := h
      rw [frames, frames, hsame.encode_block_eq, blk.encode_block_carried]
  | frame hdr payload => rw [show again = _ from h]
  | failed =>
      obtain ⟨decoded, rfl, hsame, -⟩ := h
      rw [frames, frames, hsame.encode_block_eq]

/-- The frames of a block or a marker are those of one header block. -/
theorem frames_of_block {item : Normalized} {blk : DecodedBlock} (h : item.block? = some blk) :
    item.frames = encodeBlock blk defaultMaxFrameSize := by
  cases item with
  | block blk' =>
      cases h
      rw [frames, blk'.encode_block_carried]
  | frame hdr payload => cases h
  | failed =>
      cases h
      rfl

/-- The block of an item that can be read back is well-formed and can be encoded. -/
theorem Readable.block_well_formed {item : Normalized} (h : item.Readable) {blk : DecodedBlock}
    (hblk : item.block? = some blk) : blk.WellFormed ∧ ∀ f ∈ blk.fields, f.Encodable := by
  cases item with
  | block blk' =>
      cases hblk
      refine ⟨h.inRange, ?_⟩
      unfold DecodedBlock.carried
      split <;> exact h.encodable
  | frame hdr payload => cases hblk
  | failed =>
      cases hblk
      refine ⟨⟨by decide, ?_, by decide, by decide⟩, by decide +kernel⟩
      rintro sid ⟨⟩

end Normalized

/-! ## Between two items -/

namespace Direction

variable [HuffmanDecoding]

/-- A direction of the rebuilt capture between two items: all bytes up to `next` were taken in,
nothing failed, and the dynamic table is known. `expectPreface` says that the preface is still to
come. -/
structure Paused (expectPreface : Bool) (next : Seq) (d : Direction) : Prop where
  reachable : d.Reachable
  synced : d.desynced = false
  closed : d.blockHdr = none
  pendingStartSeq : d.pendingStartSeq = none
  discard : d.discard = 0
  expectPreface : d.expectPreface = expectPreface
  available : d.reasm.available = []
  ooo : d.reasm.ooo = []
  initialized : d.reasm.initialized = true
  nextSeq : d.reasm.nextSeq = next
  keepPayloads : d.keepPayloads = true
  decodeErrors : d.decodeErrors = 0
  exact : d.dec.isExact = true
  limit : d.dec.maxSize ≤ d.dec.trackLimit
  unseeded : d.snapshotMisaligned = false ∧ d.preSnapshotSkipped = 0

/-- After the SYN. -/
theorem paused_connected (expectPreface : Bool) (isn : Seq) :
    (connected true expectPreface isn).Paused expectPreface (isn + 1) :=
  ⟨.syn isn (.started true expectPreface), rfl, rfl, rfl, rfl, rfl, rfl, rfl, rfl, rfl, rfl, rfl,
    rfl, by simp [connected, fromConnectionStart, joinedMidstream, Decoder.newExact,
      Decoder.newPartial, defaultTableSize, usizeMax], rfl, rfl⟩

/-- A table size that was announced in the other direction does not disturb it. -/
theorem Paused.apply_peer_capacity {expectPreface : Bool} {next : Seq} {d : Direction}
    (h : d.Paused expectPreface next) (n : Nat) :
    (d.applyPeerCapacity n).Paused expectPreface next := by
  have hexact : d.dec.exact = true ∧ d.dec.overLimit = false := by
    simpa [Decoder.isExact] using h.exact
  have hlimit := h.limit
  have hdec : (d.dec.applyPeerCapacity n).isExact = true ∧
      (d.dec.applyPeerCapacity n).trackLimit = d.dec.trackLimit := by
    unfold Decoder.applyPeerCapacity
    split
    · next hlt =>
        have hkept := Decoder.resize_exact_of_exact (d := { d.dec with capacityObserved := true })
          hexact.1 n
        rw [Decoder.isExact, hkept, Decoder.resize_overLimit]
        simp only [hexact.2, Bool.false_or, Decoder.resize_trackLimit, Bool.true_and, and_true,
          Bool.not_eq_true', decide_eq_false_iff_not, not_lt]
        omega
    · exact ⟨h.exact, rfl⟩
  refine { h with
    reachable := .performed (.applyPeerCapacity n) h.reachable
    exact := hdec.1
    limit := ?_ }
  show (d.dec.applyPeerCapacity n).maxSize ≤ (d.dec.applyPeerCapacity n).trackLimit
  rw [hdec.2, Decoder.apply_peer_capacity_maxSize]
  omega

theorem Paused.peer_capacities {expectPreface : Bool} {next : Seq} {d : Direction}
    (h : d.Paused expectPreface next) (sizes : List Nat) :
    (sizes.foldl applyPeerCapacity d).Paused expectPreface next := by
  induction sizes generalizing d with
  | nil => exact h
  | cons n sizes ih => exact ih (h.apply_peer_capacity n)

/-- Feeding keeps a direction reachable. -/
theorem reachable_feed_next (segments : List (Bytes × Nat)) {d : Direction} (h : d.Reachable)
    (seq : Seq) : (run feedNext (d, seq) segments).1.1.Reachable ∧
      (run feedNext (d, seq) segments).1.2 =
        seq + BitVec.ofNat 32 (segmentBytes segments).length := by
  induction segments generalizing d seq with
  | nil => exact ⟨h, by simp [segmentBytes, run]⟩
  | cons segment segments ih =>
      have hbytes : segmentBytes (segment :: segments) = segment.1 ++ segmentBytes segments := rfl
      obtain ⟨hreachable, hnext⟩ :=
        ih (h.performed (.feed seq segment.1 segment.2)) (seq + BitVec.ofNat 32 segment.1.length)
      refine ⟨hreachable, hnext.trans ?_⟩
      rw [hbytes, List.length_append, BitVec.ofNat_add, BitVec.add_assoc]

/-- Segments in order take a direction that never loses its place on, from before the first frame or
after it. -/
theorem follows_all_segments {src : Source} {before : Nat → Bytes → Direction → Prop}
    {lead bound k : Nat} {rest : Bytes} {base : Seq} {pfs : List ProcessedFrame} {d : Direction}
    (hkeeps : KeepsPlace src lead bound) (hleads : LeadsIn src before)
    (hbefore : ∀ k rest d, before k rest d → src.delivery.Holds d.reasm k)
    (hdelivery : src.delivery = .inOrder base) (segments : List (Bytes × Nat))
    (hk : k + (segmentBytes segments).length ≤ bound)
    (htotal : k + (segmentBytes segments ++ rest).length = lead + (framesWire src.frames).length)
    (h : FollowsAll src before lead k (segmentBytes segments ++ rest) pfs d) :
    FollowsAll src before lead (k + (segmentBytes segments).length) rest
      (pfs ++ (run feedNext (d, base + BitVec.ofNat 32 k) segments).2.flatten)
      (run feedNext (d, base + BitVec.ofNat 32 k) segments).1.1 := by
  induction segments generalizing k pfs d with
  | nil => simpa [segmentBytes] using h
  | cons segment segments ih =>
      have hbytes : segmentBytes (segment :: segments) = segment.1 ++ segmentBytes segments := rfl
      rw [hbytes, List.length_append] at hk
      rw [hbytes, List.append_assoc] at h htotal
      have horder : src.delivery.Holds d.reasm k := by
        rcases h with ⟨hstart, -⟩ | ⟨j, hreads, -⟩
        · exact hbefore _ _ _ hstart
        · exact hreads.order
      have hadds : src.delivery.Adds d.reasm k segment.1
          (d.reasm.push (base + BitVec.ofNat 32 k) segment.1 segment.2) := by
        rw [hdelivery] at horder ⊢
        exact adds_in_order horder segment.1 segment.2
      have hfed := follows_all_feed hkeeps hleads (by omega) htotal h hadds
      rw [List.length_append] at htotal
      have hnext := ih (by omega) (by omega) hfed
      simp only [run, feedNext, List.flatten_cons, hbytes, List.length_append, BitVec.add_assoc,
        ← BitVec.ofNat_add, ← List.append_assoc, ← Nat.add_assoc] at hnext ⊢
      exact hnext

omit [HuffmanDecoding] in
/-- The frames that a direction is about to read, from its place on. -/
def frameSource (d : Direction) (frames : List Frame) : Source :=
  ⟨{ d with expectPreface := false }, frames, .inOrder d.reasm.baseSeq⟩

omit [HuffmanDecoding] in
/-- Before the first frame, if the preface is to come. -/
def BeforeFrames (expectPreface : Bool) (src : Source) (k : Nat) (rest : Bytes) (d : Direction) :
    Prop :=
  expectPreface = true ∧ AwaitsPreface src k rest d

section

variable {expectPreface : Bool} {next : Seq} {d : Direction}

theorem Paused.next_eq (h : d.Paused expectPreface next) :
    next = d.reasm.baseSeq + BitVec.ofNat 32 d.reasm.deliveredOff :=
  h.nextSeq.symm.trans h.reachable.accounted_idle.1.nextSeq

/-- A paused direction stands in front of the bytes that come. -/
theorem Paused.starts_following (h : d.Paused expectPreface next) (frames : List Frame)
    {bytes : Bytes} (hbytes : bytes = leadBytes expectPreface ++ framesWire frames) :
    FollowsAll (frameSource d frames) (BeforeFrames expectPreface (frameSource d frames))
      (d.reasm.deliveredOff + (leadBytes expectPreface).length) d.reasm.deliveredOff bytes []
      d := by
  obtain ⟨haccounted, -⟩ := h.reachable.accounted_idle
  have horder : (Delivery.inOrder d.reasm.baseSeq).Holds d.reasm d.reasm.deliveredOff :=
    ⟨h.initialized, h.ooo, rfl, haccounted.nextSeq, haccounted.received⟩
  have hall : d.reasm.available ++ bytes = leadBytes expectPreface ++ framesWire frames := by
    rw [h.available, List.nil_append, hbytes]
  cases hexpect : expectPreface with
  | true =>
      rw [hexpect] at hall
      refine Or.inl ⟨⟨rfl, ?_, hall, ?_, horder⟩, rfl⟩
      · have hd := h.expectPreface.trans hexpect
        show d = { d with expectPreface := true }
        rw [← hd]
      · rw [h.available, preface_length]
        exact Nat.succ_pos 23
  | false =>
      rw [hexpect] at hall
      have hd := h.expectPreface.trans hexpect
      have hat : (frameSource d frames).start.atFrame = true := by
        simp [frameSource, atFrame, h.discard, h.pendingStartSeq, h.synced]
      refine Or.inr ⟨0, reads_start hat ?_ hall horder, ?_, rfl⟩
      · show d = { d with expectPreface := false }
        rw [← hd]
      · unfold Settled
        rw [if_neg (by rw [h.discard]; omega)]
        split
        · trivial
        · left
          rw [h.available]
          exact Nat.succ_pos 8

/-- It follows the bytes to their end, and is not waiting for the preface there. -/
theorem Paused.follows_to_end (h : d.Paused expectPreface next) (frames : List Frame)
    (hblocks : BlocksHold false frames) {segments : List (Bytes × Nat)}
    (hsegments : segmentBytes segments = leadBytes expectPreface ++ framesWire frames) :
    let result := run feedNext (d, next) segments
    let place := d.reasm.deliveredOff + (segmentBytes segments).length
    FollowsAll (frameSource d frames) (BeforeFrames expectPreface (frameSource d frames))
        (d.reasm.deliveredOff + (leadBytes expectPreface).length) place [] result.2.flatten
        result.1.1 ∧
      ¬ BeforeFrames expectPreface (frameSource d frames) place [] result.1.1 := by
  intro result place
  have hat : (frameSource d frames).start.atFrame = true := by
    simp [frameSource, atFrame, h.discard, h.pendingStartSeq, h.synced]
  have hplace : (frameSource d frames).start.InPlace false :=
    ⟨fun hopen => Bool.noConfusion hopen, h.synced⟩
  have hkeeps : KeepsPlace (frameSource d frames)
      (d.reasm.deliveredOff + (leadBytes expectPreface).length)
      (d.reasm.deliveredOff + (leadBytes expectPreface).length + (framesWire frames).length) :=
    fun j _ _ => hplace.absorbed (hblocks.take j)
  have hleads : LeadsIn (frameSource d frames)
      (BeforeFrames expectPreface (frameSource d frames)) := fun hstart hadds =>
    (awaits_preface_leads hat hstart.2 hadds).imp_left fun hwaits => ⟨hwaits.1, hstart.1, hwaits.2⟩
  have hlength := congrArg List.length hsegments
  rw [List.length_append] at hlength
  have hrun := follows_all_segments hkeeps hleads (fun _ _ _ hstart => hstart.2.order) rfl segments
    (by omega) (by
      rw [List.append_nil, hsegments, List.length_append]
      show _ = _ + (framesWire frames).length
      omega) (h.starts_following frames ((List.append_nil _).trans hsegments))
  rw [← h.next_eq, List.nil_append] at hrun
  refine ⟨hrun, ?_⟩
  -- the bytes hold the whole preface, and a direction that waits has less
  rintro ⟨-, hwaits⟩
  have hall := congrArg List.length hwaits.bytes
  have hshort := hwaits.short
  rw [List.append_nil, List.length_append] at hall
  have hframes : (frameSource d frames).frames = frames := rfl
  have hlead : (leadBytes expectPreface).length ≤ preface.length := by
    cases expectPreface
    · exact Nat.zero_le _
    · exact le_refl _
  rw [hframes] at hall
  omega

end

/-- At the end of the frames nothing is left, if the payloads of all of them are buffered. -/
theorem nothing_left {src : Source} {k j : Nat} {d : Direction}
    (h : Reads src k [] j d) (hsettled : Settled src j d)
    (hwant : ∀ f ∈ src.frames, src.start.wantPayload f.hdr = true) :
    d.discard = 0 ∧ d.reasm.available = [] := by
  have hdiscard : d.discard = 0 := by
    by_contra hne
    obtain ⟨i, f, -, hf, hunwanted, -⟩ := h.dropping (Nat.pos_of_ne_zero hne)
    rw [hwant f (List.mem_of_getElem? hf)] at hunwanted
    cases hunwanted
  refine ⟨hdiscard, ?_⟩
  obtain ⟨i, hfull, hcase⟩ := reads_in_full h hsettled
  have hi : src.frames.length ≤ i := (hfull.2 src.frames.length (le_refl _)).mp (Nat.zero_le _)
  have hj : src.frames.length ≤ j := by
    rcases hcase with ⟨-, rfl⟩ | ⟨rfl, -⟩ <;> omega
  obtain ⟨tail, htail, hleft⟩ := h.bytes
  rw [List.length_eq_zero_iff.mp (htail.trans hdiscard), List.append_nil, List.nil_append,
    List.drop_eq_nil_of_le hj] at hleft
  exact hleft

/-- What a paused direction makes of the preface, if it is to come, and of frames that it takes in
whole: it returns the frames, and pauses again if they leave no block open and do not touch the
decoder. -/
theorem Paused.feed {expectPreface : Bool} {next : Seq} {d : Direction}
    (h : d.Paused expectPreface next) (frames : List Frame) (hblocks : BlocksHold false frames)
    (hwant : ∀ f ∈ frames, d.wantPayload f.hdr = true) {segments : List (Bytes × Nat)}
    (hsegments : segmentBytes segments = leadBytes expectPreface ++ framesWire frames) :
    let start : Direction := { d with expectPreface := false }
    let result := run feedNext (d, next) segments
    (∃ base off, result.2.flatten = returnedAll base off start frames) ∧
      ((start.absorbed frames).blockHdr = none → (start.absorbed frames).decodeErrors = 0 →
        (start.absorbed frames).dec = d.dec →
          result.1.1.Paused false (next + BitVec.ofNat 32 (segmentBytes segments).length)) := by
  intro start result
  obtain ⟨hrun, hover⟩ := h.follows_to_end frames hblocks hsegments
  obtain ⟨hpfs, n, hfinal⟩ := follows_all_end hrun hover
  refine ⟨⟨_, _, hpfs⟩, fun hclosed herrors hdec => ?_⟩
  obtain ⟨j, hreads, hsettled, -⟩ := hrun.resolve_left fun hwaits => hover hwaits.1
  obtain ⟨hdiscard, hempty⟩ := nothing_left hreads hsettled hwant
  have horder : result.1.1.reasm.InOrder d.reasm.baseSeq
      (d.reasm.deliveredOff + (segmentBytes segments).length) := hreads.order
  have hsame := same_position_absorbed start frames
  have hplace : start.InPlace false := ⟨fun hopen => Bool.noConfusion hopen, h.synced⟩
  have hfields : result.1.1.dec = d.dec ∧ result.1.1.desynced = false ∧
      result.1.1.blockHdr = none ∧ result.1.1.pendingStartSeq = none ∧
      result.1.1.expectPreface = false ∧ result.1.1.keepPayloads = true ∧
      result.1.1.decodeErrors = 0 ∧ result.1.1.snapshotMisaligned = false ∧
      result.1.1.preSnapshotSkipped = 0 := by
    rw [hfinal]
    exact ⟨hdec, hplace.absorbed hblocks, hclosed, hsame.pendingStartSeq.trans h.pendingStartSeq,
      hsame.expectPreface, h.keepPayloads, herrors,
      hsame.snapshotMisaligned.trans h.unseeded.1, hsame.preSnapshotSkipped.trans h.unseeded.2⟩
  obtain ⟨hdec', hsynced, hclosed', hpending, hpreface, hkeep, herrors', hmisaligned, hskipped⟩ :=
    hfields
  refine ⟨(reachable_feed_next segments h.reachable next).1, hsynced, hclosed', hpending, hdiscard,
    hpreface, hempty, horder.ooo, horder.initialized, ?_, hkeep, herrors', ?_, ?_, hmisaligned,
    hskipped⟩
  · rw [horder.nextSeq, BitVec.ofNat_add, ← BitVec.add_assoc, ← h.next_eq]
  · rw [hdec']
    exact h.exact
  · rw [hdec']
    exact h.limit

/-- The preface returns nothing. -/
theorem Paused.feed_preface {next : Seq} {d : Direction} (h : d.Paused true next)
    {segments : List (Bytes × Nat)} (hsegments : segmentBytes segments = preface) :
    (run feedNext (d, next) segments).2.flatten = [] ∧
      (run feedNext (d, next) segments).1.1.Paused false
        (next + BitVec.ofNat 32 (segmentBytes segments).length) := by
  obtain ⟨⟨base, off, hpfs⟩, hpaused⟩ := h.feed [] trivial (by simp)
    (hsegments.trans (List.append_nil _).symm)
  exact ⟨hpfs, hpaused h.closed h.decodeErrors rfl⟩

/-! ## What is returned of an item -/

/-- Header frames are returned as header frames, and written as the blocks that they end. -/
theorem normalize_header_frames (base : Seq) (off : Nat) (d : Direction) {frames : List Frame}
    (h : ∀ f ∈ frames, IsHeaderFrame f) :
    (returnedAll base off d frames).filterMap normalize =
      (blocksOf (d.absorbOutput frames)).map .block := by
  have hheader : ∀ (off : Nat) (d : Direction), ∀ pf ∈ returnedAll base off d frames,
      pf.isHeaderFrame = true := by
    induction frames with
    | nil => intro off d pf hpf; cases hpf
    | cons f frames ih =>
        rw [List.forall_mem_cons] at h
        intro off d pf hpf
        rcases List.mem_cons.mp hpf with rfl | hpf
        · unfold returned
          split
          · rw [handle_header_frame d h.1.isHeader]
            split <;> rfl
          · exact h.1.isHeader
        · exact ih h.2 _ _ pf hpf
  have hnormalize : ∀ pf ∈ returnedAll base off d frames,
      normalize pf = pf.decoded.map .block := by
    intro pf hpf
    simp only [normalize, (returned_all_header_frames base off d h).2 pf hpf, hheader off d pf hpf,
      Bool.false_eq_true, if_false, if_true]
  rw [List.filterMap_congr hnormalize, ← List.map_filterMap, ← returned_all_outputs base off d,
    blocks_of_frame_outputs]
  rfl

/-- Finishing an encoded block keeps the decoder, counts no failure and closes the block. What it
returns is exact if the table is known. -/
theorem finish_encoded {d : Direction} {blk : DecodedBlock}
    (hfields : ∀ f ∈ blk.fields, f.Encodable) {hdr : FrameHeader} (hhdr : blk.Heads hdr)
    (hexact : d.dec.isExact = true) :
    ∃ decoded, (d.holding blk hdr).finishBlock.2 = some decoded ∧ blk.SameHeaders decoded ∧
      decoded.exact = true ∧ decoded.unresolved = 0 ∧
      (d.holding blk hdr).finishBlock.1.blockHdr = none ∧
      (d.holding blk hdr).finishBlock.1.decodeErrors = d.decodeErrors ∧
      (d.holding blk hdr).finishBlock.1.dec = d.dec := by
  have hdecode : (d.holding blk hdr).dec.decode (d.holding blk hdr).block =
      (d.dec, .ok (blk.fields.map Field.resolved)) := d.dec.decode_encoded_fields hfields
  obtain ⟨-, decoded, hdecoded, hsame⟩ := finish_encoded_block d hfields hhdr
  rcases hfinish : (d.holding blk hdr).finishBlock with ⟨d', returned⟩
  rw [hfinish] at hdecoded
  rcases finish_block_cases rfl hfinish with ⟨dec, e, herror, -⟩ | ⟨dec, fields, hok, rfl, rfl⟩
  · rw [hdecode] at herror
    cases herror
  · rw [hdecode] at hok
    cases hok
    cases hdecoded
    refine ⟨_, rfl, hsame, ?_, ?_, rfl, rfl, rfl⟩
    · simp [holding, hexact]
    · simp [holding]

/-- What a paused direction returns of a header block and a frame: one item, and no frame of it
truncated. Then it pauses again. -/
structure ReturnsItem (again : Normalized) (next : Seq) (segments : List (Bytes × Nat))
    (result : (Direction × Seq) × List (List ProcessedFrame)) : Prop where
  item : result.2.flatten.filterMap normalize = [again]
  whole : ∀ pf ∈ result.2.flatten, pf.truncated = false
  paused : result.1.1.Paused false (next + BitVec.ofNat 32 (segmentBytes segments).length)

/-- Whether the preface was there does not matter once it was read. -/
theorem Paused.after_preface {next : Seq} {d : Direction} (h : d.Paused false next) :
    ({ d with expectPreface := false } : Direction) = d := by
  have hd := h.expectPreface
  rw [← hd]

/-- An encoded header block. -/
theorem Paused.feed_block {next : Seq} {d : Direction} (h : d.Paused false next)
    {blk : DecodedBlock} (hblk : blk.WellFormed) (hfields : ∀ f ∈ blk.fields, f.Encodable)
    {segments : List (Bytes × Nat)}
    (hsegments : segmentBytes segments = (encodeBlock blk defaultMaxFrameSize).flatten) :
    ∃ decoded, blk.SameHeaders decoded ∧ decoded.exact = true ∧ decoded.unresolved = 0 ∧
      ReturnsItem (.block decoded) next segments (run feedNext (d, next) segments) := by
  have hmin : 4 ≤ defaultMaxFrameSize := by decide
  have hmax : defaultMaxFrameSize ≤ maxBufferedFrame := by decide
  obtain ⟨frames, hdr, hwire, hframes, hblocks, hheads, hstate, hout⟩ :=
    absorbed_encode_block h.reachable.accounted_idle.2 h.closed hblk hmin hmax
  have hbytes : segmentBytes segments = leadBytes false ++ framesWire frames := by
    rw [hsegments, ← hwire, framesWire, List.flatMap_def]
    rfl
  obtain ⟨⟨base, off, hpfs⟩, hpaused⟩ := h.feed frames hblocks
    (fun f hf => want_header_frame d (hframes f hf).isHeader (hframes f hf).len_le) hbytes
  obtain ⟨decoded, hdecoded, hsame, hexact, hunresolved, hclosed, herrors, hdec⟩ :=
    finish_encoded (d := d) hfields hheads h.exact
  rw [h.after_preface] at hpfs hpaused
  rw [hstate] at hpaused
  refine ⟨decoded, hsame, hexact, hunresolved, ?_, ?_,
    hpaused hclosed (herrors.trans h.decodeErrors) hdec⟩
  · have hblocksOf : blocksOf (d.absorbOutput frames) = [decoded] := by
      rw [hout, hdecoded, blocks_of_append, (nothing_returned _ fun out hmem =>
        List.eq_of_mem_replicate hmem).1]
      rfl
    rw [hpfs, normalize_header_frames base off d hframes, hblocksOf]
    rfl
  · rw [hpfs]
    exact (returned_all_header_frames base off d hframes).2

/-- A frame without a header block is written as it is. -/
theorem normalize_other_frame (d : Direction) {hdr : FrameHeader}
    (hheader : hdr.isHeaderFrame = false) (payload : Bytes) (startOff : Nat) (startSeq : Seq) :
    (d.handleFrame hdr payload startOff startSeq).2.truncated = false ∧
      normalize (d.handleFrame hdr payload startOff startSeq).2 = some (.frame hdr payload) := by
  simp only [FrameHeader.isHeaderFrame, Bool.or_eq_false_iff, beq_eq_false_iff_ne] at hheader
  obtain ⟨⟨hheaders, hcontinuation⟩, hpush⟩ := hheader
  by_cases hsettings : hdr.typ = FrameType.settings <;>
    simp [handleFrame, normalize, hsettings, hheaders, hcontinuation, hpush]

/-- Any other frame. -/
theorem Paused.feed_frame {next : Seq} {d : Direction} (h : d.Paused false next)
    {hdr : FrameHeader} {payload : Bytes} (hframe : (Normalized.frame hdr payload).InRange)
    {segments : List (Bytes × Nat)}
    (hsegments : segmentBytes segments = buildFrame hdr.typ hdr.flags hdr.streamId payload) :
    ReturnsItem (.frame hdr payload) next segments (run feedNext (d, next) segments) := by
  obtain ⟨hother, hlen, hmax, hsid⟩ := hframe
  let f : Frame := .built hdr.typ hdr.flags hmax hsid
  have hhdr : f.hdr = hdr := by
    show (⟨payload.length, hdr.typ, hdr.flags, hdr.streamId⟩ : FrameHeader) = hdr
    rw [← hlen]
  have hheader : f.hdr.isHeaderFrame = false := by
    rw [hhdr]
    exact hother
  have hwant : d.wantPayload f.hdr = true := by
    simp [wantPayload, h.keepPayloads, hhdr, hlen, hmax]
  have hbytes : segmentBytes segments = leadBytes false ++ framesWire [f] := by
    rw [hsegments, frames_wire_cons, frames_wire_nil, List.append_nil]
    rfl
  have habsorbed : d.absorbed [f] = d := by
    rw [absorbed_singleton, (absorb_without_block d (Or.inl hheader)).1]
  obtain ⟨⟨base, off, hpfs⟩, hpaused⟩ := h.feed [f]
    (by simp [BlocksHold, hheader]) (by simpa using hwant) hbytes
  rw [h.after_preface] at hpfs hpaused
  rw [habsorbed] at hpaused
  have hreturned : returnedAll base off d [f] =
      [(d.handleFrame hdr payload off (base + BitVec.ofNat 32 off)).2] := by
    rw [returnedAll, returnedAll, returned, if_pos hwant, hhdr]
    rfl
  obtain ⟨hwhole, hitem⟩ :=
    normalize_other_frame d hother payload off (base + BitVec.ofNat 32 off)
  rw [hreturned] at hpfs
  refine ⟨?_, ?_, hpaused h.closed h.decodeErrors rfl⟩
  · rw [hpfs, List.filterMap_cons_some hitem]
    rfl
  · rw [hpfs]
    simpa using hwhole

/-- A direction between two items that is fed the frames of the next one, cut anywhere, returns the
item and is between two items again. -/
theorem Paused.feed_item {next : Seq} {d : Direction} (h : d.Paused false next) {item : Normalized}
    (hitem : item.Readable) {segments : List (Bytes × Nat)}
    (hsegments : segmentBytes segments = item.frames.flatten) :
    ∃ again, item.ReadAs again ∧
      ReturnsItem again next segments (run feedNext (d, next) segments) := by
  cases hblk : item.block? with
  | some blk =>
      obtain ⟨hwell, hfields⟩ := hitem.block_well_formed hblk
      rw [Normalized.frames_of_block hblk] at hsegments
      obtain ⟨decoded, hsame, hexact, hunresolved, hreturns⟩ := h.feed_block hwell hfields hsegments
      refine ⟨.block decoded, ?_, hreturns⟩
      unfold Normalized.ReadAs
      rw [hblk]
      exact ⟨decoded, rfl, hsame, hexact, hunresolved⟩
  | none =>
      cases item with
      | block blk => cases hblk
      | failed => cases hblk
      | frame hdr payload =>
          refine ⟨.frame hdr payload, rfl, h.feed_frame hitem.inRange ?_⟩
          rw [hsegments, Normalized.frames, List.flatten_cons, List.flatten_nil, List.append_nil]

end Direction

end H2Tap
