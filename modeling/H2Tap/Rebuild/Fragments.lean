import H2Tap.Conn.CompleteFrames
import H2Tap.Conn.Reachable
import H2Tap.Rebuild.Literal

/-!
# The frames of a re-encoded header block

`encode_block` cuts a header block into HEADERS or PUSH_PROMISE and CONTINUATION frames. `Encoded`
describes them, `absorbed_encode_block` says that a direction with no open block collects them and
finishes the block on the last one, and `finish_encoded_block` that this reads the block back.
-/

namespace H2Tap

open Lib

/-! ## The frames of an encoded block -/

/-- A frame as `build_frame` writes it. -/
def Frame.built (typ flags : UInt8) {streamId : Nat} {payload : Bytes}
    (hlen : payload.length ≤ maxBufferedFrame) (hsid : streamId < 2 ^ 31) : Frame where
  head := FrameHeader.write ⟨payload.length, typ, flags, streamId⟩
  hdr := ⟨payload.length, typ, flags, streamId⟩
  payload := payload
  head_length := FrameHeader.write_length _
  parse_eq := by
    have hlen24 : payload.length < 2 ^ 24 := by
      unfold maxBufferedFrame at hlen
      omega
    simpa using FrameHeader.parse_write (h := ⟨payload.length, typ, flags, streamId⟩) hlen24 hsid []
  payload_length := rfl

/-- A frame with this type, flags and stream, written by `build_frame`, that can be buffered. -/
structure IsFrame (typ flags : UInt8) (streamId : Nat) (f : Frame) : Prop where
  head : f.head = f.hdr.write
  typ : f.hdr.typ = typ
  flags : f.hdr.flags = flags
  streamId : f.hdr.streamId = streamId
  len_le : f.hdr.len ≤ maxBufferedFrame

/-- A frame of a header block, written by `build_frame`, that can be buffered. -/
structure IsHeaderFrame (f : Frame) : Prop where
  head : f.head = f.hdr.write
  isHeader : f.hdr.isHeaderFrame = true
  len_le : f.hdr.len ≤ maxBufferedFrame

/-- CONTINUATION frames that carry `rest` between them. Only the last one ends the block. -/
inductive Continues (streamId : Nat) : Bytes → List Frame → Prop where
  | last {f : Frame} : IsFrame FrameType.continuation Flags.endHeaders streamId f →
      Continues streamId f.payload [f]
  | cons {f : Frame} {rest : Bytes} {frames : List Frame} :
      IsFrame FrameType.continuation 0 streamId f → Continues streamId rest frames →
      Continues streamId (f.payload ++ rest) (f :: frames)

/-- A first frame with `chunk` as the end of its payload, and CONTINUATION frames with what is left
of the block. -/
structure Encoded (typ baseFlags : UInt8) (streamId : Nat) (body : Bytes) (f : Frame)
    (frames : List Frame) : Prop where
  first : (IsFrame typ (baseFlags ||| Flags.endHeaders) streamId f ∧ frames = [] ∧
      f.payload = body) ∨
    IsFrame typ baseFlags streamId f ∧ ∃ rest, Continues streamId rest frames ∧
      f.payload ++ rest = body

section

variable {streamId maxFrame : Nat}

theorem built_is_frame (typ flags : UInt8) {payload : Bytes}
    (hlen : payload.length ≤ maxBufferedFrame) (hsid : streamId < 2 ^ 31) :
    IsFrame typ flags streamId (.built typ flags hlen hsid) := ⟨rfl, rfl, rfl, rfl, hlen⟩

theorem chunk_length_le (hmax : maxFrame ≤ maxBufferedFrame) (rest : Bytes) :
    (rest.take (min rest.length (max maxFrame 1))).length ≤ maxBufferedFrame := by
  have hone : 1 ≤ maxBufferedFrame := by decide
  rw [List.length_take]
  omega

/-- One turn of the loop of `encode_block`. -/
theorem encode_chunks_eq (streamId maxFrame : Nat) (typ baseFlags : UInt8) (first : Bool)
    (rest : Bytes) :
    let n := min rest.length (max maxFrame 1)
    let frameTyp := if first then typ else FrameType.continuation
    let frameFlags := if first then baseFlags else 0
    encodeChunks streamId typ baseFlags maxFrame first rest =
      if rest.drop n = [] then [buildFrame frameTyp (frameFlags ||| Flags.endHeaders) streamId rest]
      else buildFrame frameTyp frameFlags streamId (rest.take n) ::
        encodeChunks streamId typ baseFlags maxFrame false (rest.drop n) := by
  intro n frameTyp frameFlags
  rw [encodeChunks]
  by_cases hlast : rest.drop n = []
  · have hwhole := List.take_of_length_le (List.drop_eq_nil_iff.mp hlast)
    have hlast' := List.isEmpty_iff.mpr hlast
    rw [if_pos hlast]
    simp only [n] at hlast' hwhole
    simp only [hlast', hwhole, dif_pos, if_true]
    rfl
  · have hmore : (rest.drop n).isEmpty = false := by
      rw [← Bool.not_eq_true, List.isEmpty_iff]
      exact hlast
    rw [if_neg hlast]
    simp only [n] at hmore
    simp only [hmore, Bool.false_eq_true, dif_neg, not_false_iff, if_false, UInt8.or_zero]
    rfl

/-- The CONTINUATION frames after the first frame. -/
theorem continues_chunks (typ baseFlags : UInt8) (hmax : maxFrame ≤ maxBufferedFrame)
    (hsid : streamId < 2 ^ 31) (rest : Bytes) :
    ∃ frames, frames.map Frame.wire = encodeChunks streamId typ baseFlags maxFrame false rest ∧
      Continues streamId rest frames := by
  induction hlength : rest.length using Nat.strongRecOn generalizing rest with
  | ind n ih =>
      subst hlength
      have hchunk := chunk_length_le hmax rest
      have hturn := encode_chunks_eq streamId maxFrame typ baseFlags false rest
      simp only [Bool.false_eq_true, if_false, UInt8.zero_or] at hturn
      rw [hturn]
      set n := min rest.length (max maxFrame 1) with hn
      split
      · next hlast =>
          rw [List.take_of_length_le (List.drop_eq_nil_iff.mp hlast)] at hchunk
          exact ⟨[.built FrameType.continuation Flags.endHeaders hchunk hsid], rfl,
            .last (built_is_frame _ _ hchunk hsid)⟩
      · next hmore =>
          have hpos := List.length_pos_iff.mpr hmore
          obtain ⟨frames, hwire, hcontinues⟩ := ih (rest.drop n).length (by
            rw [List.length_drop] at hpos ⊢
            omega) _ rfl
          refine ⟨.built FrameType.continuation 0 hchunk hsid :: frames, ?_, ?_⟩
          · rw [List.map_cons, hwire]
            rfl
          · have hcons := Continues.cons (built_is_frame FrameType.continuation 0 hchunk hsid)
              hcontinues
            rwa [show (Frame.built FrameType.continuation 0 hchunk hsid).payload = rest.take n from
              rfl, List.take_append_drop] at hcons

/-- The frames of a block. -/
theorem encoded_chunks (typ baseFlags : UInt8) (hmax : maxFrame ≤ maxBufferedFrame)
    (hsid : streamId < 2 ^ 31) (body : Bytes) :
    ∃ f frames, (f :: frames).map Frame.wire =
        encodeChunks streamId typ baseFlags maxFrame true body ∧
      Encoded typ baseFlags streamId body f frames ∧
      min maxFrame body.length ≤ f.payload.length := by
  have hchunk := chunk_length_le hmax body
  have hturn := encode_chunks_eq streamId maxFrame typ baseFlags true body
  simp only [if_true] at hturn
  rw [hturn]
  set n := min body.length (max maxFrame 1) with hn
  split
  · next hlast =>
      rw [List.take_of_length_le (List.drop_eq_nil_iff.mp hlast)] at hchunk
      exact ⟨.built typ (baseFlags ||| Flags.endHeaders) hchunk hsid, [], rfl,
        ⟨Or.inl ⟨built_is_frame _ _ hchunk hsid, rfl, rfl⟩⟩, min_le_right _ _⟩
  · next hmore =>
      obtain ⟨frames, hwire, hcontinues⟩ := continues_chunks typ baseFlags hmax hsid (body.drop n)
      refine ⟨.built typ baseFlags hchunk hsid, frames, ?_,
        ⟨Or.inr ⟨built_is_frame _ _ hchunk hsid, _, hcontinues, List.take_append_drop n body⟩⟩, ?_⟩
      · rw [List.map_cons, hwire]
        rfl
      · show _ ≤ (body.take n).length
        rw [List.length_take]
        omega

/-- A frame that continues a block does not break it. -/
theorem continuation_holds {flags : UInt8} {f : Frame} {frames : List Frame}
    (hframe : IsFrame FrameType.continuation flags streamId f)
    (hrest : BlocksHold (!f.hdr.has Flags.endHeaders) frames) : BlocksHold true (f :: frames) := by
  unfold BlocksHold
  rw [if_pos ⟨Direction.continuation_is_header hframe.typ, hframe.len_le⟩]
  refine ⟨fun _ => rfl, ?_, hrest⟩
  rw [Frame.fragment, if_pos hframe.typ]
  rfl

theorem Continues.blocks_hold {rest : Bytes} {frames : List Frame}
    (h : Continues streamId rest frames) : BlocksHold true frames := by
  induction h with
  | last hframe => exact continuation_holds hframe trivial
  | cons hframe _ ih =>
      refine continuation_holds hframe ?_
      rw [FrameHeader.has, hframe.flags]
      exact ih

theorem Continues.header_frames {rest : Bytes} {frames : List Frame}
    (h : Continues streamId rest frames) : ∀ f ∈ frames, IsHeaderFrame f := by
  induction h with
  | last hframe =>
      rw [List.forall_mem_singleton]
      exact ⟨hframe.head, Direction.continuation_is_header hframe.typ, hframe.len_le⟩
  | cons hframe _ ih =>
      rw [List.forall_mem_cons]
      exact ⟨⟨hframe.head, Direction.continuation_is_header hframe.typ, hframe.len_le⟩, ih⟩

theorem Encoded.header_frames {typ baseFlags : UInt8} {body : Bytes} {f : Frame}
    {frames : List Frame} (h : Encoded typ baseFlags streamId body f frames)
    (hheader : f.hdr.isHeaderFrame = true) : ∀ g ∈ f :: frames, IsHeaderFrame g := by
  rw [List.forall_mem_cons]
  rcases h.first with ⟨hframe, rfl, -⟩ | ⟨hframe, rest, hcontinues, -⟩
  · exact ⟨⟨hframe.head, hheader, hframe.len_le⟩, by simp⟩
  · exact ⟨⟨hframe.head, hheader, hframe.len_le⟩, hcontinues.header_frames⟩

/-- The header of the first frame. -/
theorem Encoded.first_header {typ baseFlags : UInt8} {body : Bytes} {f : Frame}
    {frames : List Frame} (h : Encoded typ baseFlags streamId body f frames)
    (hbase : baseFlags = 0 ∨ baseFlags = Flags.endStream) :
    f.hdr.typ = typ ∧ f.hdr.streamId = streamId ∧ f.hdr.has Flags.padded = false ∧
      f.hdr.has Flags.priority = false ∧
      f.hdr.has Flags.endStream = (baseFlags == Flags.endStream) ∧
      f.hdr.has Flags.endHeaders = frames.isEmpty := by
  rcases h.first with ⟨hframe, rfl, -⟩ | ⟨hframe, rest, hcontinues, -⟩
  · simp only [FrameHeader.has, hframe.typ, hframe.flags, hframe.streamId, true_and]
    rcases hbase with rfl | rfl <;> decide
  · have hsome : frames.isEmpty = false := by cases hcontinues <;> rfl
    simp only [FrameHeader.has, hframe.typ, hframe.flags, hframe.streamId, true_and, hsome]
    rcases hbase with rfl | rfl <;> decide

/-- The frames of an encoded block keep a direction in its place. -/
theorem Encoded.blocks_hold {typ baseFlags : UInt8} {body : Bytes} {f : Frame}
    {frames : List Frame} (h : Encoded typ baseFlags streamId body f frames)
    (hheader : f.hdr.isHeaderFrame = true) (hbegins : f.hdr.typ ≠ FrameType.continuation)
    (hbase : baseFlags = 0 ∨ baseFlags = Flags.endStream)
    (hfragment : f.fragment.isSome = true) : BlocksHold false (f :: frames) := by
  have hlen := (h.header_frames hheader f List.mem_cons_self).len_le
  obtain ⟨-, -, -, -, -, hend⟩ := h.first_header hbase
  unfold BlocksHold
  rw [if_pos ⟨hheader, hlen⟩, hend]
  refine ⟨fun hcontinues => absurd hcontinues hbegins, hfragment, ?_⟩
  rcases h.first with ⟨-, rfl, -⟩ | ⟨-, rest, hcontinues, -⟩
  · trivial
  · have hsome : frames.isEmpty = false := by cases hcontinues <;> rfl
    rw [hsome]
    exact hcontinues.blocks_hold

end

/-! ## Header blocks that can be encoded -/

namespace DecodedBlock

/-- A header block with stream ids of 31 bits. Only a promise has a promised stream, and it does not
end its stream. -/
structure WellFormed (blk : DecodedBlock) : Prop where
  streamId : blk.streamId < 2 ^ 31
  promised : ∀ sid, blk.promisedStreamId = some sid → sid < 2 ^ 31
  kind : blk.kind = .pushPromise ↔ blk.promisedStreamId.isSome = true
  endStream : blk.kind = .pushPromise → blk.endStream = false

/-- What stands ahead of the header list. -/
def promise (blk : DecodedBlock) : Bytes :=
  match blk.promisedStreamId with
  | some sid => toBeBytes 4 sid
  | none => []

/-- The type of the first frame. -/
def frameType (blk : DecodedBlock) : UInt8 :=
  if blk.kind = .pushPromise then FrameType.pushPromise else FrameType.headers

/-- The flags of the first frame, but for END_HEADERS. -/
def frameFlags (blk : DecodedBlock) : UInt8 := if blk.endStream then Flags.endStream else 0

/-- What is kept of a block that was encoded and decoded. -/
structure SameHeaders (blk decoded : DecodedBlock) : Prop where
  streamId : decoded.streamId = blk.streamId
  fields : decoded.fields = blk.fields.map Field.resolved
  endStream : decoded.endStream = blk.endStream
  promisedStreamId : decoded.promisedStreamId = blk.promisedStreamId
  kind : decoded.kind = .pushPromise ↔ blk.kind = .pushPromise

/-- The header of the first frame of an encoded block. -/
structure Heads (blk : DecodedBlock) (hdr : FrameHeader) : Prop where
  streamId : hdr.streamId = blk.streamId
  endStream : hdr.has Flags.endStream = blk.endStream
  kind : hdr.typ = FrameType.pushPromise ↔ blk.kind = .pushPromise

variable {blk : DecodedBlock}

theorem WellFormed.encode_block_eq (h : blk.WellFormed) (maxFrame : Nat) :
    encodeBlock blk maxFrame = encodeChunks blk.streamId blk.frameType blk.frameFlags maxFrame true
      (blk.promise ++ encodeLiteral blk.fields) := by
  by_cases hpush : blk.kind = .pushPromise
  · obtain ⟨sid, hsid⟩ := Option.isSome_iff_exists.mp (h.kind.mp hpush)
    simp only [encodeBlock, frameType, frameFlags, promise, hpush, hsid, h.endStream hpush, if_true,
      Nat.mod_eq_of_lt (h.promised sid hsid), Bool.false_and, Bool.false_eq_true, if_false]
  · have hnone : blk.promisedStreamId = none := by
      rw [← Option.not_isSome_iff_eq_none, ← h.kind]
      exact hpush
    have htype : (FrameType.headers == FrameType.headers) = true := by decide
    simp only [encodeBlock, frameType, frameFlags, promise, hpush, hnone, if_false, htype,
      Bool.and_true]

theorem promise_length_le (blk : DecodedBlock) : blk.promise.length ≤ 4 := by
  unfold promise
  split
  · rw [to_be_bytes_length]
  · exact Nat.zero_le _

theorem frame_flags_cases (blk : DecodedBlock) :
    blk.frameFlags = 0 ∨ blk.frameFlags = Flags.endStream := by
  unfold frameFlags
  split
  · exact Or.inr rfl
  · exact Or.inl rfl

end DecodedBlock

/-! ## What a direction makes of them -/

namespace Direction

section

variable [HuffmanDecoding]

/-- A CONTINUATION frame of the open block. -/
theorem absorb_continuation {d : Direction} (hopen : d.blockHdr.isSome = true) {flags : UInt8}
    {streamId : Nat} {f : Frame} (hframe : IsFrame FrameType.continuation flags streamId f) :
    let opened := { d with block := d.block ++ f.payload }
    d.absorb f = ((opened.finishIfEnd f.hdr).1, ((opened.finishIfEnd f.hdr).2, none)) := by
  refine absorb_fragment (continuation_is_header hframe.typ) hframe.len_le ?_
  have hsome : d.blockHdr.isNone = false := by
    rw [← Option.not_isSome, hopen]
    rfl
  simp only [addFragment, hframe.typ, if_true, hsome, Bool.false_eq_true, if_false]

/-- The CONTINUATION frames of the open block: the last one finishes it. -/
theorem absorbed_continues {streamId : Nat} {rest : Bytes} {frames : List Frame}
    (h : Continues streamId rest frames) {d : Direction} (hopen : d.blockHdr.isSome = true) :
    let finished := { d with block := d.block ++ rest }.finishBlock
    d.absorbed frames = finished.1 ∧
      d.absorbOutput frames = List.replicate (frames.length - 1) (none, none) ++
        [(finished.2, none)] := by
  induction h generalizing d with
  | @last f hframe =>
      have hend : f.hdr.has Flags.endHeaders = true := by
        rw [FrameHeader.has, hframe.flags]
        decide
      have habsorb := absorb_continuation hopen hframe
      simp only [finishIfEnd, hend, if_true] at habsorb
      refine ⟨?_, ?_⟩
      · rw [absorbed_singleton, habsorb]
      · simp only [absorbOutput, run, habsorb]
        rfl
  | @cons f rest frames hframe hcontinues ih =>
      have hend : f.hdr.has Flags.endHeaders = false := by
        rw [FrameHeader.has, hframe.flags]
        decide
      have habsorb := absorb_continuation hopen hframe
      simp only [finishIfEnd, hend, Bool.false_eq_true, if_false] at habsorb
      obtain ⟨hstate, hout⟩ := ih (d := { d with block := d.block ++ f.payload }) hopen
      have hpos : 0 < frames.length := by cases hcontinues <;> exact Nat.succ_pos _
      simp only [List.append_assoc] at hstate hout
      refine ⟨?_, ?_⟩
      · rw [absorbed, run_cons_fst, habsorb]
        exact hstate
      · have hfirst : d.absorbOutput (f :: frames) =
            (none, none) :: ({ d with block := d.block ++ f.payload } : Direction).absorbOutput
              frames := by
          simp only [absorbOutput, run, habsorb]
        rw [hfirst, hout, ← List.cons_append, ← List.replicate_succ, List.length_cons,
          Nat.sub_add_cancel hpos, Nat.add_sub_cancel]

/-- What a direction makes of an encoded block whose first frame it can add. -/
theorem absorbed_encoded {typ baseFlags : UInt8} {streamId : Nat} {body : Bytes} {f : Frame}
    {frames : List Frame} (h : Encoded typ baseFlags streamId body f frames)
    (hheader : f.hdr.isHeaderFrame = true)
    (hbase : baseFlags = 0 ∨ baseFlags = Flags.endStream) {d opened : Direction}
    (hadd : d.addFragment f.hdr f.payload = some opened) {rest : Bytes}
    (hrest : f.payload ++ rest = body) :
    let finished := { opened with block := opened.block ++ rest }.finishBlock
    d.absorbed (f :: frames) = finished.1 ∧
      d.absorbOutput (f :: frames) = List.replicate frames.length (none, none) ++
        [(finished.2, none)] := by
  obtain ⟨-, -, -, -, -, hend⟩ := h.first_header hbase
  have habsorb := absorb_fragment hheader (h.header_frames hheader f List.mem_cons_self).len_le hadd
  rcases h.first with ⟨hframe, rfl, hpayload⟩ | ⟨hframe, rest', hcontinues, hbody⟩
  · have hnil : f.payload ++ rest = f.payload ++ [] := by rw [hrest, hpayload, List.append_nil]
    obtain rfl := List.append_cancel_left hnil
    simp only [finishIfEnd, hend, List.isEmpty_nil, if_true] at habsorb
    simp only [List.append_nil]
    refine ⟨?_, ?_⟩
    · rw [absorbed_singleton, habsorb]
    · simp only [absorbOutput, run, habsorb]
      rfl
  · obtain rfl : rest' = rest := List.append_cancel_left (hbody.trans hrest.symm)
    have hpos : 0 < frames.length := by cases hcontinues <;> exact Nat.succ_pos _
    have hsome : frames.isEmpty = false := by cases hcontinues <;> rfl
    simp only [finishIfEnd, hend, hsome, Bool.false_eq_true, if_false] at habsorb
    obtain ⟨hstate, hout⟩ := absorbed_continues hcontinues (add_fragment_open hadd).1
    refine ⟨?_, ?_⟩
    · rw [absorbed, run_cons_fst, habsorb]
      exact hstate
    · have hfirst : d.absorbOutput (f :: frames) = (none, none) :: opened.absorbOutput frames := by
        simp only [absorbOutput, run, habsorb]
      rw [hfirst, hout, ← List.cons_append, ← List.replicate_succ, Nat.sub_add_cancel hpos]

omit [HuffmanDecoding] in
/-- The first frame of an encoded block opens it. -/
theorem add_opening_fragment {d : Direction} (hidle : d.Idle) (hclosed : d.blockHdr = none)
    {blk : DecodedBlock} (hblk : blk.WellFormed) {f : Frame} {chunk : Bytes}
    (htyp : f.hdr.typ = blk.frameType) (hpadded : f.hdr.has Flags.padded = false)
    (hpriority : f.hdr.has Flags.priority = false) (hpayload : f.payload = blk.promise ++ chunk) :
    d.addFragment f.hdr f.payload = some { d with
      block := chunk, blockHdr := some f.hdr, blockPromised := blk.promisedStreamId } := by
  obtain ⟨hblock, hpromised⟩ := hidle hclosed
  have hdrop : d.dropOpenBlock = d := by simp [dropOpenBlock, hclosed]
  by_cases hpush : blk.kind = .pushPromise
  · obtain ⟨sid, hsid⟩ := Option.isSome_iff_exists.mp (hblk.kind.mp hpush)
    have hbytes : blk.promise = toBeBytes 4 sid := by rw [DecodedBlock.promise, hsid]
    rw [DecodedBlock.frameType, if_pos hpush] at htyp
    obtain ⟨s0, s1, s2, s3, hs⟩ : ∃ s0 s1 s2 s3, toBeBytes 4 sid = [s0, s1, s2, s3] :=
      ⟨_, _, _, _, rfl⟩
    have hvalue := from_be_bytes_to_be_bytes 4 sid
    have hsmall := hblk.promised sid hsid
    rw [hs, Nat.mod_eq_of_lt (show sid < 256 ^ 4 by omega)] at hvalue
    have hfragment : headerBlockFragment f.hdr f.payload = some chunk := by
      simp [headerBlockFragment, stripPadLength, stripBytes, hpadded, htyp, hpayload, hbytes, hs,
        FrameType.pushPromise, FrameType.headers]
    have hnoted : promisedStreamId f.hdr f.payload = some sid := by
      simp only [promisedStreamId, hpadded, Bool.false_eq_true, if_false, hpayload, hbytes, hs,
        List.cons_append, List.nil_append, hvalue, Nat.mod_eq_of_lt hsmall]
    have hother : FrameType.pushPromise ≠ FrameType.continuation := by decide
    simp only [addFragment, htyp, hother, if_false, hfragment, Option.map_some, hdrop, notePromised,
      if_true, hnoted, hblock, List.nil_append, hsid]
  · have hnone : blk.promisedStreamId = none := by
      rw [← Option.not_isSome_iff_eq_none, ← hblk.kind]
      exact hpush
    have hbytes : blk.promise = [] := by rw [DecodedBlock.promise, hnone]
    rw [DecodedBlock.frameType, if_neg hpush] at htyp
    rw [hbytes, List.nil_append] at hpayload
    have hothers : FrameType.headers ≠ FrameType.continuation ∧
        FrameType.headers ≠ FrameType.pushPromise := by decide
    have hfragment : headerBlockFragment f.hdr f.payload = some chunk := by
      simp [headerBlockFragment, stripPadLength, hpadded, hpriority, htyp, hpayload, hothers]
    simp only [addFragment, htyp, hothers, if_false, hfragment, Option.map_some, hdrop,
      notePromised, hblock, List.nil_append, hpromised, hnone]

omit [HuffmanDecoding] in
theorem fragment_of_add_fragment {d opened : Direction} {f : Frame}
    (h : d.addFragment f.hdr f.payload = some opened) : f.fragment.isSome = true := by
  unfold addFragment at h
  unfold Frame.fragment
  split at h
  · next hcontinuation =>
      rw [if_pos hcontinuation]
      rfl
  · next hbegins =>
      obtain ⟨frag, hfrag, -⟩ := Option.map_eq_some_iff.mp h
      rw [if_neg hbegins, hfrag]
      rfl

omit [HuffmanDecoding] in
/-- The direction with all of the encoded block before it is finished. -/
def holding (d : Direction) (blk : DecodedBlock) (hdr : FrameHeader) : Direction :=
  { d with
    block := encodeLiteral blk.fields
    blockHdr := some hdr
    blockPromised := blk.promisedStreamId }

/-- A direction with no open block finishes an encoded block on its last frame. -/
theorem absorbed_encode_block {d : Direction} (hidle : d.Idle) (hclosed : d.blockHdr = none)
    {blk : DecodedBlock} (hblk : blk.WellFormed) {maxFrame : Nat} (hmin : 4 ≤ maxFrame)
    (hmax : maxFrame ≤ maxBufferedFrame) :
    ∃ frames hdr, frames.map Frame.wire = encodeBlock blk maxFrame ∧
      (∀ f ∈ frames, IsHeaderFrame f) ∧ BlocksHold false frames ∧ blk.Heads hdr ∧
      d.absorbed frames = (d.holding blk hdr).finishBlock.1 ∧
      d.absorbOutput frames = List.replicate (frames.length - 1) (none, none) ++
        [((d.holding blk hdr).finishBlock.2, none)] := by
  obtain ⟨f, frames, hwire, hencoded, hlen⟩ := encoded_chunks blk.frameType blk.frameFlags hmax
    hblk.streamId (blk.promise ++ encodeLiteral blk.fields)
  rw [← hblk.encode_block_eq] at hwire
  have hbase := blk.frame_flags_cases
  obtain ⟨htyp, hsid, hpadded, hpriority, hend, -⟩ := hencoded.first_header hbase
  have hbegins : f.hdr.isHeaderFrame = true ∧ f.hdr.typ ≠ FrameType.continuation ∧
      (f.hdr.typ = FrameType.pushPromise ↔ blk.kind = .pushPromise) := by
    by_cases hpush : blk.kind = .pushPromise
    · simp only [FrameHeader.isHeaderFrame, htyp, DecodedBlock.frameType, hpush, if_true]
      decide
    · simp only [FrameHeader.isHeaderFrame, htyp, DecodedBlock.frameType, hpush, if_false]
      decide
  obtain ⟨hheader, hcontinuation, hpush⟩ := hbegins
  obtain ⟨rest, hrest⟩ : ∃ rest, f.payload ++ rest = blk.promise ++ encodeLiteral blk.fields := by
    rcases hencoded.first with ⟨-, -, hpayload⟩ | ⟨-, rest, -, hrest⟩
    · exact ⟨[], by rw [List.append_nil, hpayload]⟩
    · exact ⟨rest, hrest⟩
  obtain ⟨chunk, hpayload, hchunk⟩ := append_split hrest (by
    have hpromise := blk.promise_length_le
    rw [List.length_append] at hlen
    omega)
  have hadd := add_opening_fragment hidle hclosed hblk htyp hpadded hpriority hpayload
  obtain ⟨hstate, hout⟩ := absorbed_encoded hencoded hheader hbase hadd hrest
  simp only [hchunk] at hstate hout
  have hblocks := hencoded.blocks_hold hheader hcontinuation hbase (fragment_of_add_fragment hadd)
  refine ⟨f :: frames, f.hdr, hwire, hencoded.header_frames hheader, hblocks, ⟨hsid, ?_, hpush⟩,
    hstate, hout⟩
  simp only [hend, DecodedBlock.frameFlags]
  cases blk.endStream <;> decide

/-- Finishing an encoded block reads it back and leaves the decoder as it was. -/
theorem finish_encoded_block (d : Direction) {blk : DecodedBlock}
    (hfields : ∀ f ∈ blk.fields, f.Encodable) {hdr : FrameHeader} (hhdr : blk.Heads hdr) :
    (d.holding blk hdr).finishBlock.1.dec = d.dec ∧
      ∃ decoded, (d.holding blk hdr).finishBlock.2 = some decoded ∧ blk.SameHeaders decoded := by
  have hdecode : (d.holding blk hdr).dec.decode (d.holding blk hdr).block =
      (d.dec, .ok (blk.fields.map Field.resolved)) := d.dec.decode_encoded_fields hfields
  rcases hfinish : (d.holding blk hdr).finishBlock with ⟨d', decoded⟩
  rcases finish_block_cases rfl hfinish with ⟨dec, e, herror, -⟩ | ⟨dec, fields, hok, rfl, rfl⟩
  · rw [hdecode] at herror
    cases herror
  · rw [hdecode] at hok
    cases hok
    refine ⟨rfl, _, rfl, hhdr.streamId, rfl, hhdr.endStream, rfl, ?_⟩
    simp only [blockKind]
    rw [← hhdr.kind]
    split
    · next h => simp [h]
    · next h => split <;> simp [h]

end

end Direction

end H2Tap
