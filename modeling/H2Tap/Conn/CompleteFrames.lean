import H2Tap.Conn.AllFrames
import H2Tap.Conn.Reference

/-!
# The complete frames of a byte string

Any byte string is cut into frames by the lengths in their headers, up to a last one that may be
incomplete. `completeFrames` lists the complete ones. `KeepsFraming` says that none of them makes a
direction give up its place, and `FramesFrom.keeps_place` that a direction which reads the string
then keeps it.
-/

namespace H2Tap

open Lib

/-! ## Cutting a byte string -/

/-- The first nine bytes hold the frame header. -/
theorem FrameHeader.parse_take {bytes : Bytes} {hdr : FrameHeader}
    (h : FrameHeader.parse bytes = some hdr) :
    FrameHeader.parse (bytes.take frameHeaderLen) = some hdr := by
  have hlength := FrameHeader.length_of_parse h
  have hsome : (FrameHeader.parse (bytes.take frameHeaderLen)).isSome = true := by
    rw [FrameHeader.parse_isSome_iff, List.length_take]
    exact le_min (le_refl _) hlength
  obtain ⟨hdr', hhdr'⟩ := Option.isSome_iff_exists.mp hsome
  have hwhole := FrameHeader.parse_append hhdr' (bytes.drop frameHeaderLen)
  rw [List.take_append_drop, h] at hwhole
  rw [hhdr', ← hwhole]

/-- The first frame of a byte string that holds all of it. -/
def Frame.first (bytes : Bytes) {hdr : FrameHeader} (hparse : FrameHeader.parse bytes = some hdr)
    (hlen : frameHeaderLen + hdr.len ≤ bytes.length) : Frame where
  head := bytes.take frameHeaderLen
  hdr := hdr
  payload := (bytes.drop frameHeaderLen).take hdr.len
  head_length := by
    rw [List.length_take]
    omega
  parse_eq := FrameHeader.parse_take hparse
  payload_length := by
    rw [List.length_take, List.length_drop]
    omega

/-- The bytes of the first frame come first. -/
theorem Frame.first_wire (bytes : Bytes) {hdr : FrameHeader}
    (hparse : FrameHeader.parse bytes = some hdr) (hlen : frameHeaderLen + hdr.len ≤ bytes.length) :
    (Frame.first bytes hparse hlen).wire = bytes.take (frameHeaderLen + hdr.len) :=
  List.take_add.symm

/-- The complete frames at the start of a byte string. -/
def completeFrames (bytes : Bytes) : List Frame :=
  match hparse : FrameHeader.parse bytes with
  | none => []
  | some hdr =>
      if hlen : frameHeaderLen + hdr.len ≤ bytes.length then
        Frame.first bytes hparse hlen :: completeFrames (bytes.drop (frameHeaderLen + hdr.len))
      else []
termination_by bytes.length
decreasing_by
  rw [List.length_drop]
  simp only [frameHeaderLen] at hlen ⊢
  omega

/-- An incomplete frame can be completed. -/
theorem completes_frame {bytes : Bytes}
    (hshort : ∀ hdr, FrameHeader.parse bytes = some hdr → bytes.length < frameHeaderLen + hdr.len) :
    ∃ (f : Frame) (more : Bytes), more ≠ [] ∧ bytes ++ more = f.wire := by
  set zeros : Bytes := List.replicate (frameHeaderLen - bytes.length) 0 with hzeros
  have hlong : frameHeaderLen ≤ (bytes ++ zeros).length := by
    rw [hzeros, List.length_append, List.length_replicate]
    omega
  obtain ⟨hdr, hparse⟩ := Option.isSome_iff_exists.mp ((FrameHeader.parse_isSome_iff _).mpr hlong)
  have hmissing : bytes.length < frameHeaderLen + hdr.len := by
    by_cases hheader : bytes.length < frameHeaderLen
    · omega
    · refine hshort hdr ?_
      rwa [hzeros, Nat.sub_eq_zero_of_le (not_lt.mp hheader), List.replicate_zero,
        List.append_nil] at hparse
  have hwhole : FrameHeader.parse (bytes ++ zeros ++ List.replicate hdr.len 0) = some hdr :=
    FrameHeader.parse_append hparse _
  have hlen : frameHeaderLen + hdr.len ≤ (bytes ++ zeros ++ List.replicate hdr.len 0).length := by
    rw [List.length_append, List.length_replicate]
    omega
  refine ⟨Frame.first _ hwhole hlen,
    (zeros ++ List.replicate hdr.len 0).take (frameHeaderLen + hdr.len - bytes.length), ?_, ?_⟩
  · intro hnil
    have hlength := congrArg List.length hnil
    rw [List.append_assoc, List.length_append] at hlen
    rw [List.length_take, List.length_nil] at hlength
    omega
  · have hcut : (bytes ++ (zeros ++ List.replicate hdr.len 0)).take (frameHeaderLen + hdr.len) =
        bytes ++ (zeros ++ List.replicate hdr.len 0).take
          (frameHeaderLen + hdr.len - bytes.length) := by
      rw [List.take_append, List.take_of_length_le hmissing.le]
    rw [Frame.first_wire, List.append_assoc bytes, hcut]

/-- A byte string is what its complete frames carry, and perhaps the start of one more frame. -/
theorem complete_frames_last (bytes : Bytes) :
    ∃ (last : List Frame) (more : Bytes),
      bytes ++ more = framesWire (completeFrames bytes ++ last) ∧
        (last = [] ∧ more = [] ∨ (∃ f, last = [f]) ∧ more ≠ []) := by
  have hlast : ∀ bytes : Bytes, completeFrames bytes = [] →
      (∀ hdr, FrameHeader.parse bytes = some hdr → bytes.length < frameHeaderLen + hdr.len) →
      ∃ (last : List Frame) (more : Bytes),
        bytes ++ more = framesWire (completeFrames bytes ++ last) ∧
          (last = [] ∧ more = [] ∨ (∃ f, last = [f]) ∧ more ≠ []) := by
    intro bytes hnone hshort
    obtain ⟨f, more, hmore, hwire⟩ := completes_frame hshort
    refine ⟨[f], more, ?_, Or.inr ⟨⟨f, rfl⟩, hmore⟩⟩
    rw [hnone, List.nil_append, frames_wire_cons, frames_wire_nil, List.append_nil, hwire]
  induction bytes using completeFrames.induct with
  | case1 bytes hparse =>
      refine hlast bytes ?_ fun hdr hsome => ?_
      · rw [completeFrames]
        split
        · rfl
        · next hsome =>
            rw [hparse] at hsome
            cases hsome
      · rw [hparse] at hsome
        cases hsome
  | case2 bytes hdr hparse hlen ih =>
      obtain ⟨last, more, hwire, hend⟩ := ih
      refine ⟨last, more, ?_, hend⟩
      have hframes : completeFrames bytes = Frame.first bytes hparse hlen ::
          completeFrames (bytes.drop (frameHeaderLen + hdr.len)) := by
        rw [completeFrames]
        split
        · next hnone =>
            rw [hparse] at hnone
            cases hnone
        · next hdr' hparse' =>
            obtain rfl : hdr = hdr' := Option.some.inj (hparse.symm.trans hparse')
            rw [dif_pos hlen]
      rw [hframes, List.cons_append, frames_wire_cons, ← hwire, ← List.append_assoc,
        Frame.first_wire, List.take_append_drop]
  | case3 bytes hdr hparse hlen =>
      refine hlast bytes ?_ fun hdr' hsome => ?_
      · rw [completeFrames]
        split
        · rfl
        · next hdr' hparse' =>
            obtain rfl : hdr = hdr' := Option.some.inj (hparse.symm.trans hparse')
            rw [dif_neg hlen]
      · obtain rfl : hdr = hdr' := Option.some.inj (hparse.symm.trans hsome)
        exact not_le.mp hlen

/-! ## Keeping the place -/

/-- No frame makes a direction give up its place: a CONTINUATION continues an open block, and every
frame that carries part of a block is validly padded, as far as it can be buffered. `isOpen` says
that a block was begun before the first frame. -/
def BlocksHold : Bool → List Frame → Prop
  | _, [] => True
  | isOpen, f :: frames =>
      if f.hdr.isHeaderFrame ∧ f.hdr.len ≤ maxBufferedFrame then
        (f.hdr.typ = FrameType.continuation → isOpen = true) ∧ f.fragment.isSome = true ∧
          BlocksHold (!f.hdr.has Flags.endHeaders) frames
      else BlocksHold isOpen frames

instance BlocksHold.decidable : ∀ isOpen frames, Decidable (BlocksHold isOpen frames)
  | _, [] => isTrue trivial
  | isOpen, f :: frames =>
      have := BlocksHold.decidable (!f.hdr.has Flags.endHeaders) frames
      have := BlocksHold.decidable isOpen frames
      inferInstanceAs (Decidable (if f.hdr.isHeaderFrame = true ∧ _ then _ else _))

/-- The complete frames of a byte string hold their blocks. -/
def KeepsFraming (bytes : Bytes) : Prop := BlocksHold false (completeFrames bytes)

instance (bytes : Bytes) : Decidable (KeepsFraming bytes) :=
  inferInstanceAs (Decidable (BlocksHold false _))

/-- The first frames hold their blocks, too. -/
theorem BlocksHold.take {isOpen : Bool} {frames : List Frame} (h : BlocksHold isOpen frames)
    (j : Nat) : BlocksHold isOpen (frames.take j) := by
  induction frames generalizing isOpen j with
  | nil => rwa [List.take_nil]
  | cons f frames ih =>
      cases j with
      | zero => trivial
      | succ j =>
          rw [List.take_succ_cons]
          unfold BlocksHold at h ⊢
          split
          · next hheader =>
              rw [if_pos hheader] at h
              exact ⟨h.1, h.2.1, ih h.2.2 j⟩
          · next hheader =>
              rw [if_neg hheader] at h
              exact ih h j

namespace Direction

/-- A direction between two frames that has its place. -/
structure InPlace (isOpen : Bool) (d : Direction) : Prop where
  blockHdr : isOpen = true → d.blockHdr.isSome = true
  synced : d.desynced = false

variable [HuffmanDecoding]

/-- A frame that holds its block. -/
theorem InPlace.absorb {isOpen : Bool} {d : Direction} (h : d.InPlace isOpen) {f : Frame}
    {frames : List Frame} (hblocks : BlocksHold isOpen (f :: frames)) :
    ∃ isOpen', BlocksHold isOpen' frames ∧ (d.absorb f).1.InPlace isOpen' := by
  unfold BlocksHold at hblocks
  split at hblocks
  · next hheader =>
      obtain ⟨hcontinues, hfragment, hrest⟩ := hblocks
      obtain ⟨opened, hadd⟩ : ∃ opened, d.addFragment f.hdr f.payload = some opened := by
        unfold addFragment
        unfold Frame.fragment at hfragment
        split at hfragment
        · next hcontinuation =>
            have hsome : d.blockHdr.isNone = false := by
              rw [← Option.not_isSome, h.blockHdr (hcontinues hcontinuation)]
              rfl
            rw [if_pos hcontinuation, if_neg (by rw [hsome]; exact Bool.false_ne_true)]
            exact ⟨_, rfl⟩
        · next hbegins =>
            obtain ⟨frag, hfrag⟩ := Option.isSome_iff_exists.mp hfragment
            rw [if_neg hbegins, hfrag]
            exact ⟨_, rfl⟩
      obtain ⟨hopened, -, -, hdesynced, -⟩ := add_fragment_open hadd
      have hstate := (absorb_header_frame d hheader.1 hheader.2).1
      rw [handle_header_frame d hheader.1, hadd] at hstate
      simp only at hstate
      refine ⟨_, hrest, ?_⟩
      rw [hstate]
      cases hend : f.hdr.has Flags.endHeaders with
      | false =>
          simp only [finishIfEnd, hend, Bool.false_eq_true, if_false]
          exact ⟨fun _ => hopened, hdesynced.trans h.synced⟩
      | true =>
          simp only [finishIfEnd, hend, if_true]
          obtain ⟨bhdr, hbhdr⟩ := Option.isSome_iff_exists.mp hopened
          rcases hfinish : opened.finishBlock with ⟨d', decoded⟩
          rcases finish_block_cases hbhdr hfinish with
            ⟨dec, e, -, -, rfl⟩ | ⟨dec, fields, -, rfl, -⟩
          · exact ⟨fun hfalse => Bool.noConfusion hfalse, hdesynced.trans h.synced⟩
          · exact ⟨fun hfalse => Bool.noConfusion hfalse, hdesynced.trans h.synced⟩
  · next hheader =>
      have hstate := (absorb_without_block d (f := f) (by
        rw [not_and_or, Bool.not_eq_true, not_le] at hheader
        exact hheader)).1
      refine ⟨isOpen, hblocks, ?_⟩
      rw [hstate]
      exact h

/-- Frames that hold their blocks. -/
theorem InPlace.absorbed {isOpen : Bool} {d : Direction} (h : d.InPlace isOpen)
    {frames : List Frame} (hblocks : BlocksHold isOpen frames) :
    (d.absorbed frames).desynced = false := by
  induction frames generalizing isOpen d with
  | nil => exact h.synced
  | cons f frames ih =>
      obtain ⟨isOpen', hrest, hplace⟩ := h.absorb hblocks
      exact ih hplace hrest

end Direction

/-! ## The frames from some byte on -/

/-- The frames of a stream from byte `skip` on, the last one completed by `more`. Those that end
within the stream hold their blocks. -/
structure FramesFrom (stream : Bytes) (skip : Nat) (frames : List Frame) (more : Bytes) : Prop where
  bytes : ∃ lead : Bytes, lead.length = skip ∧ stream ++ more = lead ++ framesWire frames
  reached : skip ≤ stream.length ∨ frames = []
  blocks : ∀ j ≤ frames.length, skip + (framesWire (frames.take j)).length ≤ stream.length →
    BlocksHold false (frames.take j)

/-- Every stream has frames from any byte on. -/
theorem exists_frames_from {stream : Bytes} {skip : Nat}
    (hframing : KeepsFraming (stream.drop skip)) :
    ∃ frames more, FramesFrom stream skip frames more := by
  rcases Nat.lt_or_ge stream.length skip with hshort | hlong
  · refine ⟨[], List.replicate (skip - stream.length) 0,
      ⟨stream ++ List.replicate (skip - stream.length) 0, ?_, by simp⟩, Or.inr rfl, ?_⟩
    · rw [List.length_append, List.length_replicate]
      omega
    · intro j _ _
      rw [List.take_nil]
      trivial
  · obtain ⟨last, more, hbytes, hlast⟩ := complete_frames_last (stream.drop skip)
    have hwire := congrArg List.length hbytes
    rw [List.length_append, List.length_drop] at hwire
    refine ⟨completeFrames (stream.drop skip) ++ last, more, ⟨stream.take skip, ?_, ?_⟩,
      Or.inl hlong, fun j hj hend => ?_⟩
    · exact List.length_take_of_le hlong
    · rw [← hbytes, ← List.append_assoc, List.take_append_drop]
    · have hcomplete : j ≤ (completeFrames (stream.drop skip)).length := by
        by_contra hlt
        rcases hlast with ⟨rfl, -⟩ | ⟨⟨f, rfl⟩, hmore⟩
        · rw [List.append_nil] at hj
          omega
        · -- the last frame ends with the bytes that complete it
          have hall := List.take_of_length_le (l := completeFrames (stream.drop skip) ++ [f])
            (i := j) (by
              rw [List.length_append, List.length_singleton]
              omega)
          have hpositive := List.length_pos_iff.mpr hmore
          rw [hall] at hend
          omega
      rw [List.take_append_of_le_length hcomplete]
      exact BlocksHold.take hframing j

/-- A direction that reads these frames keeps its place. -/
theorem FramesFrom.keeps_place [HuffmanDecoding] {stream : Bytes} {skip first : Nat}
    {frames : List Frame} {more : Bytes} (h : FramesFrom stream skip frames more)
    {src : Direction.Source}
    (hframes : src.frames = frames) (hstart : src.start.InPlace false) (hfirst : first ≤ skip)
    (hlength : first ≤ stream.length) :
    Direction.KeepsPlace src (skip - first) (stream.drop first).length := by
  intro j hj hend
  rw [List.length_drop, Direction.frameStart, hframes] at hend
  rw [hframes] at hj ⊢
  exact hstart.absorbed (h.blocks j hj (by omega))

end H2Tap
