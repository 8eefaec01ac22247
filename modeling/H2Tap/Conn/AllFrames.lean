import H2Tap.Conn.FrameBoundary

/-!
# The frames of a stream in full

`Follows` tells what a direction returns of header blocks and table sizes. Here the returned frames
are known in full: `returnedAll` lists them with their headers, payloads and places, and
`parse_returns` says that the parse loop returns them in order. Streams in which the direction loses
its place are left out, so nothing is ever in doubt.
-/

namespace H2Tap.Direction

open Lib

variable [HuffmanDecoding]

/-! ## What is returned for a frame -/

/-- The frame that is returned for `f`, when it starts `off` bytes after `base`. -/
def returned (base : Seq) (off : Nat) (d : Direction) (f : Frame) : ProcessedFrame :=
  if d.wantPayload f.hdr then
    (d.handleFrame f.hdr f.payload off (base + BitVec.ofNat 32 off)).2
  else
    { hdr := f.hdr
      payload := []
      startOff := off
      startSeq := base + BitVec.ofNat 32 off
      decoded := none
      isHeaderFrame := f.hdr.isHeaderFrame
      truncated := true
      settingsTableSize := none }

/-- The frames that are returned for `frames`, when the first of them starts `off` bytes after
`base`. -/
def returnedAll (base : Seq) (off : Nat) (d : Direction) : List Frame → List ProcessedFrame
  | [] => []
  | f :: frames => returned base off d f ::
      returnedAll base (off + f.wire.length) (d.absorb f).1 frames

theorem returned_all_append (base : Seq) (off : Nat) (d : Direction) (frames later : List Frame) :
    returnedAll base off d (frames ++ later) =
      returnedAll base off d frames ++
        returnedAll base (off + (framesWire frames).length) (d.absorbed frames) later := by
  induction frames generalizing off d with
  | nil => rfl
  | cons f frames ih =>
      rw [List.cons_append, returnedAll, returnedAll, ih, List.cons_append, frames_wire_cons,
        List.length_append, Nat.add_assoc]
      rfl

/-- What is returned of the frames, apart from their bytes and places, does not depend on where they
start. -/
theorem returned_all_outputs (base : Seq) (off : Nat) (d : Direction) (frames : List Frame) :
    (returnedAll base off d frames).map frameOutput = d.absorbOutput frames := by
  induction frames generalizing off d with
  | nil => rfl
  | cons f frames ih =>
      have hhead : frameOutput (returned base off d f) = (d.absorb f).2 := by
        unfold returned absorb
        split
        · exact (handle_frame_place d f.hdr f.payload off _).2
        · rfl
      rw [returnedAll, List.map_cons, hhead, ih]
      rfl

/-- Nor does it depend on how many bytes were dropped before. -/
theorem absorb_output_skipped (d : Direction) (n : Nat) (frames : List Frame) :
    ({ d with preSnapshotSkipped := n } : Direction).absorbOutput frames =
      d.absorbOutput frames := by
  induction frames generalizing d with
  | nil => rfl
  | cons f frames ih =>
      have habsorb : ({ d with preSnapshotSkipped := n } : Direction).absorb f =
          ({ (d.absorb f).1 with preSnapshotSkipped := n }, (d.absorb f).2) := by
        have hmoved := handle_frame_moved d d.keepPayloads d.frames d.reasm d.discard n f.hdr
          f.payload 0 0
        have hsame := same_position_handle_frame d f.hdr f.payload 0 0
        unfold absorb
        split
        · next hwant =>
            have hwant' : d.wantPayload f.hdr = true := hwant
            simp only [hwant', if_true]
            have hsecond : frameOutput (({ d with preSnapshotSkipped := n } : Direction).handleFrame
                f.hdr f.payload 0 0).2 = frameOutput (d.handleFrame f.hdr f.payload 0 0).2 :=
              congrArg (fun out => frameOutput out.2) hmoved
            refine Prod.ext ((congrArg Prod.fst hmoved).trans ?_) hsecond
            simp only [moved, relocated, ← hsame.keepPayloads, ← hsame.frames, ← hsame.reasm,
              ← hsame.discard]
        · next hwant =>
            have hwant' : ¬d.wantPayload f.hdr = true := hwant
            simp only [hwant', Bool.false_eq_true, if_false]
      simp only [absorbOutput, run, habsorb] at ih ⊢
      rw [ih]

/-- The place only shows as the place of the returned frame. -/
theorem handle_frame_at (d : Direction) (hdr : FrameHeader) (payload : Bytes) (startOff : Nat)
    (startSeq : Seq) (keep : Bool) (frames : Nat) (reasm : Reassembler) (discard : Nat) :
    ((d.relocated keep frames reasm discard).handleFrame hdr payload startOff startSeq).2 =
      (d.handleFrame hdr payload startOff startSeq).2 := by
  rw [handle_frame_relocated]

/-! ## The parse loop -/

/-- The direction does not lose its place at a frame that ends within the first `bound` bytes of a
stream with `lead` bytes before its first frame. -/
def KeepsPlace (src : Source) (lead bound : Nat) : Prop :=
  ∀ j ≤ src.frames.length, frameStart lead src.frames j ≤ bound →
    (src.start.absorbed (src.frames.take j)).desynced = false

theorem not_lost_of_keeps_place {src : Source} {lead bound k : Nat} {rest : Bytes}
    (hkeeps : KeepsPlace src lead bound) (hk : k ≤ bound)
    (htotal : k + rest.length = lead + (framesWire src.frames).length) {d : Direction} :
    ¬ Lost src rest d := by
  rintro ⟨-, j, hj, hlost, hlength⟩
  have hsplit : (framesWire src.frames).length =
      (framesWire (src.frames.take j)).length + (framesWire (src.frames.drop j)).length := by
    rw [framesWire, framesWire, framesWire, ← List.length_append, ← List.flatMap_append,
      List.take_append_drop]
  rw [hkeeps j hj (by unfold frameStart; omega)] at hlost
  cases hlost

section

variable {src : Source} {k j lead bound : Nat} {rest : Bytes} {d : Direction}

/-- A turn at a frame boundary returns the next frame in full. -/
theorem reads_frame_returned (h : Reads src k rest j d) (hdiscard : d.discard = 0)
    (htotal : k + rest.length = lead + (framesWire src.frames).length) {f : Frame}
    (hframe : src.frames[j]? = some f) {d' : Direction} {pf : ProcessedFrame}
    (hturn : d.parseStep = .more d' (some pf)) :
    pf = returned src.delivery.base (frameStart lead src.frames j)
      (src.start.absorbed (src.frames.take j)) f := by
  obtain ⟨hpending, hsynced, hpreface⟩ := h.synced
  obtain ⟨n, hhandled⟩ := h.handled
  obtain ⟨tail, htail, hbytes⟩ := h.bytes
  obtain rfl : tail = [] := List.length_eq_zero_iff.mp (htail.trans hdiscard)
  rw [List.nil_append, frames_drop hframe, frames_wire_cons, Frame.wire,
    List.append_assoc] at hbytes
  have hstep : d.parseStep = d.frameStep := by
    simp [parseStep, hdiscard, hpending, hsynced, hpreface]
  have hoffset : d.reasm.offset = frameStart lead src.frames j := by
    have := h.offset_eq lead htotal
    rwa [hdiscard, Nat.add_zero] at this
  have hseq : d.reasm.nextUnparsedSeq =
      src.delivery.base + BitVec.ofNat 32 (frameStart lead src.frames j) := by
    rw [Reassembler.nextUnparsedSeq, Reassembler.seqAt, (src.delivery.place h.order).1, ← hoffset]
    rfl
  have hlong : frameHeaderLen ≤ d.reasm.available.length := by
    by_contra hshort
    rw [hstep, frameStep, (FrameHeader.parse_eq_none_iff _).mpr (not_le.mp hshort)] at hturn
    cases hturn
  obtain ⟨later, havailable, hlater⟩ := append_split hbytes (by rw [f.head_length]; exact hlong)
  have hparse : FrameHeader.parse d.reasm.available = some f.hdr := by
    rw [havailable]
    exact FrameHeader.parse_append f.parse_eq later
  have hwant : d.wantPayload f.hdr =
      (src.start.absorbed (src.frames.take j)).wantPayload f.hdr := by
    rw [want_payload_absorbed, hhandled]
    rfl
  rw [hstep, frameStep, hparse] at hturn
  simp only [hwant] at hturn
  unfold returned
  split at hturn
  · next hwanted =>
      split at hturn
      · cases hturn
      · next hwhole =>
          cases hturn
          obtain ⟨later', rfl, -⟩ := append_split hlater (by
            rw [f.payload_length]
            rw [havailable, List.length_append, f.head_length] at hwhole
            omega)
          have hpayload : (d.reasm.available.drop frameHeaderLen).take f.hdr.len = f.payload := by
            rw [havailable, ← f.head_length, List.drop_left, ← f.payload_length, List.take_left]
          rw [if_pos hwanted, take_frame_eq]
          simp only [hpayload, hoffset, hseq]
          conv_lhs => rw [hhandled]
          exact handle_frame_at _ _ _ _ _ _ _ _ _
  · next hunwanted =>
      cases hturn
      rw [if_neg hunwanted]
      simp only [skipFrame, hoffset, hseq]

/-- The parse loop returns the complete frames in full. -/
theorem parse_returns (hkeeps : KeepsPlace src lead bound) (hk : k ≤ bound)
    (h : Reads src k rest j d)
    (htotal : k + rest.length = lead + (framesWire src.frames).length) :
    ∃ j', j ≤ j' ∧ Reads src k rest j' d.parse.1 ∧ Settled src j' d.parse.1 ∧
      d.parse.2 = returnedAll src.delivery.base (frameStart lead src.frames j)
        (src.start.absorbed (src.frames.take j)) ((src.frames.take j').drop j) := by
  induction hwork : d.work using Nat.strongRecOn generalizing d j with
  | ind n ih =>
      subst hwork
      have hstop (hturn : d.parseStep = .stop d) (hsettled : Settled src j d) :
          ∃ j', j ≤ j' ∧ Reads src k rest j' d.parse.1 ∧ Settled src j' d.parse.1 ∧
            d.parse.2 = returnedAll src.delivery.base (frameStart lead src.frames j)
              (src.start.absorbed (src.frames.take j)) ((src.frames.take j').drop j) := by
        refine ⟨j, le_refl j, ?_⟩
        rw [parse_of_stop hturn, List.drop_eq_nil_of_le (List.length_take_le _ _)]
        exact ⟨h, hsettled, rfl⟩
      by_cases hdiscard : 0 < d.discard
      · rcases reads_discard h hdiscard with ⟨hturn, hsettled⟩ | ⟨d', hturn, hreads⟩
        · exact hstop hturn hsettled
        · rw [parse_of_more hturn, Option.toList_none, List.nil_append]
          exact ih _ (work_parse_step hturn) hreads rfl
      · rcases reads_frame h (by omega) with
          ⟨hturn, hsettled⟩ | ⟨f, d', pf, hframe, hturn, -, hnext⟩
        · exact hstop hturn hsettled
        · obtain ⟨j', hle, hreads', hsettled, hpfs⟩ := ih _ (work_parse_step hturn)
            (hnext.resolve_left (not_lost_of_keeps_place hkeeps hk htotal)) rfl
          have hpf := reads_frame_returned h (by omega) htotal hframe hturn
          have hstart : frameStart lead src.frames (j + 1) =
              frameStart lead src.frames j + f.wire.length := by
            rw [frame_start_succ lead hframe, f.wire_length, Nat.add_assoc]
          refine ⟨j', by omega, ?_⟩
          rw [parse_of_more hturn]
          refine ⟨hreads', hsettled, ?_⟩
          rw [Option.toList_some, List.singleton_append, hpfs, hpf, frames_between hframe hle,
            frames_take hframe, absorbed_append, hstart]
          rfl

end

/-! ## Segments -/

/-- Where a direction that never loses its place can be in a stream: before the first frame, as
`before` says, or after the first `j` frames. `pfs` is what it has returned. -/
def FollowsAll (src : Source) (before : Nat → Bytes → Direction → Prop) (lead k : Nat)
    (rest : Bytes) (pfs : List ProcessedFrame) (d : Direction) : Prop :=
  before k rest d ∧ pfs = [] ∨
    ∃ j, Reads src k rest j d ∧ Settled src j d ∧
      pfs = returnedAll src.delivery.base lead src.start (src.frames.take j)

/-- What bytes do before the first frame: the direction waits for more, or stands at the first
frame and reads on. -/
def LeadsIn (src : Source) (before : Nat → Bytes → Direction → Prop) : Prop :=
  ∀ {k data rest d pushed}, before k (data ++ rest) d → src.delivery.Adds d.reasm k data pushed →
    ((d.withReassembled pushed).parse.2 = [] ∧
        before (k + data.length) rest (d.withReassembled pushed).parse.1) ∨
      ∃ d', Reads src (k + data.length) rest 0 d' ∧ (d.withReassembled pushed).parse = d'.parse

section

variable {src : Source} {before : Nat → Bytes → Direction → Prop} {lead bound k : Nat}
  {rest : Bytes} {pfs : List ProcessedFrame} {d : Direction}

/-- A direction that stands at the first frame or after it reads on. -/
theorem follows_all_parse (hkeeps : KeepsPlace src lead bound) (hk : k ≤ bound)
    (htotal : k + rest.length = lead + (framesWire src.frames).length) {j : Nat}
    (h : Reads src k rest j d) :
    FollowsAll src before lead k rest
      (returnedAll src.delivery.base lead src.start (src.frames.take j) ++ d.parse.2)
      d.parse.1 := by
  obtain ⟨j', hle, hreads, hsettled, hpfs⟩ := parse_returns hkeeps hk h htotal
  refine Or.inr ⟨j', hreads, hsettled, ?_⟩
  conv_rhs => rw [take_split _ hle, returned_all_append]
  rw [hpfs]
  rfl

/-- A segment that adds `data` takes the direction on. -/
theorem follows_all_feed (hkeeps : KeepsPlace src lead bound) (hleads : LeadsIn src before)
    {data : Bytes} (hk : k + data.length ≤ bound)
    (htotal : k + (data ++ rest).length = lead + (framesWire src.frames).length)
    (h : FollowsAll src before lead k (data ++ rest) pfs d) {seq : Seq} {bytes : Bytes}
    {nowUs : Nat}
    (hadds : src.delivery.Adds d.reasm k data (d.reasm.push seq bytes nowUs)) :
    FollowsAll src before lead (k + data.length) rest (pfs ++ (d.feed seq bytes nowUs).2)
      (d.feed seq bytes nowUs).1 := by
  rw [List.length_append, ← Nat.add_assoc] at htotal
  rcases h with ⟨hbefore, rfl⟩ | ⟨j, hreads, -, rfl⟩
  · unfold feed
    rcases hleads hbefore hadds with ⟨hnone, hbefore'⟩ | ⟨d', hreads, hparse⟩
    · exact Or.inl ⟨hbefore', by rw [hnone]; rfl⟩
    · rw [hparse]
      exact follows_all_parse hkeeps hk htotal hreads
  · exact follows_all_parse hkeeps hk htotal (reads_received hreads hadds)

/-- Once all bytes were delivered, the direction has absorbed all frames and returned them. -/
theorem follows_all_end (h : FollowsAll src before lead k [] pfs d)
    (hstarted : ¬ before k [] d) :
    pfs = returnedAll src.delivery.base lead src.start src.frames ∧
      ∃ n, d = (src.start.absorbed src.frames).relocated src.start.keepPayloads n d.reasm
        d.discard := by
  rcases h with ⟨hbefore, -⟩ | ⟨j, hreads, hsettled, rfl⟩
  · exact absurd hbefore hstarted
  · have hall : src.frames.take j = src.frames := by
      refine List.take_of_length_le (not_lt.mp fun hlt => ?_)
      obtain ⟨tail, htail, hbytes⟩ := hreads.bytes
      have hframe : src.frames[j]? = some src.frames[j] := List.getElem?_eq_getElem hlt
      have hlength := congrArg List.length hbytes
      rw [frames_drop hframe, frames_wire_cons, List.append_nil, List.length_append,
        List.length_append, Frame.wire_length] at hlength
      unfold Settled at hsettled
      split at hsettled
      · rw [hsettled, List.length_nil] at hlength
        omega
      · rw [hframe] at hsettled
        simp only [frameHeaderLen] at hsettled hlength
        omega
    have hhandled := hreads.handled
    rw [hall] at hhandled ⊢
    exact ⟨rfl, hhandled⟩

end

end H2Tap.Direction
