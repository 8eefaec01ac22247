import H2Tap.Coverage
import H2Tap.Conn.AllFrames
import H2Tap.Conn.Arrival
import H2Tap.Conn.Received

/-!
# The reference split of a stream

`reference` says what a well-framed stream means: where its frames lie, which payloads are kept and
what its header blocks decode to, the fragments of a block being joined first. It knows nothing of
segments. `arrivals_split` says that a direction returns just that, whatever the segments and the
order in which they arrive.
-/

namespace H2Tap

open Lib

/-! ## Well-framed streams -/

/-- The part of a header block that a frame carries. -/
def Frame.fragment (f : Frame) : Option Bytes :=
  if f.hdr.typ = FrameType.continuation then some f.payload
  else headerBlockFragment f.hdr f.payload

/-- The frames that carry header blocks can be buffered, are contiguous and are validly padded, if
they are padded. `isOpen` says that a block was begun before the first frame. -/
def WellFramed : Bool → List Frame → Prop
  | _, [] => True
  | isOpen, f :: frames =>
      if f.hdr.isHeaderFrame then
        f.hdr.len ≤ maxBufferedFrame ∧ (f.hdr.typ = FrameType.continuation ↔ isOpen = true) ∧
          f.fragment.isSome = true ∧ WellFramed (!f.hdr.has Flags.endHeaders) frames
      else isOpen = false ∧ WellFramed false frames

instance WellFramed.decidable : ∀ isOpen frames, Decidable (WellFramed isOpen frames)
  | _, [] => isTrue trivial
  | _, f :: frames =>
      have := WellFramed.decidable (!f.hdr.has Flags.endHeaders) frames
      have := WellFramed.decidable false frames
      inferInstanceAs (Decidable (if f.hdr.isHeaderFrame = true then _ else _))

/-- The first frames of a well-framed stream. -/
theorem WellFramed.take {isOpen : Bool} {frames : List Frame} (h : WellFramed isOpen frames)
    (j : Nat) : WellFramed isOpen (frames.take j) := by
  induction frames generalizing isOpen j with
  | nil => rwa [List.take_nil]
  | cons f frames ih =>
      cases j with
      | zero => trivial
      | succ j =>
          rw [List.take_succ_cons]
          unfold WellFramed at h ⊢
          split
          · next hheader =>
              rw [if_pos hheader] at h
              exact ⟨h.1, h.2.1, h.2.2.1, ih h.2.2.2 j⟩
          · next hheader =>
              rw [if_neg hheader] at h
              exact ⟨h.1, ih h.2 j⟩

/-! ## The reference -/

/-- What the reference says of a frame: its header, its payload if it is kept, its place and the
fields of the header block that it ends, if that block decodes. -/
structure RefFrame where
  hdr : FrameHeader
  payload : Bytes
  kept : Bool
  startOff : Nat
  startSeq : Seq
  fields : Option (List Field)
  deriving DecidableEq

/-- What a returned frame says of these. -/
def ProcessedFrame.refFrame (pf : ProcessedFrame) : RefFrame where
  hdr := pf.hdr
  payload := pf.payload
  kept := !pf.truncated
  startOff := pf.startOff
  startSeq := pf.startSeq
  fields := pf.decoded.map DecodedBlock.fields

/-- Whether the payload of a frame is kept: always for header blocks and SETTINGS, for other frames
on request, and never above `MAX_BUFFERED_FRAME`. -/
def keepsPayload (keepPayloads : Bool) (hdr : FrameHeader) : Bool :=
  (keepPayloads || hdr.isHeaderFrame || hdr.typ == FrameType.settings) &&
    decide (hdr.len ≤ maxBufferedFrame)

/-- A frame that starts `off` bytes after `base`. -/
def Frame.refFrame (keepPayloads : Bool) (base : Seq) (off : Nat) (fields : Option (List Field))
    (f : Frame) : RefFrame where
  hdr := f.hdr
  payload := if keepsPayload keepPayloads f.hdr then f.payload else []
  kept := keepsPayload keepPayloads f.hdr
  startOff := off
  startSeq := base + BitVec.ofNat 32 off
  fields := fields

/-- The header block so far, with what a frame adds to it. -/
def Frame.joined (f : Frame) (block : Bytes) : Bytes :=
  if f.hdr.isHeaderFrame then block ++ f.fragment.getD [] else block

/-- The reference split of frames that start `off` bytes after `base`, with the header block so far
and the decoder. A block that does not decode leaves an empty table. -/
def reference [HuffmanDecoding] (keepPayloads : Bool) (base : Seq) :
    Nat → Bytes → Decoder → List Frame → List RefFrame
  | _, _, _, [] => []
  | off, block, dec, f :: frames =>
      if f.hdr.isHeaderFrame && f.hdr.has Flags.endHeaders then
        match dec.decode (f.joined block) with
        | (dec, .ok fields) =>
            f.refFrame keepPayloads base off (some fields) ::
              reference keepPayloads base (off + f.wire.length) [] dec frames
        | (dec, .error _) =>
            f.refFrame keepPayloads base off none ::
              reference keepPayloads base (off + f.wire.length) [] dec.resetPartial frames
      else
        f.refFrame keepPayloads base off none ::
          reference keepPayloads base (off + f.wire.length) (f.joined block) dec frames

namespace Direction

variable [HuffmanDecoding]

/-! ## One frame -/

/-- A direction between two frames of a well-framed stream. -/
structure Gathers (isOpen : Bool) (d : Direction) : Prop where
  blockHdr : d.blockHdr.isSome = isOpen
  block : isOpen = false → d.block = []
  synced : d.desynced = false

omit [HuffmanDecoding] in
/-- The fragment of the next frame is added to the block so far. -/
theorem Gathers.add_fragment {isOpen : Bool} {d : Direction} (h : d.Gathers isOpen) {f : Frame}
    (hcontinues : f.hdr.typ = FrameType.continuation ↔ isOpen = true)
    (hfragment : f.fragment.isSome = true) (hheader : f.hdr.isHeaderFrame = true) :
    ∃ opened, d.addFragment f.hdr f.payload = some opened ∧ opened.block = f.joined d.block ∧
      opened.keepPayloads = d.keepPayloads := by
  unfold addFragment Frame.joined
  rw [if_pos hheader]
  cases hopen : isOpen with
  | true =>
      have hcontinuation := hcontinues.mpr hopen
      have hsome : d.blockHdr.isNone = false := by
        rw [← Option.not_isSome, h.blockHdr, hopen]
        rfl
      simp only [hcontinuation, if_true, hsome, Bool.false_eq_true, if_false, Frame.fragment,
        Option.getD_some]
      exact ⟨_, rfl, rfl, rfl⟩
  | false =>
      have hbegins : f.hdr.typ ≠ FrameType.continuation := fun heq => by
        rw [hcontinues.mp heq] at hopen
        cases hopen
      have hnone : d.blockHdr.isSome = false := h.blockHdr.trans hopen
      have hdrop : d.dropOpenBlock = d := by simp [dropOpenBlock, hnone]
      have hnote : (d.notePromised f.hdr f.payload).block = d.block ∧
          (d.notePromised f.hdr f.payload).keepPayloads = d.keepPayloads := by
        unfold notePromised
        split
        · split <;> exact ⟨rfl, rfl⟩
        · exact ⟨rfl, rfl⟩
      simp only [Frame.fragment, hbegins, if_false] at hfragment ⊢
      obtain ⟨frag, hfrag⟩ := Option.isSome_iff_exists.mp hfragment
      simp only [hfrag, Option.map_some, Option.getD_some, hdrop, hnote.1]
      exact ⟨_, rfl, rfl, hnote.2⟩

/-- The returned frame shows the frame, its place and the block that it ends. -/
theorem handle_frame_shows (d : Direction) (hdr : FrameHeader) (payload : Bytes) (startOff : Nat)
    (startSeq : Seq) :
    (d.handleFrame hdr payload startOff startSeq).2.refFrame =
      ⟨hdr, payload, true, startOff, startSeq,
        (d.handleFrame hdr payload startOff startSeq).2.decoded.map DecodedBlock.fields⟩ := by
  unfold handleFrame
  split
  · rfl
  · split
    · rfl
    · split <;> rfl

/-- The next frame of a well-framed stream: what is returned of it is what the reference says, and
the rest of the stream is well-framed for the direction after it. -/
theorem Gathers.absorb {isOpen : Bool} {d : Direction} (h : d.Gathers isOpen) {f : Frame}
    {frames : List Frame} (hframed : WellFramed isOpen (f :: frames)) (base : Seq) (off : Nat) :
    ∃ isOpen', WellFramed isOpen' frames ∧ (d.absorb f).1.Gathers isOpen' ∧
      (d.absorb f).1.keepPayloads = d.keepPayloads ∧
      reference d.keepPayloads base off d.block d.dec (f :: frames) =
        (returned base off d f).refFrame ::
          reference d.keepPayloads base (off + f.wire.length) (d.absorb f).1.block
            (d.absorb f).1.dec frames := by
  have hwant : d.wantPayload f.hdr = keepsPayload d.keepPayloads f.hdr := rfl
  unfold WellFramed at hframed
  cases hheader : f.hdr.isHeaderFrame with
  | false =>
      simp only [hheader, Bool.false_eq_true, if_false] at hframed
      obtain ⟨rfl, hrest⟩ := hframed
      obtain ⟨hstate, -⟩ := absorb_without_block d (f := f) (Or.inl hheader)
      refine ⟨false, hrest, by rw [hstate]; exact h, by rw [hstate], ?_⟩
      have hdecoded : ∀ startOff startSeq,
          (d.handleFrame f.hdr f.payload startOff startSeq).2.decoded = none :=
        fun startOff startSeq => (handle_non_header_frame d hheader f.payload startOff startSeq).2
      rw [reference, hstate]
      simp only [hheader, Bool.false_and, Bool.false_eq_true, if_false, Frame.joined,
        Frame.refFrame, returned, hwant]
      cases hkept : keepsPayload d.keepPayloads f.hdr with
      | true => simp only [if_true, handle_frame_shows, hdecoded, Option.map_none]
      | false =>
          simp only [Bool.false_eq_true, if_false]
          rfl
  | true =>
      simp only [hheader, if_true] at hframed
      obtain ⟨hlen, hcontinues, hfragment, hrest⟩ := hframed
      obtain ⟨opened, hadd, hblock, hkeep⟩ := h.add_fragment hcontinues hfragment hheader
      obtain ⟨hopened, hdec, -, hdesynced, -⟩ := add_fragment_open hadd
      have hkept : keepsPayload d.keepPayloads f.hdr = true := want_header_frame d hheader hlen
      have hstate := (absorb_header_frame d hheader hlen).1
      rw [handle_header_frame d hheader, hadd] at hstate
      simp only at hstate
      have hreturned : (returned base off d f).refFrame =
          f.refFrame d.keepPayloads base off
            ((opened.finishIfEnd f.hdr).2.map DecodedBlock.fields) := by
        rw [returned, hwant, hkept, if_pos rfl, handle_frame_shows, handle_header_frame d hheader,
          hadd]
        simp only [Frame.refFrame, hkept, if_true]
      rw [reference, hreturned, hstate]
      simp only [hheader, Bool.true_and]
      cases hend : f.hdr.has Flags.endHeaders with
      | false =>
          simp only [finishIfEnd, hend, Bool.false_eq_true, if_false, Option.map_none, hblock, hdec]
          rw [hend] at hrest
          exact ⟨true, hrest, ⟨hopened, fun hfalse => (Bool.noConfusion hfalse),
            hdesynced.trans h.synced⟩,
            hkeep, trivial⟩
      | true =>
          simp only [finishIfEnd, hend, if_true]
          rw [hend] at hrest
          obtain ⟨bhdr, hbhdr⟩ := Option.isSome_iff_exists.mp hopened
          rcases hfinish : opened.finishBlock with ⟨d', decoded⟩
          rcases finish_block_cases hbhdr hfinish with
            ⟨dec, e, hdecode, rfl, rfl⟩ | ⟨dec, fields, hdecode, rfl, rfl⟩
          · rw [hdec, hblock] at hdecode
            refine ⟨false, hrest, ⟨rfl, fun _ => rfl, hdesynced.trans h.synced⟩, hkeep, ?_⟩
            rw [hdecode]
            rfl
          · rw [hdec, hblock] at hdecode
            refine ⟨false, hrest, ⟨rfl, fun _ => rfl, hdesynced.trans h.synced⟩, hkeep, ?_⟩
            rw [hdecode]
            rfl

/-! ## All frames -/

/-- What is returned for the frames of a well-framed stream is what the reference says. -/
theorem Gathers.returned_all {isOpen : Bool} {d : Direction} (h : d.Gathers isOpen)
    {frames : List Frame} (hframed : WellFramed isOpen frames) (base : Seq) (off : Nat) :
    (returnedAll base off d frames).map ProcessedFrame.refFrame =
      reference d.keepPayloads base off d.block d.dec frames := by
  induction frames generalizing isOpen d off with
  | nil => rfl
  | cons f frames ih =>
      obtain ⟨isOpen', hrest, hgathers, hkeep, href⟩ := h.absorb hframed base off
      rw [href, returnedAll, List.map_cons, ih hgathers hrest, hkeep]

/-- The place is not lost. -/
theorem Gathers.synced_absorbed {isOpen : Bool} {d : Direction} (h : d.Gathers isOpen)
    {frames : List Frame} (hframed : WellFramed isOpen frames) :
    (d.absorbed frames).desynced = false := by
  induction frames generalizing isOpen d with
  | nil => exact h.synced
  | cons f frames ih =>
      obtain ⟨isOpen', hrest, hgathers, -, -⟩ := h.absorb hframed 0 0
      exact ih hgathers hrest

/-! ## Arrivals -/

omit [HuffmanDecoding] in
/-- The bytes that arrive with a segment. -/
def Arrival.covers (arrival : Arrival) (i : Nat) : Prop :=
  match arrival with
  | .segment start len _ => start ≤ i ∧ i < start + len
  | .tick _ => False

instance (arrival : Arrival) (i : Nat) : Decidable (arrival.covers i) :=
  match arrival with
  | .segment start len _ => inferInstanceAs (Decidable (start ≤ i ∧ i < start + len))
  | .tick _ => inferInstanceAs (Decidable False)

/-- Parsing does not change what was delivered. -/
theorem holds_parse {delivery : Delivery} {d : Direction} {k : Nat} (h : delivery.Holds d.reasm k) :
    delivery.Holds d.parse.1.reasm k :=
  reasm_parse (P := fun r => delivery.Holds r k) (fun _ n hr => delivery.consume hr n) h

/-- A direction that was given the bytes `seen` of a stream: it follows the stream, and none of them
was lost. The frames of the source may go on with `more` bytes after the stream. -/
structure Collects (src : Source) (before : Nat → Bytes → Direction → Prop) (lead : Nat)
    (base : Seq)
    (stream more : Bytes) (seen : Nat → Prop) (pfs : List ProcessedFrame) (d : Direction) :
    Prop where
  collected : d.reasm.Collected base stream d.reasm.deliveredOff
  within : d.reasm.deliveredOff ≤ stream.length
  bytes : ∀ i, seen i → d.reasm.HasByte base d.reasm.deliveredOff i
  follows : FollowsAll src before lead d.reasm.deliveredOff
    (stream.drop d.reasm.deliveredOff ++ more) pfs d

section

variable {src : Source} {before : Nat → Bytes → Direction → Prop} {lead : Nat} {base : Seq}
  {stream more : Bytes} {seen : Nat → Prop} {pfs : List ProcessedFrame} {d : Direction}

/-- A slice of the stream that is fed within the window and without a gap. -/
theorem Collects.feed (hkeeps : KeepsPlace src lead stream.length) (hleads : LeadsIn src before)
    (hdelivery : src.delivery = .anyOrder base stream)
    (htotal : stream.length + more.length = lead + (framesWire src.frames).length)
    (h : Collects src before lead base stream more seen pfs d) {a : Nat} {data : Bytes}
    (hslice : data <+: stream.drop a) (hlow : d.reasm.deliveredOff < a + 2 ^ 31)
    (hhigh : a < d.reasm.deliveredOff + 2 ^ 31) (hlength : data.length < 2 ^ 30) (nowUs : Nat)
    (hgap : (d.reasm.push (base + BitVec.ofNat 32 a) data nowUs).2 = false) :
    Collects src before lead base stream more (fun i => seen i ∨ a ≤ i ∧ i < a + data.length)
      (pfs ++ (d.feed (base + BitVec.ofNat 32 a) data nowUs).2)
      (d.feed (base + BitVec.ofNat 32 a) data nowUs).1 := by
  obtain ⟨new, ⟨rest, hrest⟩, hadds⟩ :=
    adds_slice h.collected hslice hlow hhigh hlength nowUs hgap
  set k := d.reasm.deliveredOff with hk
  have hlengths := congrArg List.length hrest
  rw [List.length_append, List.length_drop] at hlengths
  have hwithin := h.within
  have hdrop : stream.drop (k + new.length) = rest := by
    rw [← List.drop_drop, ← hrest, List.drop_left]
  have hbytes := fun i (hi : seen i ∨ a ≤ i ∧ i < a + data.length) =>
    Reassembler.has_byte_push h.collected hlow hhigh hlength nowUs hgap (hi.imp_left (h.bytes i))
  have houtside : (d.feed (base + BitVec.ofNat 32 a) data nowUs).1.reasm.outside =
      (d.reasm.push (base + BitVec.ofNat 32 a) data nowUs).1.outside := by
    rw [Direction.feed, outside_parse, withReassembled, hgap]
    rfl
  have hdelivered : (d.feed (base + BitVec.ofNat 32 a) data nowUs).1.reasm.deliveredOff =
      k + new.length := by
    rw [(Reassembler.reads_of_outside_eq houtside).2.2.2.2.2.2.2.2.1]
    exact (Reassembler.Collected.collecting hadds.holds).deliveredOff
  have hholds : (Delivery.anyOrder base stream).Holds
      (d.feed (base + BitVec.ofNat 32 a) data nowUs).1.reasm (k + new.length) := by
    refine holds_parse ?_
    rw [withReassembled, hgap]
    exact hadds.holds
  refine ⟨?_, ?_, fun i hi => ?_, ?_⟩
  · rw [hdelivered]
    exact hholds
  · rw [hdelivered]
    omega
  · rw [Reassembler.has_byte_congr houtside,
      (Reassembler.reads_of_outside_eq houtside).2.2.2.2.2.2.2.2.1]
    exact hbytes i hi
  · rw [hdelivered, hdrop]
    have hfollows := h.follows
    rw [← hrest, List.append_assoc] at hfollows
    refine follows_all_feed hkeeps hleads (by omega) ?_ hfollows (by rw [hdelivery]; exact hadds)
    rw [List.length_append, List.length_append]
    omega

/-- An arrival. -/
theorem Collects.arrive (hkeeps : KeepsPlace src lead stream.length) (hleads : LeadsIn src before)
    (hdelivery : src.delivery = .anyOrder base stream)
    (htotal : stream.length + more.length = lead + (framesWire src.frames).length)
    (h : Collects src before lead base stream more seen pfs d) (arrival : Arrival)
    (hwindow : d.arrivesInWindow base stream arrival) :
    Collects src before lead base stream more
      (fun i => seen i ∨ arrival.covers i ∧ i < stream.length)
      (pfs ++ (d.arrive base stream arrival).2) (d.arrive base stream arrival).1 := by
  cases arrival with
  | tick nowUs =>
      rw [Direction.arrive, tick_same hwindow, List.append_nil]
      exact ⟨h.collected, h.within, fun i hi => h.bytes i (hi.resolve_right fun hno => hno.1),
        h.follows⟩
  | segment start len nowUs =>
      obtain ⟨hlen, hlow, hhigh, hgap⟩ := hwindow
      have hshort : ((stream.drop start).take len).length < 2 ^ 30 :=
        (List.length_take_le _ _).trans_lt hlen
      have hfed := h.feed hkeeps hleads hdelivery htotal (List.take_prefix _ _) hlow hhigh hshort
        nowUs hgap
      refine ⟨hfed.collected, hfed.within, fun i hi => hfed.bytes i (hi.imp_right ?_), hfed.follows⟩
      rintro ⟨⟨hle, hlt⟩, hin⟩
      refine ⟨hle, ?_⟩
      rw [List.length_take, List.length_drop]
      omega

/-- Any number of arrivals. -/
theorem Collects.arrivals (hkeeps : KeepsPlace src lead stream.length) (hleads : LeadsIn src before)
    (hdelivery : src.delivery = .anyOrder base stream)
    (htotal : stream.length + more.length = lead + (framesWire src.frames).length)
    (h : Collects src before lead base stream more seen pfs d) {arrivals : List Arrival}
    (hwindow : Guarded (Direction.arrive base stream) (arrivesInWindow base stream) d arrivals) :
    Collects src before lead base stream more
      (fun i => seen i ∨ (∃ arrival ∈ arrivals, arrival.covers i) ∧ i < stream.length)
      (pfs ++ (run (Direction.arrive base stream) d arrivals).2.flatten)
      (run (Direction.arrive base stream) d arrivals).1 := by
  induction arrivals generalizing seen pfs d with
  | nil =>
      refine ⟨h.collected, h.within, fun i hi => h.bytes i (hi.resolve_right ?_), by
        simpa using h.follows⟩
      rintro ⟨⟨_, hmem, -⟩, -⟩
      cases hmem
  | cons arrival arrivals ih =>
      obtain ⟨hfirst, hrest⟩ := hwindow
      have hend := ih (h.arrive hkeeps hleads hdelivery htotal arrival hfirst) hrest
      refine ⟨hend.collected, hend.within, fun i hi => hend.bytes i ?_, ?_⟩
      · rcases hi with hseen | ⟨⟨a, hmem, hcovers⟩, hin⟩
        · exact Or.inl (Or.inl hseen)
        · rcases List.mem_cons.mp hmem with rfl | hmem
          · exact Or.inl (Or.inr ⟨hcovers, hin⟩)
          · exact Or.inr ⟨⟨a, hmem, hcovers⟩, hin⟩
      · simp only [run, List.flatten_cons, ← List.append_assoc]
        exact hend.follows

/-- Once all bytes have arrived, all frames were returned. -/
theorem Collects.complete (h : Collects src before lead base stream [] seen pfs d)
    (hall : ∀ i < stream.length, seen i) (hstarted : ∀ k d, ¬ before k [] d) :
    pfs = returnedAll src.delivery.base lead src.start src.frames := by
  have hdelivered := Reassembler.delivered_of_all fun i hi => h.bytes i (hall i hi)
  have hfollows := h.follows
  rw [List.drop_eq_nil_of_le hdelivered, List.append_nil] at hfollows
  exact (follows_all_end hfollows (hstarted _ _)).1

end

/-! ## Watched from the SYN -/

omit [HuffmanDecoding] in
/-- Every byte of the stream is in one of the segments. -/
def Covers (stream : Bytes) (arrivals : List Arrival) : Prop :=
  ∀ i < stream.length, ∃ arrival ∈ arrivals, arrival.covers i

instance (stream : Bytes) (arrivals : List Arrival) : Decidable (Covers stream arrivals) :=
  inferInstanceAs (Decidable (∀ i < stream.length, ∃ arrival ∈ arrivals, arrival.covers i))

/-- `from_connection_start` with the SYN noted. -/
def connected (keepPayloads expectPreface : Bool) (isn : Seq) : Direction :=
  { fromConnectionStart keepPayloads expectPreface with reasm := Reassembler.new.noteSyn isn }

/-- What is returned for a stream that is watched from its SYN, in any order and cut anyhow. -/
theorem watched_returns {keepPayloads hasPreface : Bool} {isn : Seq} {frames : List Frame}
    (hframed : WellFramed false frames) {stream : Bytes}
    (hstream : stream = leadBytes hasPreface ++ framesWire frames) {arrivals : List Arrival}
    (hwindow : Guarded (arrive (isn + 1) stream) (arrivesInWindow (isn + 1) stream)
      (connected keepPayloads hasPreface isn) arrivals) (hcovers : Covers stream arrivals) :
    (run (arrive (isn + 1) stream) (connected keepPayloads hasPreface isn) arrivals).2.flatten =
      returnedAll (isn + 1) (leadBytes hasPreface).length
        (connected keepPayloads false isn) frames := by
  let src : Source := ⟨connected keepPayloads false isn, frames, .anyOrder (isn + 1) stream⟩
  let before : Nat → Bytes → Direction → Prop := fun k rest d =>
    hasPreface = true ∧ AwaitsPreface src k rest d
  have hgathers : (connected keepPayloads false isn).Gathers false := ⟨rfl, fun _ => rfl, rfl⟩
  have hkeeps : KeepsPlace src (leadBytes hasPreface).length stream.length := fun j _ _ =>
    hgathers.synced_absorbed (hframed.take j)
  have hleads : LeadsIn src before := by
    intro k data rest d pushed hbefore hadds
    rcases awaits_preface_leads rfl hbefore.2 hadds with ⟨hnone, hawaits⟩ | hreads
    · exact Or.inl ⟨hnone, hbefore.1, hawaits⟩
    · exact Or.inr hreads
  have hlength : stream.length + ([] : Bytes).length =
      (leadBytes hasPreface).length + (framesWire frames).length := by
    rw [hstream, List.length_append, List.length_nil, Nat.add_zero]
  have hcollected := Reassembler.collected_note_syn isn stream
  have hstart : Collects src before (leadBytes hasPreface).length (isn + 1) stream []
      (fun _ => False) [] (connected keepPayloads hasPreface isn) := by
    refine ⟨hcollected, Nat.zero_le _, fun i hi => hi.elim, ?_⟩
    have hbytes : (connected keepPayloads hasPreface isn).reasm.available ++ (stream ++ []) =
        leadBytes hasPreface ++ framesWire frames := by
      rw [List.append_nil]
      exact hstream
    cases hasPreface with
    | true =>
        refine Or.inl ⟨⟨rfl, rfl, hbytes, ?_, hcollected⟩, rfl⟩
        rw [preface_length]
        exact Nat.succ_pos 23
    | false =>
        refine Or.inr ⟨0, reads_start rfl rfl hbytes hcollected, ?_, rfl⟩
        have hdiscard : ¬ (connected keepPayloads false isn).discard > 0 := Nat.lt_irrefl 0
        rw [Settled, if_neg hdiscard]
        split
        · trivial
        · exact Or.inl (Nat.succ_pos 8)
  have hend := hstart.arrivals hkeeps hleads rfl hlength hwindow
  refine hend.complete (fun i hi => Or.inr ⟨hcovers i hi, hi⟩) ?_
  rintro k d ⟨-, hawaits⟩
  have hbytes := congrArg List.length hawaits.bytes
  have hshort := hawaits.short
  rw [List.length_append, List.length_append, List.length_nil] at hbytes
  omega

/-- Whatever the segments of a well-framed stream and whatever the order in which they arrive, once
all bytes have arrived a direction has returned the reference split of the stream. What it has
returned in all depends on the stream only. -/
theorem arrivals_split (keepPayloads hasPreface : Bool) (isn : Seq) {frames : List Frame}
    (hframed : WellFramed false frames) {stream : Bytes}
    (hstream : stream = leadBytes hasPreface ++ framesWire frames) :
    ∃ pfs : List ProcessedFrame,
      pfs.map ProcessedFrame.refFrame =
        reference keepPayloads (isn + 1) (leadBytes hasPreface).length [] .newExact frames ∧
      ∀ arrivals : List Arrival,
        Guarded (arrive (isn + 1) stream) (arrivesInWindow (isn + 1) stream)
          (connected keepPayloads hasPreface isn) arrivals →
        Covers stream arrivals →
        (run (arrive (isn + 1) stream) (connected keepPayloads hasPreface isn) arrivals).2.flatten =
          pfs := by
  have hgathers : (connected keepPayloads false isn).Gathers false := ⟨rfl, fun _ => rfl, rfl⟩
  exact ⟨_, hgathers.returned_all hframed _ _,
    fun arrivals hwindow hcovers => watched_returns hframed hstream hwindow hcovers⟩

end Direction

/-- An empty SETTINGS frame, and a header block that is cut in two. -/
def splitBlockFrames : List Frame :=
  [⟨[0, 0, 0, 4, 0, 0, 0, 0, 0], ⟨0, 4, 0, 0⟩, [], by decide, by decide, by decide⟩,
    ⟨[0, 0, 1, 1, 0, 0, 0, 0, 1], ⟨1, 1, 0, 1⟩, [0x82], by decide, by decide, by decide⟩,
    ⟨[0, 0, 1, 9, 4, 0, 0, 0, 1], ⟨1, 9, 4, 1⟩, [0x86], by decide, by decide, by decide⟩]

/-- The stream of a client with these frames. -/
def splitBlockStream : Bytes := preface ++ framesWire splitBlockFrames

/-- Its segments in the wrong order, with an overlap. -/
def splitBlockArrivals : List Direction.Arrival :=
  [.segment 30 23 0, .segment 20 12 0, .tick 1, .segment 0 25 2]

/-- The frames are those of the reference, although the sequence numbers wrap and the last segment
comes first. -/
theorem arrivals_split_wrapping :
    let _ := noHuffman.toHuffmanDecoding
    (run (Direction.arrive (0xfffffff0 + 1) splitBlockStream)
        (Direction.connected true true 0xfffffff0) splitBlockArrivals).2.flatten.map
          ProcessedFrame.refFrame =
      reference true (0xfffffff0 + 1) (leadBytes true).length [] .newExact splitBlockFrames := by
  intro _
  have hframed : WellFramed false splitBlockFrames := by decide
  have hstream : splitBlockStream = leadBytes true ++ framesWire splitBlockFrames := rfl
  obtain ⟨pfs, href, hall⟩ := Direction.arrivals_split true true 0xfffffff0 hframed hstream
  rw [hall splitBlockArrivals (by decide +kernel) (by decide +kernel)]
  exact href

end H2Tap
