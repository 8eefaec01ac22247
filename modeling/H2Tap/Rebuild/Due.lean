import H2Tap.Conn.CompleteFrames
import H2Tap.Conn.FromStart
import H2Tap.Rebuild.Encode

/-!
# What has to be written for some frames

A rebuilt direction carries a frame as it is, and a header block as one item in the place of the
frame that ends it. `dueOf` says what is due for some frames, `Shows` which item shows it. A
direction at a frame boundary writes what is due for all complete frames that it has, or reports a
loss, as long as `BlocksWhole` holds of them (`parse_shows`).
-/

namespace H2Tap

open Lib

/-! ## What is due -/

/-- A header block: the header of its first frame, and the fragments that were gathered. -/
structure Fragments where
  hdr : FrameHeader
  bytes : Bytes
  deriving DecidableEq

/-- What is due for some frames: a frame as it is, or a header block. A block that no frame ends
cannot be written. -/
inductive Due where
  | frame (f : Frame)
  | block (b : Fragments)
  | unfinished (b : Fragments)

/-- What is due for the frame that adds the last fragment of `b` so far: the block, if the frame
ends it. -/
def endBlock (f : Frame) (b : Fragments) : Option Fragments × List Due :=
  if f.hdr.has Flags.endHeaders then (none, [.block b]) else (some b, [])

/-- What is due for a frame, after a block that was begun. A frame without a proper place in a block
is due as it is. -/
def collect (begun : Option Fragments) (f : Frame) : Option Fragments × List Due :=
  if f.hdr.isHeaderFrame then
    match f.fragment with
    | none => (begun, [.frame f])
    | some frag =>
        if f.hdr.typ = FrameType.continuation then
          match begun with
          | none => (none, [.frame f])
          | some b => endBlock f ⟨b.hdr, b.bytes ++ frag⟩
        else
          -- a block that was still open is given up
          let ended := endBlock f ⟨f.hdr, frag⟩
          (ended.1, begun.toList.map .unfinished ++ ended.2)
  else (begun, [.frame f])

/-- The block that some frames leave unfinished. -/
def openBlock (frames : List Frame) : Option Fragments := (run collect none frames).1

/-- What is due for some frames. -/
def dueOf (frames : List Frame) : List Due :=
  (run collect none frames).2.flatten ++ (openBlock frames).toList.map .unfinished

/-- Header blocks are whole: their frames are validly padded, a CONTINUATION continues a block, and
no block begins while another one is open. Frames that cannot be buffered are not looked at, nor is
what comes after them. -/
def BlocksWhole : Bool → List Frame → Prop
  | _, [] => True
  | isOpen, f :: frames => f.hdr.len ≤ maxBufferedFrame →
      if f.hdr.isHeaderFrame then
        (f.hdr.typ = FrameType.continuation ↔ isOpen = true) ∧ f.fragment.isSome = true ∧
          BlocksWhole (!f.hdr.has Flags.endHeaders) frames
      else BlocksWhole isOpen frames

instance BlocksWhole.decidable : ∀ isOpen frames, Decidable (BlocksWhole isOpen frames)
  | _, [] => isTrue trivial
  | isOpen, f :: frames =>
      have := BlocksWhole.decidable (!f.hdr.has Flags.endHeaders) frames
      have := BlocksWhole.decidable isOpen frames
      inferInstanceAs (Decidable (_ → if f.hdr.isHeaderFrame = true then _ else _))

/-- The item shows what is due: the same frame, or the block with what its fragments decode to. -/
def Shows [HuffmanDecoding] : Due → Normalized → Prop
  | .frame f, .frame hdr payload => hdr = f.hdr ∧ payload = f.payload
  | .block b, .block blk =>
      blk.streamId = b.hdr.streamId ∧ blk.endStream = b.hdr.has Flags.endStream ∧
        (blk.kind = .pushPromise ↔ b.hdr.typ = FrameType.pushPromise) ∧
        ∃ dec : Decoder, (dec.decode b.bytes).2 = .ok blk.fields
  | _, _ => False

namespace Direction

/-! ## One frame -/

/-- The block that the direction has open. -/
structure HasOpen (begun : Option Fragments) (d : Direction) : Prop where
  blockHdr : d.blockHdr = begun.map Fragments.hdr
  block : d.block = (begun.map Fragments.bytes).getD []

/-- The direction stands at a frame boundary and keeps payloads. -/
structure AtBoundary (d : Direction) : Prop where
  discard : d.discard = 0
  pending : d.pendingStartSeq = none
  synced : d.desynced = false
  preface : d.expectPreface = false
  keeps : d.keepPayloads = true

variable {d : Direction} {f : Frame} {begun : Option Fragments}

/-- The fragment of a frame is added to its block. -/
theorem HasOpen.add_fragment (h : d.HasOpen begun) {frag : Bytes} (hfrag : f.fragment = some frag)
    (hplace : f.hdr.typ = FrameType.continuation ↔ begun.isSome = true) :
    ∃ opened b, d.addFragment f.hdr f.payload = some opened ∧ opened.HasOpen (some b) ∧
      opened.dec = d.dec ∧ opened.decodeErrors = d.decodeErrors ∧ opened.desynced = d.desynced ∧
      opened.openStreams = d.openStreams ∧
      (f.hdr.isHeaderFrame = true → collect begun f = endBlock f b) := by
  unfold addFragment
  unfold Frame.fragment at hfrag
  cases begun with
  | some b =>
      -- a CONTINUATION goes on with the open block
      have hcontinuation := hplace.mpr rfl
      rw [if_pos hcontinuation] at hfrag ⊢
      obtain rfl := Option.some.inj hfrag
      have hsome : d.blockHdr.isNone = false := by rw [h.blockHdr]; rfl
      rw [hsome, if_neg Bool.false_ne_true]
      refine ⟨_, ⟨b.hdr, b.bytes ++ f.payload⟩, rfl, ⟨h.blockHdr, ?_⟩, rfl, rfl, rfl, rfl, ?_⟩
      · show d.block ++ f.payload = _
        rw [h.block]
        rfl
      · intro hheader
        simp only [collect, hheader, if_true, Frame.fragment, hcontinuation]
  | none =>
      -- HEADERS and PUSH_PROMISE begin one
      have hbegins : f.hdr.typ ≠ FrameType.continuation := fun heq => by
        have hsome := hplace.mp heq
        cases hsome
      rw [if_neg hbegins] at hfrag ⊢
      have hnone : d.blockHdr.isSome = false := by rw [h.blockHdr]; rfl
      have hdrop : d.dropOpenBlock = d := by
        rw [dropOpenBlock, hnone, if_neg Bool.false_ne_true]
      have hnote : (d.notePromised f.hdr f.payload).block = d.block ∧
          (d.notePromised f.hdr f.payload).dec = d.dec ∧
          (d.notePromised f.hdr f.payload).decodeErrors = d.decodeErrors ∧
          (d.notePromised f.hdr f.payload).desynced = d.desynced ∧
          (d.notePromised f.hdr f.payload).openStreams = d.openStreams := by
        unfold notePromised
        split
        · split <;> exact ⟨rfl, rfl, rfl, rfl, rfl⟩
        · exact ⟨rfl, rfl, rfl, rfl, rfl⟩
      obtain ⟨hblock, hdec, herrors, hdesynced, hstreams⟩ := hnote
      rw [hfrag, Option.map_some, hdrop]
      refine ⟨_, ⟨f.hdr, frag⟩, rfl, ⟨rfl, ?_⟩, hdec, herrors, hdesynced, hstreams, ?_⟩
      · show (d.notePromised f.hdr f.payload).block ++ frag = frag
        rw [hblock, h.block]
        rfl
      · intro hheader
        simp only [collect, hheader, if_true, Frame.fragment, hbegins, if_false, hfrag]
        rfl

variable [HuffmanDecoding]

/-- The frame that ends a block returns the block, unless it does not decode. -/
theorem HasOpen.finish_shows {opened : Direction} {b : Fragments} (h : opened.HasOpen (some b)) :
    (opened.finishIfEnd f.hdr).1.decodeErrors = opened.decodeErrors + 1 ∨
      (opened.finishIfEnd f.hdr).1.HasOpen (endBlock f b).1 ∧
        (opened.finishIfEnd f.hdr).1.desynced = opened.desynced ∧
        List.Forall₂ Shows (endBlock f b).2
          ((opened.finishIfEnd f.hdr).2.map Normalized.block).toList := by
  unfold finishIfEnd endBlock
  cases hend : f.hdr.has Flags.endHeaders with
  | false => exact Or.inr ⟨h, rfl, .nil⟩
  | true =>
      rw [if_pos rfl, if_pos rfl]
      have hopen : opened.blockHdr = some b.hdr := h.blockHdr
      have hblock : opened.block = b.bytes := h.block
      rcases hfinish : opened.finishBlock with ⟨d', decoded⟩
      rcases finish_block_cases hopen hfinish with
        ⟨dec, e, -, -, rfl⟩ | ⟨dec, fields, hdecode, rfl, rfl⟩
      · exact Or.inl rfl
      · refine Or.inr ⟨⟨rfl, rfl⟩, rfl, .cons ⟨rfl, rfl, ?_, opened.dec, ?_⟩ .nil⟩
        · show opened.blockKind b.hdr = .pushPromise ↔ _
          unfold blockKind
          split
          · next hpromise => exact iff_of_true rfl hpromise
          · next hother =>
              refine iff_of_false ?_ hother
              split <;> exact BlockKind.noConfusion
        · rw [← hblock, hdecode]

/-- A frame that carries no header block is returned as it is. -/
theorem normalize_other (hheader : f.hdr.isHeaderFrame = false) (startOff : Nat) (startSeq : Seq) :
    normalize (d.handleFrame f.hdr f.payload startOff startSeq).2 =
      some (.frame f.hdr f.payload) := by
  have hnone : f.hdr.typ ≠ FrameType.headers ∧ f.hdr.typ ≠ FrameType.continuation ∧
      f.hdr.typ ≠ FrameType.pushPromise := by
    simpa [FrameHeader.isHeaderFrame, and_assoc] using hheader
  unfold handleFrame
  split
  · rfl
  · rw [if_neg (by tauto), if_neg hnone.2.1]
    rfl

/-- Handling a frame in its place writes what is due for it, unless a block does not decode. -/
theorem HasOpen.handle_shows (h : d.HasOpen begun) (hsynced : d.desynced = false)
    (hplace : f.hdr.isHeaderFrame = true →
      (f.hdr.typ = FrameType.continuation ↔ begun.isSome = true) ∧ f.fragment.isSome = true)
    (startOff : Nat) (startSeq : Seq) :
    let handled := d.handleFrame f.hdr f.payload startOff startSeq
    handled.1.decodeErrors = d.decodeErrors + 1 ∨
      handled.1.HasOpen (collect begun f).1 ∧ handled.1.desynced = false ∧
        List.Forall₂ Shows (collect begun f).2 (normalize handled.2).toList := by
  intro handled
  cases hheader : f.hdr.isHeaderFrame with
  | false =>
      have hsame : handled.1 = d :=
        (handle_non_header_frame d hheader f.payload startOff startSeq).1
      have hdue : collect begun f = (begun, [.frame f]) := by
        rw [collect, hheader, if_neg Bool.false_ne_true]
      rw [hsame, hdue, normalize_other hheader]
      exact Or.inr ⟨h, hsynced, .cons ⟨rfl, rfl⟩ .nil⟩
  | true =>
      obtain ⟨hcontinues, hsome⟩ := hplace hheader
      obtain ⟨frag, hfrag⟩ := Option.isSome_iff_exists.mp hsome
      obtain ⟨opened, b, hadd, hopened, -, herrors, hdesynced, -, hdue⟩ :=
        h.add_fragment hfrag hcontinues
      have hhandled : handled = ((opened.finishIfEnd f.hdr).1,
          ⟨f.hdr, f.payload, startOff, startSeq, (opened.finishIfEnd f.hdr).2, true, false,
            none⟩) := by
        show d.handleFrame f.hdr f.payload startOff startSeq = _
        rw [handle_header_frame d hheader, hadd]
      rw [hhandled, hdue hheader, ← herrors]
      exact hopened.finish_shows.imp_right fun ⟨hopen, hplace, hshows⟩ =>
        ⟨hopen, hplace.trans (hdesynced.trans hsynced), hshows⟩

/-! ## All complete frames -/

omit [HuffmanDecoding] in
/-- The first of some whole blocks stands in its place, and the others are whole after it. -/
theorem next_of_blocks_whole {frames : List Frame}
    (h : BlocksWhole begun.isSome (f :: frames)) (hlen : f.hdr.len ≤ maxBufferedFrame) :
    (f.hdr.isHeaderFrame = true →
        (f.hdr.typ = FrameType.continuation ↔ begun.isSome = true) ∧ f.fragment.isSome = true) ∧
      BlocksWhole (collect begun f).1.isSome frames := by
  have hnext := h hlen
  cases hheader : f.hdr.isHeaderFrame with
  | false =>
      rw [hheader, if_neg Bool.false_ne_true] at hnext
      refine ⟨fun hfalse => Bool.noConfusion hfalse, ?_⟩
      rwa [collect, hheader, if_neg Bool.false_ne_true]
  | true =>
      rw [hheader, if_pos rfl] at hnext
      obtain ⟨hcontinues, hsome, hrest⟩ := hnext
      refine ⟨fun _ => ⟨hcontinues, hsome⟩, ?_⟩
      have hended : ∃ b, (collect begun f).1 = (endBlock f b).1 := by
        obtain ⟨frag, hfrag⟩ := Option.isSome_iff_exists.mp hsome
        by_cases hcontinuation : f.hdr.typ = FrameType.continuation
        · obtain ⟨b, rfl⟩ := Option.isSome_iff_exists.mp (hcontinues.mp hcontinuation)
          simp only [collect, hheader, hfrag, hcontinuation, if_true]
          exact ⟨_, rfl⟩
        · simp only [collect, hheader, hfrag, hcontinuation, if_true, if_false]
          exact ⟨_, rfl⟩
      obtain ⟨b, hb⟩ := hended
      rw [hb, endBlock]
      cases hend : f.hdr.has Flags.endHeaders with
      | false => rwa [hend] at hrest
      | true => rwa [hend] at hrest

/-- What the loop of `parse` does with the frames of a direction that reports no loss: it writes
what is due for the complete ones, and stops in front of the first incomplete one. -/
structure WritesDue (begun : Option Fragments) (d : Direction) : Prop where
  boundary : d.parse.1.AtBoundary
  hasOpen : d.parse.1.HasOpen (run collect begun (completeFrames d.reasm.available)).1
  bytes : d.reasm.available =
    framesWire (completeFrames d.reasm.available) ++ d.parse.1.reasm.available
  incomplete : completeFrames d.parse.1.reasm.available = []
  small : ∀ f ∈ completeFrames d.reasm.available, f.hdr.len ≤ maxBufferedFrame
  shows_due : List.Forall₂ Shows (run collect begun (completeFrames d.reasm.available)).2.flatten
    (d.parse.2.filterMap normalize)

/-- A dropped frame or a block that does not decode. -/
def ReportsLoss (d : Direction) : Prop :=
  (∃ pf ∈ d.parse.2, pf.truncated = true) ∨ d.decodeErrors < d.parse.1.decodeErrors

omit [HuffmanDecoding] in
/-- Blocks that are whole after some frames. -/
theorem blocks_whole_after {frames later : List Frame}
    (h : BlocksWhole begun.isSome (frames ++ later))
    (hsmall : ∀ f ∈ frames, f.hdr.len ≤ maxBufferedFrame) :
    BlocksWhole (run collect begun frames).1.isSome later := by
  induction frames generalizing begun with
  | nil => exact h
  | cons f frames ih =>
      obtain ⟨hfirst, hrest⟩ := List.forall_mem_cons.mp hsmall
      exact ih (next_of_blocks_whole h hfirst).2 hrest

omit [HuffmanDecoding] in
theorem complete_frames_of_parse {bytes : Bytes} {hdr : FrameHeader}
    (hparse : FrameHeader.parse bytes = some hdr)
    (hlen : frameHeaderLen + hdr.len ≤ bytes.length) :
    completeFrames bytes = Frame.first bytes hparse hlen ::
      completeFrames (bytes.drop (frameHeaderLen + hdr.len)) := by
  have hsplit : bytes =
      (Frame.first bytes hparse hlen).wire ++ bytes.drop (frameHeaderLen + hdr.len) := by
    rw [Frame.first_wire, List.take_append_drop]
  conv_lhs => rw [hsplit]
  exact complete_frames_cons _ _

/-- A turn at a frame boundary steps over a frame that is too large, and takes a complete one. -/
theorem AtBoundary.parse_step (h : d.AtBoundary) : d.parseStep =
    match FrameHeader.parse d.reasm.available with
    | none => .stop d
    | some hdr =>
        if hdr.len ≤ maxBufferedFrame then
          if d.reasm.available.length < frameHeaderLen + hdr.len then .stop d
          else .more (d.takeFrame hdr).1 (some (d.takeFrame hdr).2)
        else .more (d.skipFrame hdr).1 (some (d.skipFrame hdr).2) := by
  have hstep : d.parseStep = d.frameStep := by
    rw [parseStep, h.discard, h.pending, h.synced, h.preface]
    rfl
  rw [hstep, frameStep]
  cases FrameHeader.parse d.reasm.available with
  | none => rfl
  | some hdr =>
      have hwant : d.wantPayload hdr = decide (hdr.len ≤ maxBufferedFrame) := by
        rw [wantPayload, h.keeps, Bool.true_or, Bool.true_or, Bool.true_and]
      simp only [hwant, decide_eq_true_eq]

/-- A direction that stands in front of an incomplete frame stays there. -/
theorem writes_due_of_stop (hat : d.AtBoundary) (hopen : d.HasOpen begun)
    (hturn : d.parseStep = .stop d) (hnone : completeFrames d.reasm.available = []) :
    d.WritesDue begun := by
  have hparse := parse_of_stop hturn
  constructor
  · rw [hparse]
    exact hat
  · rw [hparse, hnone]
    exact hopen
  · rw [hparse, hnone, frames_wire_nil, List.nil_append]
  · rw [hparse]
    exact hnone
  · rw [hnone]
    exact fun f hf => absurd hf List.not_mem_nil
  · rw [hparse, hnone]
    exact .nil

/-- A frame that is too large is dropped. -/
theorem reports_loss_of_skip (hat : d.AtBoundary) {hdr : FrameHeader}
    (hparse : FrameHeader.parse d.reasm.available = some hdr)
    (hlarge : ¬hdr.len ≤ maxBufferedFrame) : d.ReportsLoss := by
  have hturn := hat.parse_step
  rw [hparse] at hturn
  simp only [if_neg hlarge] at hturn
  refine Or.inl ⟨(d.skipFrame hdr).2, ?_, rfl⟩
  rw [parse_of_more hturn]
  exact List.mem_cons_self

/-- A complete frame in its place is taken, with what is due for it, unless a block does not
decode. -/
theorem AtBoundary.take_shows (hat : d.AtBoundary) (hopen : d.HasOpen begun) {hdr : FrameHeader}
    (hparse : FrameHeader.parse d.reasm.available = some hdr)
    (hlen : frameHeaderLen + hdr.len ≤ d.reasm.available.length)
    (hf : f = Frame.first d.reasm.available hparse hlen)
    (hplace : f.hdr.isHeaderFrame = true →
      (f.hdr.typ = FrameType.continuation ↔ begun.isSome = true) ∧ f.fragment.isSome = true) :
    (d.takeFrame hdr).1.decodeErrors = d.decodeErrors + 1 ∨
      (d.takeFrame hdr).1.AtBoundary ∧ (d.takeFrame hdr).1.HasOpen (collect begun f).1 ∧
        List.Forall₂ Shows (collect begun f).2 (normalize (d.takeFrame hdr).2).toList := by
  set moved : Direction := { d with
    reasm := d.reasm.consume (frameHeaderLen + hdr.len), frames := d.frames + 1 } with hmoved
  have htaken : d.takeFrame hdr =
      moved.handleFrame f.hdr f.payload d.reasm.offset d.reasm.nextUnparsedSeq := by
    subst hf
    rfl
  have hsame := same_position_handle_frame moved f.hdr f.payload d.reasm.offset
    d.reasm.nextUnparsedSeq
  have hshows := HasOpen.handle_shows (d := moved) ⟨hopen.blockHdr, hopen.block⟩ hat.synced hplace
    d.reasm.offset d.reasm.nextUnparsedSeq
  rw [← htaken] at hsame hshows
  refine hshows.imp_right fun ⟨hopen', hsynced, hshown⟩ => ⟨?_, hopen', hshown⟩
  exact ⟨hsame.discard.trans hat.discard, hsame.pendingStartSeq.trans hat.pending, hsynced,
    hsame.expectPreface.trans hat.preface, hsame.keepPayloads.trans hat.keeps⟩

/-- One more frame in front. -/
theorem WritesDue.cons {d' : Direction} {pf : ProcessedFrame} (h : d'.WritesDue (collect begun f).1)
    (hturn : d.parseStep = .more d' (some pf))
    (hframes : completeFrames d.reasm.available = f :: completeFrames d'.reasm.available)
    (hbytes : d.reasm.available = f.wire ++ d'.reasm.available)
    (hsmall : f.hdr.len ≤ maxBufferedFrame)
    (hshown : List.Forall₂ Shows (collect begun f).2 (normalize pf).toList) :
    d.WritesDue begun := by
  have hparse := parse_of_more hturn
  have hrun : run collect begun (f :: completeFrames d'.reasm.available) =
      ((run collect (collect begun f).1 (completeFrames d'.reasm.available)).1,
        (collect begun f).2 ::
          (run collect (collect begun f).1 (completeFrames d'.reasm.available)).2) := rfl
  constructor
  · rw [hparse]
    exact h.boundary
  · rw [hparse, hframes, hrun]
    exact h.hasOpen
  · rw [hparse, hframes, frames_wire_cons, List.append_assoc, ← h.bytes]
    exact hbytes
  · rw [hparse]
    exact h.incomplete
  · rw [hframes]
    exact List.forall_mem_cons.mpr ⟨hsmall, h.small⟩
  · rw [hparse, hframes, hrun]
    simp only [Option.toList_some, List.singleton_append, List.flatten_cons]
    rw [← List.singleton_append, List.filterMap_append]
    have hfirst : [pf].filterMap normalize = (normalize pf).toList := by
      cases hpf : normalize pf <;> simp [hpf]
    rw [hfirst]
    exact List.rel_append hshown h.shows_due

/-- A direction at a frame boundary, whose complete frames have whole blocks, writes what is due for
them or reports a loss. -/
theorem parse_shows (hat : d.AtBoundary) (hopen : d.HasOpen begun)
    (hwhole : BlocksWhole begun.isSome (completeFrames d.reasm.available)) :
    d.ReportsLoss ∨ d.WritesDue begun := by
  induction hbytes : d.reasm.available using completeFrames.induct generalizing d begun with
  | case1 bytes hparse =>
      -- not even a frame header
      subst hbytes
      have hturn := hat.parse_step
      rw [hparse] at hturn
      refine Or.inr (writes_due_of_stop hat hopen hturn (complete_frames_of_short ?_))
      intro hdr hsome
      rw [hparse] at hsome
      cases hsome
  | case2 bytes hdr hparse hlen ih =>
      -- a complete frame: what is due for it is written, and the others come after it
      subst hbytes
      by_cases hsmall : hdr.len ≤ maxBufferedFrame
      swap
      · exact Or.inl (reports_loss_of_skip hat hparse hsmall)
      have hturn := hat.parse_step
      rw [hparse] at hturn
      simp only [if_pos hsmall, if_neg (not_lt.mpr hlen)] at hturn
      have hframes := complete_frames_of_parse hparse hlen
      have havailable : (d.takeFrame hdr).1.reasm.available =
          d.reasm.available.drop (frameHeaderLen + hdr.len) := by
        rw [take_frame_eq]
        exact Reassembler.available_consume _ _
      rw [hframes] at hwhole
      obtain ⟨hplace, hrest⟩ := next_of_blocks_whole hwhole hsmall
      rw [← havailable] at hframes hrest
      rcases hat.take_shows hopen hparse hlen rfl hplace with herror | ⟨hat', hopen', hshown⟩
      · refine Or.inl (Or.inr ?_)
        have hmore := decode_errors_parse (d.takeFrame hdr).1
        rw [parse_of_more hturn]
        exact lt_of_lt_of_le (by rw [herror]; exact Nat.lt_succ_self _) hmore
      · rcases ih hat' hopen' hrest havailable with (⟨pf, hpf, htruncated⟩ | herror) | hwrites
        · refine Or.inl (Or.inl ⟨pf, ?_, htruncated⟩)
          rw [parse_of_more hturn]
          exact List.mem_append_right _ hpf
        · refine Or.inl (Or.inr ?_)
          have hmore := decode_errors_parse_step d
          rw [hturn] at hmore
          rw [parse_of_more hturn]
          exact lt_of_le_of_lt hmore herror
        · refine Or.inr (hwrites.cons hturn hframes ?_ hsmall hshown)
          rw [havailable, Frame.first_wire, List.take_append_drop]
  | case3 bytes hdr hparse hlen =>
      -- an incomplete frame stays in the buffer, unless it is too large to be buffered
      subst hbytes
      by_cases hsmall : hdr.len ≤ maxBufferedFrame
      · have hturn := hat.parse_step
        rw [hparse] at hturn
        simp only [if_pos hsmall, if_pos (not_le.mp hlen)] at hturn
        refine Or.inr (writes_due_of_stop hat hopen hturn (complete_frames_of_short ?_))
        intro hdr' hsome
        obtain rfl := Option.some.inj (hparse.symm.trans hsome)
        exact not_le.mp hlen
      · exact Or.inl (reports_loss_of_skip hat hparse hsmall)

end Direction

end H2Tap
