import H2Tap.Conn.CompleteFrames
import H2Tap.Conn.HeaderLedger
import H2Tap.Hpack.Lowered
import H2Tap.Reassembly.Backed

/-!
# A direction that is read from its first byte

`headerBlocks` says which header blocks a byte string carries: those of its complete frames, after
the client preface if there is one. A direction that was watched from the start, and has had no gap,
has handed just the blocks of the bytes that it has read to its decoder (`Stands`), so the decoder
has the table of these bytes (`KnowsTable`). What happens between two turns of the parser is
`KnowsTable.turn`; a direction that finds something wrong poisons itself instead.
-/

namespace H2Tap

open Lib

/-! ## The header blocks of a byte string -/

/-- The header blocks of some frames: the complete ones, and the one that is begun. -/
structure Blocks where
  complete : List Bytes
  last : Bytes

/-- The blocks with one more frame. -/
def Blocks.add (blocks : Blocks) (f : Frame) : Blocks :=
  if f.hdr.isHeaderFrame && f.hdr.has Flags.endHeaders then
    ⟨blocks.complete ++ [f.joined blocks.last], []⟩
  else ⟨blocks.complete, f.joined blocks.last⟩

def frameBlocks (frames : List Frame) : Blocks := frames.foldl Blocks.add ⟨[], []⟩

theorem frame_blocks_concat (frames : List Frame) (f : Frame) :
    frameBlocks (frames ++ [f]) = (frameBlocks frames).add f := by
  simp [frameBlocks]

/-- The bytes after the preface, if it comes first. -/
def afterPreface (hasPreface : Bool) (stream : Bytes) : Bytes :=
  if hasPreface && preface.isPrefixOf stream then stream.drop preface.length else stream

/-- The header blocks that a byte string carries. -/
def headerBlocks (hasPreface : Bool) (stream : Bytes) : List Bytes :=
  (frameBlocks (completeFrames (afterPreface hasPreface stream))).complete

/-- A frame that is cut off is not complete. -/
theorem complete_frames_of_short {tail : Bytes}
    (hshort : ∀ hdr ∈ FrameHeader.parse tail, tail.length < frameHeaderLen + hdr.len) :
    completeFrames tail = [] := by
  rw [completeFrames]
  split
  · rfl
  · next hdr hparse =>
      rw [dif_neg]
      exact not_le.mpr (hshort hdr hparse)

/-- A frame that comes first is the first one. -/
theorem complete_frames_cons (f : Frame) (rest : Bytes) :
    completeFrames (f.wire ++ rest) = f :: completeFrames rest := by
  have hparse : FrameHeader.parse (f.wire ++ rest) = some f.hdr := by
    rw [Frame.wire, List.append_assoc]
    exact FrameHeader.parse_append f.parse_eq _
  have hlen : frameHeaderLen + f.hdr.len ≤ (f.wire ++ rest).length := by
    rw [List.length_append, f.wire_length]
    exact Nat.le_add_right _ _
  have hrest : (f.wire ++ rest).drop (frameHeaderLen + f.hdr.len) = rest := by
    rw [← f.wire_length, List.drop_left]
  have hfirst : Frame.first (f.wire ++ rest) hparse hlen = f := by
    have hhead : (f.wire ++ rest).take frameHeaderLen = f.head := by
      rw [Frame.wire, List.append_assoc, ← f.head_length, List.take_left]
    have hpayload : ((f.wire ++ rest).drop frameHeaderLen).take f.hdr.len = f.payload := by
      rw [Frame.wire, List.append_assoc, ← f.head_length, List.drop_left, ← f.payload_length,
        List.take_left]
    cases f
    simp only [Frame.first, Frame.mk.injEq]
    exact ⟨hhead, trivial, hpayload⟩
  rw [completeFrames]
  split
  · next hnone =>
      rw [hparse] at hnone
      cases hnone
  · next hdr hsome =>
      obtain rfl : hdr = f.hdr := Option.some.inj (hsome.symm.trans hparse)
      rw [dif_pos hlen, hfirst, hrest]

theorem complete_frames_append (frames : List Frame) (rest : Bytes) :
    completeFrames (framesWire frames ++ rest) = frames ++ completeFrames rest := by
  induction frames with
  | nil => rfl
  | cons f frames ih =>
      rw [frames_wire_cons, List.append_assoc, complete_frames_cons, ih, List.cons_append]

/-! ## Where the parser stands -/

namespace Direction

/-- The bytes before the first frame: the preface, or none if the stream is known to start with
something else. -/
def LeadsWith (hasPreface : Bool) (lead stream : Bytes) : Prop :=
  lead = preface ∧ hasPreface = true ∨
    lead = [] ∧ (hasPreface = true → preface.length ≤ stream.length ∧ ¬preface <+: stream)

/-- The bytes of a frame of which `discard` more are thrown away. -/
def Skips (discard : Nat) (tail : Bytes) : Prop :=
  discard = 0 ∧ tail = [] ∨
    0 < discard ∧ ∃ hdr, FrameHeader.parse tail = some hdr ∧
      tail.length + discard = frameHeaderLen + hdr.len ∧ hdr.isHeaderFrame = false

/-- The parser stands after the bytes `stream`, and has handed over the blocks `blocks`. -/
inductive Stands (hasPreface : Bool) (d : Direction) : Bytes → List Bytes → Prop where
  | waits :
      d.expectPreface = true → hasPreface = true → d.discard = 0 → d.block = [] →
      d.blockHdr = none → Stands hasPreface d [] []
  | reads (lead : Bytes) (frames : List Frame) (tail : Bytes) :
      d.expectPreface = false →
      LeadsWith hasPreface lead (lead ++ framesWire frames ++ tail ++ d.reasm.available) →
      (frameBlocks frames).last = d.block → (d.blockHdr = none → d.block = []) →
      Skips d.discard tail →
      Stands hasPreface d (lead ++ framesWire frames ++ tail) (frameBlocks frames).complete

variable {hasPreface : Bool} {d : Direction} {stream : Bytes} {blocks : List Bytes}

/-- More bytes do not change how the stream starts. -/
theorem LeadsWith.append {lead : Bytes} (h : LeadsWith hasPreface lead stream) (more : Bytes) :
    LeadsWith hasPreface lead (stream ++ more) := by
  refine h.imp_right fun ⟨hlead, hother⟩ => ⟨hlead, fun hpreface => ?_⟩
  obtain ⟨hlength, hnot⟩ := hother hpreface
  refine ⟨hlength.trans (by simp), fun hstarts => hnot ?_⟩
  exact List.prefix_of_prefix_length_le hstarts (List.prefix_append _ _) hlength

/-- What matters to where the parser stands. -/
theorem Stands.congr (h : Stands hasPreface d stream blocks) {d' : Direction}
    (hpreface : d'.expectPreface = d.expectPreface) (hdiscard : d'.discard = d.discard)
    (hblock : d'.block = d.block) (hblockHdr : d'.blockHdr = d.blockHdr) {more : Bytes}
    (havailable : d'.reasm.available = d.reasm.available ++ more) :
    Stands hasPreface d' stream blocks := by
  cases h with
  | waits hwaits hhas hzero hempty hclosed =>
      exact .waits (hpreface.trans hwaits) hhas (hdiscard.trans hzero) (hblock.trans hempty)
        (hblockHdr.trans hclosed)
  | reads lead frames tail hread hlead hlast hclosed hskips =>
      refine .reads lead frames tail (hpreface.trans hread) ?_ (hlast.trans hblock.symm) ?_ ?_
      · rw [havailable, ← List.append_assoc]
        exact hlead.append more
      · rw [hblock, hblockHdr]
        exact hclosed
      · rw [hdiscard]
        exact hskips

/-- The blocks that were handed over are those of the bytes that were read. -/
theorem Stands.header_blocks (h : Stands hasPreface d stream blocks) :
    headerBlocks hasPreface stream = blocks := by
  cases h with
  | waits hwaits hhas hzero hempty hclosed =>
      have hnone : completeFrames [] = [] := complete_frames_of_short fun hdr hparse => by
        cases hparse
      have hrest : afterPreface hasPreface [] = [] := by
        rw [afterPreface, List.drop_nil, ite_self]
      rw [headerBlocks, hrest, hnone]
      rfl
  | reads lead frames tail hread hlead hlast hclosed hskips =>
      have hrest : afterPreface hasPreface (lead ++ framesWire frames ++ tail) =
          framesWire frames ++ tail := by
        rcases hlead with ⟨rfl, hhas⟩ | ⟨rfl, hother⟩
        · have hstarts : preface.isPrefixOf (preface ++ framesWire frames ++ tail) = true := by
            rw [List.isPrefixOf_iff_prefix, List.append_assoc]
            exact List.prefix_append _ _
          rw [afterPreface, hhas, hstarts, Bool.and_self, if_pos rfl, List.append_assoc,
            List.drop_left]
        · rw [List.nil_append] at hother ⊢
          have hnot : ¬(hasPreface && preface.isPrefixOf (framesWire frames ++ tail)) = true := by
            rw [Bool.and_eq_true, List.isPrefixOf_iff_prefix]
            rintro ⟨hhas, hstarts⟩
            exact (hother hhas).2 (hstarts.trans (List.prefix_append _ _))
          rw [afterPreface, if_neg hnot]
      have hshort : completeFrames tail = [] := by
        refine complete_frames_of_short fun hdr hparse => ?_
        rcases hskips with ⟨-, rfl⟩ | ⟨hpos, hdr', hparse', hlength, -⟩
        · cases hparse
        · rw [hparse'] at hparse
          obtain rfl := Option.some.inj hparse
          omega
      rw [headerBlocks, hrest, complete_frames_append, hshort, List.append_nil]

/-! ## One turn -/

/-- A frame without a header block that was stepped over, with `discard` bytes of it to come. -/
theorem stands_skipping {lead tail : Bytes} {frames : List Frame} {hdr : FrameHeader}
    (hread : d.expectPreface = false)
    (hlead : LeadsWith hasPreface lead (lead ++ framesWire frames ++ tail ++ d.reasm.available))
    (hlast : (frameBlocks frames).last = d.block) (hclosed : d.blockHdr = none → d.block = [])
    (hparse : FrameHeader.parse tail = some hdr) (hother : hdr.isHeaderFrame = false)
    (hlength : tail.length + d.discard = frameHeaderLen + hdr.len) :
    Stands hasPreface d (lead ++ framesWire frames ++ tail) (frameBlocks frames).complete := by
  rcases Nat.eq_zero_or_pos d.discard with hzero | hpos
  · rw [hzero, Nat.add_zero] at hlength
    set f := Frame.first tail hparse hlength.ge with hf
    have hwire : framesWire (frames ++ [f]) = framesWire frames ++ tail := by
      rw [framesWire, List.flatMap_append, ← framesWire, List.flatMap_singleton, hf,
        Frame.first_wire, List.take_of_length_le hlength.le]
    have hblocks : frameBlocks (frames ++ [f]) = frameBlocks frames := by
      have hsame : f.hdr.isHeaderFrame = false := hother
      rw [frame_blocks_concat, Blocks.add, hsame, Bool.false_and, if_neg Bool.false_ne_true,
        Frame.joined, hsame, if_neg Bool.false_ne_true]
    have hstream : lead ++ framesWire frames ++ tail =
        lead ++ framesWire (frames ++ [f]) ++ [] := by
      rw [hwire, List.append_nil, List.append_assoc]
    rw [hstream] at hlead ⊢
    rw [← hblocks] at hlast ⊢
    exact .reads lead (frames ++ [f]) [] hread hlead hlast hclosed (Or.inl ⟨hzero, rfl⟩)
  · exact .reads lead frames tail hread hlead hlast hclosed
      (Or.inr ⟨hpos, hdr, hparse, hlength, hother⟩)

/-- What a turn does to a direction that stands after `stream`: it takes some bytes, and hands over
a block perhaps. -/
structure TurnReads [HuffmanDecoding] (hasPreface : Bool) (stream : Bytes) (blocks : List Bytes)
    (d d' : Direction) : Prop where
  synced : d'.desynced = false
  pending : d'.pendingStartSeq = none
  dec : d'.dec = (d.blockToDecode.elim d.dec fun block => (d.dec.decode block).1)
  reads : ∃ more, (∀ K base taken, d.reasm.Traced K base taken →
      d'.reasm.Traced K base (taken ++ more)) ∧
    Stands hasPreface d' (stream ++ more) (blocks ++ d.blockToDecode.toList)

variable [HuffmanDecoding]

/-- A turn that hands nothing over. -/
theorem turn_reads_bytes {d' : Direction} (hnone : d.blockToDecode = none)
    (hsynced : d'.desynced = false) (hpending : d'.pendingStartSeq = none) (hdec : d'.dec = d.dec)
    {more : Bytes} (htraced : ∀ K base taken, d.reasm.Traced K base taken →
      d'.reasm.Traced K base (taken ++ more))
    (hstands : Stands hasPreface d' (stream ++ more) blocks) :
    TurnReads hasPreface stream blocks d d' := by
  refine ⟨hsynced, hpending, ?_, more, htraced, ?_⟩
  · rw [hnone]
    exact hdec
  · rw [hnone, Option.toList_none, List.append_nil]
    exact hstands

omit [HuffmanDecoding] in
/-- Away from a frame boundary nothing is handed over. -/
theorem block_to_decode_of_not_at_frame (h : d.atFrame = false) : d.blockToDecode = none := by
  simp only [blockToDecode, turnFrame, h, Bool.false_eq_true, if_false]

/-- A turn that throws bytes away. -/
theorem turn_reads_discard (h : Stands hasPreface d stream blocks) (hsynced : d.desynced = false)
    (hpending : d.pendingStartSeq = none) (hdiscard : 0 < d.discard) {d' : Direction}
    {frame : Option ProcessedFrame} (hturn : d.discardStep = .more d' frame) :
    TurnReads hasPreface stream blocks d d' := by
  have hnone : d.blockToDecode = none := block_to_decode_of_not_at_frame (by
    simp [atFrame, hdiscard.ne'])
  simp only [discardStep] at hturn
  split at hturn
  · cases hturn
  · cases hturn
    refine turn_reads_bytes hnone hsynced hpending rfl (fun K base taken htraced =>
      htraced.consume _) ?_
    cases h with
    | waits hwaits hhas hzero hempty hclosed => omega
    | reads lead frames tail hread hlead hlast hclosed hskips =>
        rcases hskips with ⟨hzero, -⟩ | ⟨-, hdr, hparse, hlength, hother⟩
        · omega
        · set n := min d.discard d.reasm.available.length with hn
          rw [List.append_assoc (lead ++ framesWire frames)]
          refine stands_skipping hread ?_ hlast hclosed (FrameHeader.parse_append hparse _)
            hother ?_
          · show LeadsWith _ _ (_ ++ (tail ++ d.reasm.available.take n) ++
              (d.reasm.consume n).available)
            rw [Reassembler.available_consume, List.append_assoc, List.append_assoc tail,
              List.take_append_drop, ← List.append_assoc]
            exact hlead
          · show (tail ++ d.reasm.available.take n).length + (d.discard - n) = _
            rw [List.length_append, List.length_take]
            omega

/-- A turn at the place of the preface. -/
theorem turn_reads_preface (h : Stands hasPreface d stream blocks) (hsynced : d.desynced = false)
    (hpending : d.pendingStartSeq = none) (hpreface : d.expectPreface = true) {d' : Direction}
    {frame : Option ProcessedFrame} (hturn : d.prefaceStep = .more d' frame) :
    TurnReads hasPreface stream blocks d d' := by
  have hnone : d.blockToDecode = none := block_to_decode_of_not_at_frame (by
    simp [atFrame, hpreface])
  cases h with
  | reads lead frames tail hread hlead hlast hclosed hskips =>
      rw [hpreface] at hread
      cases hread
  | waits hwaits hhas hzero hempty hclosed =>
      simp only [prefaceStep] at hturn
      split at hturn
      · cases hturn
      · next hlong =>
          split at hturn
          · next hstarts =>
              cases hturn
              refine turn_reads_bytes hnone hsynced hpending rfl (fun K base taken htraced =>
                htraced.consume preface.length) ?_
              have htake : d.reasm.available.take preface.length = preface :=
                (List.prefix_iff_eq_take.mp (List.isPrefixOf_iff_prefix.mp hstarts)).symm
              rw [htake, List.nil_append]
              have hstands : Stands hasPreface { d with
                  expectPreface := false, reasm := d.reasm.consume preface.length }
                  (preface ++ framesWire [] ++ []) [] :=
                .reads preface [] [] rfl (Or.inl ⟨rfl, hhas⟩) hempty.symm (fun _ => hempty)
                  (Or.inl ⟨hzero, rfl⟩)
              rwa [frames_wire_nil, List.append_nil, List.append_nil] at hstands
          · next hother =>
              cases hturn
              have htraced : ∀ K base taken, d.reasm.Traced K base taken →
                  d.reasm.Traced K base (taken ++ []) := fun K base taken htraced => by
                rwa [List.append_nil]
              refine turn_reads_bytes hnone hsynced hpending rfl htraced ?_
              refine Stands.reads [] [] [] rfl (Or.inr ⟨rfl, fun _ => ?_⟩) hempty.symm
                (fun _ => hempty) (Or.inl ⟨hzero, rfl⟩)
              refine ⟨not_lt.mp hlong, fun hstarts => hother ?_⟩
              exact List.isPrefixOf_iff_prefix.mpr hstarts

omit [HuffmanDecoding] in
/-- At a frame boundary the bytes read so far end with a frame. -/
theorem Stands.at_frame (h : Stands hasPreface d stream blocks) (hat : d.atFrame = true) :
    ∃ lead frames, stream = lead ++ framesWire frames ∧ blocks = (frameBlocks frames).complete ∧
      LeadsWith hasPreface lead (lead ++ framesWire frames ++ d.reasm.available) ∧
      (frameBlocks frames).last = d.block ∧ (d.blockHdr = none → d.block = []) := by
  obtain ⟨hdiscard, -, -, hpreface⟩ := at_frame_parts hat
  cases h with
  | waits hwaits hhas hzero hempty hclosed =>
      rw [hpreface] at hwaits
      cases hwaits
  | reads lead frames tail hread hlead hlast hclosed hskips =>
      rcases hskips with ⟨-, rfl⟩ | ⟨hpos, -⟩
      · rw [List.append_nil] at hlead ⊢
        exact ⟨lead, frames, rfl, rfl, hlead, hlast, hclosed⟩
      · omega

/-- A turn that steps over a frame. -/
theorem turn_reads_skip (h : Stands hasPreface d stream blocks) (hsynced : d.desynced = false)
    (hpending : d.pendingStartSeq = none) (hguard : d.keepsHeaderBytes = true) {hdr : FrameHeader}
    (hat : d.atFrame = true) (hparse : FrameHeader.parse d.reasm.available = some hdr)
    (hwant : d.wantPayload hdr = false) :
    TurnReads hasPreface stream blocks d (d.skipFrame hdr).1 := by
  have hnone : d.blockToDecode = none := by
    simp [blockToDecode, turnFrame, hat, hparse, hwant]
  have hother := other_of_unwanted hat hparse hwant hguard
  obtain ⟨lead, frames, rfl, rfl, hlead, hlast, hclosed⟩ := h.at_frame hat
  obtain ⟨-, -, -, hread⟩ := at_frame_parts hat
  have hlong := FrameHeader.length_of_parse hparse
  refine turn_reads_bytes hnone hsynced hpending rfl (fun K base taken htraced =>
    htraced.consume frameHeaderLen) ?_
  refine stands_skipping (d := (d.skipFrame hdr).1) hread ?_ hlast hclosed
    (FrameHeader.parse_take hparse) hother ?_
  · show LeadsWith _ _ (_ ++ d.reasm.available.take frameHeaderLen ++
      (d.reasm.consume frameHeaderLen).available)
    rw [Reassembler.available_consume, List.append_assoc, List.take_append_drop]
    exact hlead
  · show (d.reasm.available.take frameHeaderLen).length + hdr.len = _
    rw [List.length_take, min_eq_left hlong]

/-- Handling a whole frame adds it to the blocks, unless the direction poisons itself. -/
theorem handled_block {hdr : FrameHeader} {payload : Bytes} {f : Frame} (hhdr : f.hdr = hdr)
    (hpayload : f.payload = payload) (hframe : d.turnFrame = some (hdr, payload))
    (hguard : d.keepsHeaderBytes = true) (hsynced : d.desynced = false) {frames : List Frame}
    (hlast : (frameBlocks frames).last = d.block) (hclosed : d.blockHdr = none → d.block = [])
    (startOff : Nat) (startSeq : Seq) :
    let d' := (d.handleFrame hdr payload startOff startSeq).1
    d'.poisoned = true ∨
      d'.desynced = false ∧
        d'.dec = (d.blockToDecode.elim d.dec fun block => (d.dec.decode block).1) ∧
        (frameBlocks (frames ++ [f])).last = d'.block ∧ (d'.blockHdr = none → d'.block = []) ∧
        (frameBlocks (frames ++ [f])).complete =
          (frameBlocks frames).complete ++ d.blockToDecode.toList := by
  intro d'
  obtain ⟨hat, hparse, hwant, -, -⟩ := turn_frame_eq_some hframe
  rw [frame_blocks_concat, Blocks.add, hhdr]
  cases hheader : hdr.isHeaderFrame with
  | false =>
      right
      have hnone : d.blockToDecode = none := by simp [blockToDecode, hframe, hheader]
      have hsame : d' = d := (handle_non_header_frame d hheader payload startOff startSeq).1
      rw [hsame, hnone, Frame.joined, hhdr, hheader]
      exact ⟨hsynced, rfl, hlast, hclosed, (List.append_nil _).symm⟩
  | true =>
      have hstate := handle_header_frame d hheader payload startOff startSeq
      cases hadd : d.addFragment hdr payload with
      | none =>
          left
          rw [hadd] at hstate
          show (d.handleFrame hdr payload startOff startSeq).1.poisoned = true
          rw [hstate]
          rfl
      | some opened =>
          rw [hadd] at hstate
          have hd' : d' = (opened.finishIfEnd hdr).1 := congrArg Prod.fst hstate
          obtain ⟨hopen, hdec, -, hdesynced, -⟩ := add_fragment_open hadd
          obtain ⟨frag, hfrag, hblock⟩ :=
            add_fragment_block (begins_of_keeps hframe hheader hguard) hadd
          have hjoined : f.joined (frameBlocks frames).last = opened.block := by
            have hfragment : f.fragment = some frag := by
              rw [← hfrag, ← hhdr, ← hpayload]
              rfl
            rw [Frame.joined, hhdr, hheader, if_pos rfl, hfragment, hlast, hblock]
            rfl
          rw [hjoined, hd', finishIfEnd]
          cases hend : hdr.has Flags.endHeaders with
          | false =>
              right
              have hnone : d.blockToDecode = none := by simp [blockToDecode, hframe, hend]
              rw [hnone]
              refine ⟨hdesynced.trans hsynced, hdec, rfl, fun hclosed' => ?_,
                (List.append_nil _).symm⟩
              rw [if_neg Bool.false_ne_true] at hclosed'
              rw [hclosed'] at hopen
              cases hopen
          | true =>
              have hhanded : d.blockToDecode = some opened.block := by
                simp [blockToDecode, hframe, hheader, hend, hadd]
              obtain ⟨bhdr, hbhdr⟩ := Option.isSome_iff_exists.mp hopen
              rw [if_pos rfl, hhanded]
              rcases hfinish : opened.finishBlock with ⟨d₁, decoded⟩
              rcases finish_block_cases hbhdr hfinish with
                ⟨dec, e, hdecode, -, rfl⟩ | ⟨dec, fields, hdecode, rfl, -⟩
              · exact Or.inl rfl
              · right
                rw [hdec] at hdecode
                refine ⟨hdesynced.trans hsynced, ?_, rfl, fun _ => rfl, rfl⟩
                rw [Option.elim_some, hdecode]

/-- A turn that takes a whole frame. -/
theorem turn_reads_take (h : Stands hasPreface d stream blocks) (hguard : d.keepsHeaderBytes = true)
    {hdr : FrameHeader} {payload : Bytes} (hframe : d.turnFrame = some (hdr, payload)) :
    (d.takeFrame hdr).1.poisoned = true ∨
      TurnReads hasPreface stream blocks d (d.takeFrame hdr).1 := by
  obtain ⟨hat, hparse, -, hlen, hpayload⟩ := turn_frame_eq_some hframe
  obtain ⟨hdiscard, hpending, hsynced, hread⟩ := at_frame_parts hat
  obtain ⟨lead, frames, rfl, rfl, hlead, hlast, hclosed⟩ := h.at_frame hat
  set f := Frame.first d.reasm.available hparse hlen with hf
  have hwire : f.wire = d.reasm.available.take (frameHeaderLen + hdr.len) :=
    Frame.first_wire _ hparse hlen
  rw [take_frame_eq, ← hpayload]
  have hplace := same_position_handle_frame d hdr payload d.reasm.offset d.reasm.nextUnparsedSeq
  rcases handled_block (f := f) rfl hpayload.symm hframe hguard hsynced hlast hclosed
    d.reasm.offset d.reasm.nextUnparsedSeq with hpoisoned | ⟨hsynced', hdec, hlast', hclosed', hall⟩
  · exact Or.inl hpoisoned
  · right
    refine ⟨hsynced', hplace.pendingStartSeq.trans hpending, hdec, f.wire, ?_, ?_⟩
    · intro K base taken htraced
      rw [hwire]
      exact htraced.consume _
    · have hstream : lead ++ framesWire frames ++ f.wire =
          lead ++ framesWire (frames ++ [f]) ++ [] := by
        rw [framesWire, framesWire, List.flatMap_append, List.flatMap_singleton, List.append_nil,
          List.append_assoc]
      rw [← hall, hstream]
      refine .reads lead (frames ++ [f]) [] (hplace.expectPreface.trans hread) ?_ hlast' hclosed'
        (Or.inl ⟨hdiscard, rfl⟩)
      rw [← hstream, hwire]
      show LeadsWith _ _ (_ ++ _ ++ (d.reasm.consume (frameHeaderLen + hdr.len)).available)
      rw [Reassembler.available_consume, List.append_assoc (lead ++ framesWire frames),
        List.take_append_drop]
      exact hlead

/-- Every turn that goes on reads some bytes, or poisons the direction. -/
theorem turn_reads (h : Stands hasPreface d stream blocks) (hsynced : d.desynced = false)
    (hpending : d.pendingStartSeq = none) (hguard : d.keepsHeaderBytes = true) {d' : Direction}
    {frame : Option ProcessedFrame} (hturn : d.parseStep = .more d' frame) :
    d'.poisoned = true ∨ TurnReads hasPreface stream blocks d d' := by
  cases hat : d.atFrame with
  | true =>
      have hcases := turn_cases d
      rw [hturn] at hcases
      cases hcases with
      | move _ hsame =>
          rw [at_frame_of_move hturn] at hat
          cases hat
      | misaligned _ hsame =>
          rw [at_frame_of_move hturn] at hat
          cases hat
      | skip hdr hat hparse hwant =>
          exact Or.inr (turn_reads_skip h hsynced hpending hguard hat hparse hwant)
      | take hdr payload hframe => exact turn_reads_take h hguard hframe
  | false =>
      right
      simp only [parseStep, hpending, hsynced, Bool.false_eq_true, if_false] at hturn
      split at hturn
      · next hdiscard => exact turn_reads_discard h hsynced hpending hdiscard hturn
      · next hdiscard =>
          split at hturn
          · next hpreface => exact turn_reads_preface h hsynced hpending hpreface hturn
          · next hpreface =>
              simp [atFrame, hpending, hsynced, hpreface] at hat
              omega

/-- A turn that stops leaves a direction that has its place as it is. -/
theorem stop_same (hsynced : d.desynced = false) (hpending : d.pendingStartSeq = none)
    {d' : Direction} (hturn : d.parseStep = .stop d') : d' = d := by
  simp only [parseStep, hpending, hsynced, Bool.false_eq_true, if_false] at hturn
  split at hturn
  · simp only [discardStep] at hturn
    split at hturn <;> cases hturn
    rfl
  · split at hturn
    · simp only [prefaceStep] at hturn
      split at hturn
      · cases hturn
        rfl
      · split at hturn <;> cases hturn
    · simp only [frameStep] at hturn
      split at hturn
      · cases hturn
        rfl
      · split at hturn
        · split at hturn <;> cases hturn
          rfl
        · cases hturn

/-- Nor does it hand anything over. -/
theorem block_to_decode_of_stop {d' : Direction} (hturn : d.parseStep = .stop d') :
    d.blockToDecode = none := by
  cases hframe : d.turnFrame with
  | none => simp only [blockToDecode, hframe]
  | some frame =>
      obtain ⟨hat, hparse, hwant, hlen, -⟩ := turn_frame_eq_some hframe
      obtain ⟨hdiscard, hpending, hsynced, hpreface⟩ := at_frame_parts hat
      have hwhole : ¬d.reasm.available.length < frameHeaderLen + frame.1.len := not_lt.mpr hlen
      simp only [parseStep, hdiscard, hpending, hsynced, hpreface, frameStep, hparse, hwant, hwhole,
        gt_iff_lt, lt_self_iff_false, Bool.false_eq_true, if_false, if_true] at hturn
      cases hturn

/-! ## The whole loop -/

/-- The direction has read `stream` and was given `seen`. It knows its place, every byte that it has
is accounted for, and its decoder has the table. -/
structure KnowsTable (K : Seq → UInt8 → Prop) (base : Seq) (hasPreface : Bool) (limit : Nat)
    (seen : List Seen) (stream : Bytes) (d : Direction) : Prop where
  traced : d.reasm.Traced K base stream
  synced : d.desynced = false
  pending : d.pendingStartSeq = none
  stands : Stands hasPreface d stream (seenBlocks seen)
  dec : d.dec.Tracks limit (Standard.lowered .initial seen)

/-- A direction that keeps its table, and one that is poisoned. -/
def KnowsOrPoisoned (K : Seq → UInt8 → Prop) (base : Seq) (hasPreface : Bool) (limit : Nat)
    (seen : List Seen) (d : Direction) : Prop :=
  d.poisoned = true ∨ ∃ stream, KnowsTable K base hasPreface limit seen stream d

theorem KnowsOrPoisoned.of_not_poisoned {K : Seq → UInt8 → Prop} {base : Seq} {limit : Nat}
    {seen : List Seen} (h : KnowsOrPoisoned K base hasPreface limit seen d)
    (hpoisoned : d.poisoned = false) :
    ∃ stream, KnowsTable K base hasPreface limit seen stream d :=
  h.resolve_left (by rw [hpoisoned]; exact Bool.false_ne_true)

/-- The blocks that the parse loop hands to the decoder. -/
def handedOver (turns : List Direction) : List Bytes := turns.filterMap blockToDecode

variable {K : Seq → UInt8 → Prop} {base : Seq} {limit : Nat} {seen : List Seen}

/-- A poisoned direction stays poisoned. -/
theorem poisoned_parse (h : d.poisoned = true) : d.parse.1.poisoned = true := by
  refine parse_keeps (P := fun t => t.poisoned = true) (fun t ht => ?_) h
  have hcases := turn_cases t
  generalize t.parseStep = progress at hcases
  cases hcases with
  | stop _ hsame => exact hsame.poisoned.trans ht
  | move _ hsame => exact hsame.poisoned.trans ht
  | misaligned _ hsame => exact hsame.poisoned.trans ht
  | skip hdr hat hparse hwant => exact ht
  | take hdr payload hframe => exact (take_frame_cases hframe).poisoned ht

/-- One turn. -/
theorem KnowsTable.turn (h : KnowsTable K base hasPreface limit seen stream d)
    (hlimit : limit ≤ usizeMax) (hguard : d.keepsHeaderBytes = true) {d' : Direction}
    {frame : Option ProcessedFrame} (hturn : d.parseStep = .more d' frame) :
    KnowsOrPoisoned K base hasPreface limit (seen ++ d.blockToDecode.toList.map .block) d' := by
  refine (turn_reads h.stands h.synced h.pending hguard hturn).imp_right fun hreads => ?_
  obtain ⟨hsynced, hpending, hdec, more, htraced, hstands⟩ := hreads
  refine ⟨stream ++ more, htraced K base stream h.traced, hsynced, hpending, ?_, ?_⟩
  · rw [seen_blocks_append, seen_blocks_of_blocks]
    exact hstands
  · rw [hdec]
    cases d.blockToDecode with
    | none =>
        rw [Option.toList_none, List.map_nil, List.append_nil]
        exact h.dec
    | some block =>
        rw [Standard.lowered, List.foldl_append]
        exact h.dec.decode hlimit block

/-- A direction that keeps its table or is poisoned goes on so. -/
theorem KnowsOrPoisoned.parse (h : KnowsOrPoisoned K base hasPreface limit seen d)
    (hlimit : limit ≤ usizeMax)
    (hguard : ∀ t ∈ d.turns, t.poisoned = false → t.keepsHeaderBytes = true) :
    KnowsOrPoisoned K base hasPreface limit (seen ++ (handedOver d.turns).map .block)
      d.parse.1 := by
  induction hwork : d.work using Nat.strongRecOn generalizing d seen with
  | ind n ih =>
      subst hwork
      cases hpoisoned : d.poisoned with
      | true => exact Or.inl (poisoned_parse hpoisoned)
      | false =>
          obtain ⟨stream, hknows⟩ := h.of_not_poisoned hpoisoned
          cases hturn : d.parseStep with
          | stop d' =>
              rw [parse_of_stop hturn, stop_same hknows.synced hknows.pending hturn,
                turns_of_stop hturn, handedOver,
                List.filterMap_cons_none (block_to_decode_of_stop hturn), List.filterMap_nil,
                List.map_nil, List.append_nil]
              exact h
          | more d' frame =>
              have hblocks : seen ++ (handedOver d.turns).map .block =
                  seen ++ d.blockToDecode.toList.map .block ++
                    (handedOver d'.turns).map .block := by
                rw [turns_of_more hturn, handedOver, List.filterMap_cons, List.append_assoc,
                  ← List.map_append]
                cases d.blockToDecode <;> rfl
              rw [hblocks, parse_of_more hturn]
              exact ih _ (work_parse_step hturn)
                (hknows.turn hlimit (hguard d (mem_turns_self d) hpoisoned) hturn)
                (fun t ht => hguard t (mem_turns_of_more hturn ht)) rfl

/-! ## Entry points -/

/-- A feed. A gap poisons the direction. -/
theorem KnowsOrPoisoned.feed (h : KnowsOrPoisoned K base hasPreface limit seen d)
    (hlimit : limit ≤ usizeMax) {seq : Seq} {data : Bytes} {nowUs : Nat}
    (hpush : d.poisoned = false → ∀ stream, d.reasm.Traced K base stream →
      (d.reasm.push seq data nowUs).2 = false →
        (d.reasm.push seq data nowUs).1.Traced K base stream)
    (hguard : ∀ t ∈ d.opTurns (.feed seq data nowUs),
      t.poisoned = false → t.keepsHeaderBytes = true) :
    KnowsOrPoisoned K base hasPreface limit
      (seen ++ (handedOver (d.opTurns (.feed seq data nowUs))).map .block)
      (d.feed seq data nowUs).1 := by
  refine KnowsOrPoisoned.parse ?_ hlimit hguard
  unfold withReassembled
  rcases Reassembler.push_both (rfl : d.reasm.outside = d.reasm.outside) seq data nowUs with
    ⟨more, hboth, hgap, -⟩ | ⟨-, hgap⟩
  · rw [hgap, if_neg Bool.false_ne_true]
    by_cases hpoisoned : d.poisoned = true
    · exact Or.inl hpoisoned
    · obtain ⟨stream, hknows⟩ := h.resolve_left hpoisoned
      have htraced := hpush (Bool.eq_false_iff.mpr hpoisoned) stream hknows.traced hgap
      exact Or.inr ⟨stream, htraced, hknows.synced, hknows.pending,
        hknows.stands.congr rfl rfl rfl rfl hboth.left.available_eq, hknows.dec⟩
  · rw [hgap, if_pos rfl]
    exact Or.inl rfl

/-- A timeout. If it declares a gap the direction is poisoned. -/
theorem KnowsOrPoisoned.tick (h : KnowsOrPoisoned K base hasPreface limit seen d) (nowUs : Nat) :
    KnowsOrPoisoned K base hasPreface limit seen (d.tick nowUs).1 := by
  unfold Direction.tick
  rcases Reassembler.check_timeout_both (rfl : d.reasm.outside = d.reasm.outside) nowUs with
    ⟨hsame, -⟩ | ⟨-, hgap⟩
  · rw [hsame, if_neg Bool.false_ne_true]
    exact h
  · rw [hgap, if_pos rfl]
    refine Or.inl (poisoned_parse ?_)
    unfold withReassembled
    rw [hgap, if_pos rfl]
    rfl

/-- Table sizes that are announced in the other direction. -/
theorem KnowsOrPoisoned.peer_capacities (h : KnowsOrPoisoned K base hasPreface limit seen d)
    (sizes : List Nat) :
    KnowsOrPoisoned K base hasPreface limit (seen ++ sizes.map .capacity)
      (sizes.foldl applyPeerCapacity d) := by
  induction sizes generalizing d seen with
  | nil =>
      rw [List.map_nil, List.append_nil]
      exact h
  | cons n sizes ih =>
      have hnext : KnowsOrPoisoned K base hasPreface limit (seen ++ [.capacity n])
          (d.applyPeerCapacity n) := by
        refine h.imp_right fun ⟨stream, hknows⟩ => ⟨stream, hknows.traced, hknows.synced,
          hknows.pending, ?_, ?_⟩
        · have hblocks : seenBlocks (seen ++ [.capacity n]) = seenBlocks seen := by
            rw [seen_blocks_append]
            exact List.append_nil _
          rw [hblocks]
          exact hknows.stands.congr rfl rfl rfl rfl (List.append_nil _).symm
        · rw [Standard.lowered, List.foldl_append]
          exact hknows.dec.apply_peer_capacity n
      have hlater := ih hnext
      rwa [List.append_assoc] at hlater

/-- A direction of a new connection. -/
theorem knows_from_connection_start (K : Seq → UInt8 → Prop) (base : Seq) (hasPreface : Bool)
    (limit : Nat) : KnowsTable K base hasPreface limit [] []
      ((fromConnectionStart false hasPreface).setTableTrackLimit limit) := by
  refine ⟨Reassembler.traced_new, rfl, rfl, ?_, Decoder.tracks_initial limit⟩
  cases hasPreface with
  | true => exact .waits rfl rfl rfl rfl rfl
  | false =>
      exact .reads [] [] [] rfl (Or.inr ⟨rfl, fun hno => Bool.noConfusion hno⟩) rfl (fun _ => rfl)
        (Or.inl ⟨rfl, rfl⟩)

/-! ## What a usable direction says -/

/-- The table of the decoder is that of the bytes that were read, if no capacity that was lowered
early came in the way. -/
theorem KnowsTable.table_eq (h : KnowsTable K base hasPreface limit seen stream d)
    (hover : d.dec.overLimit = false)
    (hfits : Standard.fits .initial .initial seen = true) :
    d.dec.table = ((Standard.tableAfter .initial (headerBlocks hasPreface stream)).table.map
      Header.field) := by
  have hcopies := h.dec.resolve_left (by rw [hover]; exact Bool.false_ne_true)
  have hsame := Standard.SameTable.lowered ⟨rfl, le_refl _⟩ hfits
  rw [hcopies.table, hsame.table, h.stands.header_blocks]

end Direction

end H2Tap
