import H2Tap.Conn.Direction

/-!
# What one turn of the parse loop can do

`turn_cases` lists the outcomes of `parseStep` as far as header blocks are concerned: most turns
only move in the stream, one gives up on a snapshot, and the others step over a frame or take it.
`handle_header_frame` and `finish_block_cases` say what taking a header frame does. `parse_rule`
turns a property that every turn keeps into one of the whole loop; its guarded form takes a
condition on the direction at the start of each turn.
-/

namespace H2Tap.Direction

/-! ## Frames -/

/-- The parser stands at a frame boundary. -/
def atFrame (d : Direction) : Bool :=
  d.discard == 0 && d.pendingStartSeq.isNone && !d.desynced && !d.expectPreface

theorem at_frame_parts {d : Direction} (h : d.atFrame = true) : d.discard = 0 ∧
    d.pendingStartSeq = none ∧ d.desynced = false ∧ d.expectPreface = false := by
  simpa [atFrame, and_assoc] using h

/-- The frame the next turn takes, with its payload. -/
def turnFrame (d : Direction) : Option (FrameHeader × Bytes) :=
  if d.atFrame then
    match FrameHeader.parse d.reasm.available with
    | none => none
    | some hdr =>
        if d.wantPayload hdr && decide (frameHeaderLen + hdr.len ≤ d.reasm.available.length) then
          some (hdr, (d.reasm.available.drop frameHeaderLen).take hdr.len)
        else none
  else none

/-- The open block with the fragment of a header frame added to it, `none` if there is no fragment
to add or no block to add it to. -/
def addFragment (d : Direction) (hdr : FrameHeader) (payload : Bytes) : Option Direction :=
  if hdr.typ = FrameType.continuation then
    if d.blockHdr.isNone then none else some { d with block := d.block ++ payload }
  else
    (headerBlockFragment hdr payload).map fun frag =>
      { d.dropOpenBlock.notePromised hdr payload with
        block := (d.dropOpenBlock.notePromised hdr payload).block ++ frag
        blockHdr := some hdr }

/-- The block the next turn hands to the decoder. -/
def blockToDecode (d : Direction) : Option Bytes :=
  match d.turnFrame with
  | none => none
  | some (hdr, payload) =>
      if hdr.isHeaderFrame && hdr.has Flags.endHeaders then
        (d.addFragment hdr payload).map Direction.block
      else none

/-- The direction has been off the frame boundaries. -/
def LostPlace (d : Direction) : Prop := d.desynced = true ∨ 0 < d.resyncs

/-- Nothing about header blocks differs between the two, and a lost place is not forgotten. -/
structure SameBlocks (d d' : Direction) : Prop where
  dec : d'.dec = d.dec
  poisoned : d'.poisoned = d.poisoned
  block : d'.block = d.block
  blockHdr : d'.blockHdr = d.blockHdr
  blockPromised : d'.blockPromised = d.blockPromised
  openStreams : d'.openStreams = d.openStreams
  lostPlace : d.LostPlace → d'.LostPlace

/-- The same direction with another mode at another place of the stream. -/
def relocated (d : Direction) (keep : Bool) (frames : Nat) (reasm : Reassembler) (discard : Nat) :
    Direction :=
  { d with keepPayloads := keep, frames := frames, reasm := reasm, discard := discard }

theorem same_blocks_refl (d : Direction) : SameBlocks d d := ⟨rfl, rfl, rfl, rfl, rfl, rfl, id⟩

variable [HuffmanDecoding]

omit [HuffmanDecoding] in
theorem same_blocks_reasm (d : Direction) (reasm : Reassembler) :
    SameBlocks d { d with reasm := reasm } := ⟨rfl, rfl, rfl, rfl, rfl, rfl, id⟩

/-! ## Handling a frame -/

omit [HuffmanDecoding] in
/-- The same direction with another count of dropped bytes, too. -/
def moved (d : Direction) (keep : Bool) (frames : Nat) (reasm : Reassembler) (discard : Nat)
    (skipped : Nat) : Direction :=
  { d.relocated keep frames reasm discard with preSnapshotSkipped := skipped }

theorem finish_if_end_moved (d : Direction) (keep : Bool) (frames : Nat) (reasm : Reassembler)
    (discard skipped : Nat) (hdr : FrameHeader) :
    (d.moved keep frames reasm discard skipped).finishIfEnd hdr =
      ((d.finishIfEnd hdr).1.moved keep frames reasm discard skipped, (d.finishIfEnd hdr).2) := by
  simp only [finishIfEnd, finishBlock, moved, relocated]
  split
  · split
    · rfl
    · split <;> rfl
  · rfl

/-- Handling a frame does not look at the mode, the place or the count of dropped bytes. -/
theorem handle_frame_moved (d : Direction) (keep : Bool) (frames : Nat) (reasm : Reassembler)
    (discard skipped : Nat) (hdr : FrameHeader) (payload : Bytes) (startOff : Nat)
    (startSeq : Seq) :
    (d.moved keep frames reasm discard skipped).handleFrame hdr payload startOff startSeq =
      ((d.handleFrame hdr payload startOff startSeq).1.moved keep frames reasm discard skipped,
        (d.handleFrame hdr payload startOff startSeq).2) := by
  have hdrop : (d.moved keep frames reasm discard skipped).dropOpenBlock =
      d.dropOpenBlock.moved keep frames reasm discard skipped := by
    cases hopen : d.blockHdr <;> simp [dropOpenBlock, moved, relocated, hopen]
  have hnote : ∀ d : Direction,
      (d.moved keep frames reasm discard skipped).notePromised hdr payload =
        (d.notePromised hdr payload).moved keep frames reasm discard skipped := by
    intro d
    by_cases hpush : hdr.typ = FrameType.pushPromise
    · cases hsid : promisedStreamId hdr payload <;>
        simp [notePromised, moved, relocated, hpush, hsid]
    · simp [notePromised, hpush]
  have hbegin : (d.moved keep frames reasm discard skipped).beginBlock hdr payload =
      ((d.beginBlock hdr payload).1.moved keep frames reasm discard skipped,
        (d.beginBlock hdr payload).2) := by
    simp only [beginBlock, hdrop, hnote]
    split
    · exact finish_if_end_moved { d.dropOpenBlock.notePromised hdr payload with
        block := (d.dropOpenBlock.notePromised hdr payload).block ++ _
        blockHdr := some hdr } keep frames reasm discard skipped hdr
    · rfl
  have hcontinue : (d.moved keep frames reasm discard skipped).continueBlock hdr payload =
      ((d.continueBlock hdr payload).1.moved keep frames reasm discard skipped,
        (d.continueBlock hdr payload).2) := by
    simp only [continueBlock,
      show (d.moved keep frames reasm discard skipped).blockHdr = d.blockHdr from rfl]
    split
    · rfl
    · exact finish_if_end_moved { d with block := d.block ++ payload } keep frames reasm discard
        skipped hdr
  simp only [handleFrame, hbegin, hcontinue]
  split
  · rfl
  · split
    · rfl
    · split <;> rfl

/-- Handling a frame does not look at the mode or the place. -/
theorem handle_frame_relocated (d : Direction) (keep : Bool) (frames : Nat) (reasm : Reassembler)
    (discard : Nat) (hdr : FrameHeader) (payload : Bytes) (startOff : Nat) (startSeq : Seq) :
    (d.relocated keep frames reasm discard).handleFrame hdr payload startOff startSeq =
      ((d.handleFrame hdr payload startOff startSeq).1.relocated keep frames reasm discard,
        (d.handleFrame hdr payload startOff startSeq).2) := by
  have hmoved := handle_frame_moved d keep frames reasm discard d.preSnapshotSkipped hdr payload
    startOff startSeq
  have hskipped := (same_position_handle_frame d hdr payload startOff startSeq).preSnapshotSkipped
  refine hmoved.trans ?_
  rw [← hskipped]
  rfl

/-- Taking a frame is handling it at the place after it. -/
theorem take_frame_eq (d : Direction) (hdr : FrameHeader) :
    d.takeFrame hdr =
      let handled := d.handleFrame hdr ((d.reasm.available.drop frameHeaderLen).take hdr.len)
        d.reasm.offset d.reasm.nextUnparsedSeq
      (handled.1.relocated d.keepPayloads (d.frames + 1)
        (d.reasm.consume (frameHeaderLen + hdr.len)) d.discard, handled.2) :=
  handle_frame_relocated d _ _ _ _ _ _ _ _

/-- Taking a header frame adds its fragment to the open block, or gives up on the block. -/
theorem handle_header_frame (d : Direction) {hdr : FrameHeader} (hheader : hdr.isHeaderFrame = true)
    (payload : Bytes) (startOff : Nat) (startSeq : Seq) :
    d.handleFrame hdr payload startOff startSeq =
      match d.addFragment hdr payload with
      | none => (d.markBadBlock, ⟨hdr, payload, startOff, startSeq, none, true, false, none⟩)
      | some opened => ((opened.finishIfEnd hdr).1,
          ⟨hdr, payload, startOff, startSeq, (opened.finishIfEnd hdr).2, true, false, none⟩) := by
  have hbad : (d.dropOpenBlock.notePromised hdr payload).markBadBlock = d.markBadBlock := by
    by_cases hpush : hdr.typ = FrameType.pushPromise
    · cases hopen : d.blockHdr <;> cases hsid : promisedStreamId hdr payload <;>
        simp [dropOpenBlock, notePromised, markBadBlock, hpush, hsid, hopen]
    · cases hopen : d.blockHdr <;> simp [dropOpenBlock, notePromised, markBadBlock, hpush, hopen]
  by_cases hcontinuation : hdr.typ = FrameType.continuation
  · have hothers : hdr.typ ≠ FrameType.settings ∧ hdr.typ ≠ FrameType.headers ∧
        hdr.typ ≠ FrameType.pushPromise := by
      rw [hcontinuation]
      decide
    simp only [handleFrame, hothers, if_false, or_self]
    simp only [hcontinuation, if_true, addFragment, continueBlock]
    cases hopen : d.blockHdr <;> simp
  · have hsettings : hdr.typ ≠ FrameType.settings := by
      intro hsettings
      simp only [FrameHeader.isHeaderFrame, hsettings] at hheader
      revert hheader
      decide
    have hbegins : hdr.typ = FrameType.headers ∨ hdr.typ = FrameType.pushPromise := by
      simpa [FrameHeader.isHeaderFrame, hcontinuation] using hheader
    simp only [handleFrame, hsettings, hbegins, hcontinuation, if_false, if_true, addFragment,
      beginBlock]
    cases hfrag : headerBlockFragment hdr payload <;> simp [hbad]

/-- A frame that carries no header block leaves the direction as it is. -/
theorem handle_non_header_frame (d : Direction) {hdr : FrameHeader}
    (hheader : hdr.isHeaderFrame = false) (payload : Bytes) (startOff : Nat) (startSeq : Seq) :
    (d.handleFrame hdr payload startOff startSeq).1 = d ∧
      (d.handleFrame hdr payload startOff startSeq).2.decoded = none := by
  simp only [FrameHeader.isHeaderFrame, Bool.or_eq_false_iff, beq_eq_false_iff_ne] at hheader
  obtain ⟨⟨hheaders, hcontinuation⟩, hpush⟩ := hheader
  by_cases hsettings : hdr.typ = FrameType.settings <;>
    simp [handleFrame, hsettings, hheaders, hcontinuation, hpush]

/-- Finishing a block hands all of it to the decoder. -/
theorem finish_block_cases {d d' : Direction} {hdr : FrameHeader} {decoded : Option DecodedBlock}
    (hopen : d.blockHdr = some hdr) (h : d.finishBlock = (d', decoded)) :
    (∃ dec e, d.dec.decode d.block = (dec, .error e) ∧ decoded = none ∧
      d' = { d.takeBlock with
        dec := dec.resetPartial, decodeErrors := d.decodeErrors + 1, poisoned := true }) ∨
    (∃ dec fields, d.dec.decode d.block = (dec, .ok fields) ∧
      d' = { d.takeBlock with dec := dec, openStreams := d.openStreamsAfter hdr } ∧
      decoded = some {
        streamId := hdr.streamId
        fields := fields
        endStream := hdr.has Flags.endStream
        kind := d.blockKind hdr
        promisedStreamId := d.blockPromised
        exact := dec.isExact && dec.unresolved - d.dec.unresolved == 0
        unresolved := dec.unresolved - d.dec.unresolved }) := by
  simp only [finishBlock, hopen] at h
  split at h
  · next dec e hdecode =>
      cases h
      exact Or.inl ⟨dec, e, hdecode, rfl, rfl⟩
  · next dec fields hdecode =>
      cases h
      exact Or.inr ⟨dec, fields, hdecode, rfl, rfl⟩

omit [HuffmanDecoding] in
/-- An added fragment leaves the block open. -/
theorem add_fragment_open {d opened : Direction} {hdr : FrameHeader} {payload : Bytes}
    (h : d.addFragment hdr payload = some opened) :
    opened.blockHdr.isSome = true ∧ opened.dec = d.dec ∧ opened.poisoned = d.poisoned ∧
      opened.desynced = d.desynced ∧ opened.resyncs = d.resyncs := by
  have hkept : (d.dropOpenBlock.notePromised hdr payload).dec = d.dec ∧
      (d.dropOpenBlock.notePromised hdr payload).poisoned = d.poisoned ∧
      (d.dropOpenBlock.notePromised hdr payload).desynced = d.desynced ∧
      (d.dropOpenBlock.notePromised hdr payload).resyncs = d.resyncs := by
    unfold notePromised dropOpenBlock
    split
    · split <;> split <;> exact ⟨rfl, rfl, rfl, rfl⟩
    · split <;> exact ⟨rfl, rfl, rfl, rfl⟩
  unfold addFragment at h
  split at h
  · split at h
    · cases h
    · next hopen =>
        cases h
        exact ⟨by simpa [Option.isSome_iff_ne_none] using hopen, rfl, rfl, rfl, rfl⟩
  · obtain ⟨frag, -, rfl⟩ := Option.map_eq_some_iff.mp h
    exact ⟨rfl, hkept⟩

/-- The outcomes of taking a frame: what it does to header blocks and the block it returns. -/
inductive TakeOutcome (d : Direction) (hdr : FrameHeader) (payload : Bytes) :
    Direction → Option DecodedBlock → Prop where
  | other (d' : Direction) :
      hdr.isHeaderFrame = false → SameBlocks d d' → TakeOutcome d hdr payload d' none
  | bad (d' : Direction) :
      hdr.isHeaderFrame = true → d.addFragment hdr payload = none →
      SameBlocks d.markBadBlock d' → TakeOutcome d hdr payload d' none
  | opened (opened d' : Direction) :
      hdr.isHeaderFrame = true → d.addFragment hdr payload = some opened →
      hdr.has Flags.endHeaders = false → SameBlocks opened d' → TakeOutcome d hdr payload d' none
  | failed (opened d' : Direction) (dec : Decoder) (e : HpackError) :
      hdr.isHeaderFrame = true → d.addFragment hdr payload = some opened →
      hdr.has Flags.endHeaders = true → d.dec.decode opened.block = (dec, .error e) →
      SameBlocks { opened.takeBlock with dec := dec.resetPartial, poisoned := true } d' →
      TakeOutcome d hdr payload d' none
  | decoded (opened d' : Direction) (bhdr : FrameHeader) (dec : Decoder) (fields : List Field) :
      hdr.isHeaderFrame = true → d.addFragment hdr payload = some opened →
      hdr.has Flags.endHeaders = true → opened.blockHdr = some bhdr →
      d.dec.decode opened.block = (dec, .ok fields) →
      SameBlocks { opened.takeBlock with dec := dec, openStreams := opened.openStreamsAfter bhdr }
        d' →
      TakeOutcome d hdr payload d' (some {
        streamId := bhdr.streamId
        fields := fields
        endStream := bhdr.has Flags.endStream
        kind := opened.blockKind bhdr
        promisedStreamId := opened.blockPromised
        exact := dec.isExact && dec.unresolved - d.dec.unresolved == 0
        unresolved := dec.unresolved - d.dec.unresolved })

/-- Handling a frame has one of these outcomes. -/
theorem handle_frame_cases (d : Direction) (hdr : FrameHeader) (payload : Bytes) (startOff : Nat)
    (startSeq : Seq) :
    TakeOutcome d hdr payload (d.handleFrame hdr payload startOff startSeq).1
      (d.handleFrame hdr payload startOff startSeq).2.decoded := by
  cases hheader : hdr.isHeaderFrame with
  | false =>
      obtain ⟨hstate, hdecoded⟩ := handle_non_header_frame d hheader payload startOff startSeq
      rw [hstate, hdecoded]
      exact .other d hheader (same_blocks_refl d)
  | true =>
      rw [handle_header_frame d hheader]
      cases hadd : d.addFragment hdr payload with
      | none => exact .bad _ hheader hadd (same_blocks_refl _)
      | some opened =>
          obtain ⟨hopen, hdec, -⟩ := add_fragment_open hadd
          simp only [finishIfEnd]
          cases hend : hdr.has Flags.endHeaders with
          | false => exact .opened opened _ hheader hadd hend (same_blocks_refl _)
          | true =>
              simp only [if_true]
              obtain ⟨bhdr, hbhdr⟩ := Option.isSome_iff_exists.mp hopen
              rcases hfinish : opened.finishBlock with ⟨d', decoded⟩
              rcases finish_block_cases hbhdr hfinish with
                ⟨dec, e, hdecode, rfl, rfl⟩ | ⟨dec, fields, hdecode, rfl, rfl⟩
              · exact .failed opened _ dec e hheader hadd hend (by rw [← hdec, hdecode])
                  ⟨rfl, rfl, rfl, rfl, rfl, rfl, id⟩
              · rw [hdec]
                exact .decoded opened _ bhdr dec fields hheader hadd hend hbhdr
                  (by rw [← hdec, hdecode]) (same_blocks_refl _)

/-- The outcome does not depend on the place in the stream. -/
theorem TakeOutcome.relocated {d d' : Direction} {hdr : FrameHeader} {payload : Bytes}
    {decoded : Option DecodedBlock} (h : TakeOutcome d hdr payload d' decoded) (keep : Bool)
    (frames : Nat) (reasm : Reassembler) (discard : Nat) :
    TakeOutcome d hdr payload (d'.relocated keep frames reasm discard) decoded := by
  have hsame : ∀ {d₁ : Direction}, SameBlocks d₁ d' →
      SameBlocks d₁ (d'.relocated keep frames reasm discard) := fun h =>
    ⟨h.dec, h.poisoned, h.block, h.blockHdr, h.blockPromised, h.openStreams, h.lostPlace⟩
  cases h with
  | other _ hheader h => exact .other _ hheader (hsame h)
  | bad _ hheader hadd h => exact .bad _ hheader hadd (hsame h)
  | opened opened _ hheader hadd hend h => exact .opened opened _ hheader hadd hend (hsame h)
  | failed opened _ dec e hheader hadd hend hdecode h =>
      exact .failed opened _ dec e hheader hadd hend hdecode (hsame h)
  | decoded opened _ bhdr dec fields hheader hadd hend hbhdr hdecode h =>
      exact .decoded opened _ bhdr dec fields hheader hadd hend hbhdr hdecode (hsame h)

/-- Taking a frame does not give a lost place back. -/
theorem TakeOutcome.lost_place {d d' : Direction} {hdr : FrameHeader} {payload : Bytes}
    {decoded : Option DecodedBlock} (h : TakeOutcome d hdr payload d' decoded)
    (hplace : d.LostPlace) : d'.LostPlace := by
  have hopened : ∀ {opened : Direction}, d.addFragment hdr payload = some opened →
      opened.LostPlace := by
    intro opened hadd
    obtain ⟨-, -, -, hdesynced, hresyncs⟩ := add_fragment_open hadd
    simp only [LostPlace, hdesynced, hresyncs]
    exact hplace
  cases h with
  | other _ hheader hsame => exact hsame.lostPlace hplace
  | bad _ hheader hadd hsame => exact hsame.lostPlace (Or.inl rfl)
  | opened opened _ hheader hadd hend hsame => exact hsame.lostPlace (hopened hadd)
  | failed opened _ dec e hheader hadd hend hdecode hsame =>
      have hplace' := hopened hadd
      exact hsame.lostPlace hplace'
  | decoded opened _ bhdr dec fields hheader hadd hend hbhdr hdecode hsame =>
      have hplace' := hopened hadd
      exact hsame.lostPlace hplace'

/-- Taking a frame does not make a poisoned direction healthy. -/
theorem TakeOutcome.poisoned {d d' : Direction} {hdr : FrameHeader} {payload : Bytes}
    {decoded : Option DecodedBlock} (h : TakeOutcome d hdr payload d' decoded)
    (hpoisoned : d.poisoned = true) : d'.poisoned = true := by
  cases h with
  | other _ hheader hsame => exact hsame.poisoned.trans hpoisoned
  | bad _ hheader hadd hsame => exact hsame.poisoned
  | opened opened _ hheader hadd hend hsame =>
      exact hsame.poisoned.trans ((add_fragment_open hadd).2.2.1.trans hpoisoned)
  | failed opened _ dec e hheader hadd hend hdecode hsame => exact hsame.poisoned
  | decoded opened _ bhdr dec fields hheader hadd hend hbhdr hdecode hsame =>
      exact hsame.poisoned.trans ((add_fragment_open hadd).2.2.1.trans hpoisoned)

omit [HuffmanDecoding] in
/-- What it takes for a turn to take a frame. -/
theorem turn_frame_eq_some {d : Direction} {hdr : FrameHeader} {payload : Bytes}
    (h : d.turnFrame = some (hdr, payload)) :
    d.atFrame = true ∧ FrameHeader.parse d.reasm.available = some hdr ∧
      d.wantPayload hdr = true ∧ frameHeaderLen + hdr.len ≤ d.reasm.available.length ∧
      payload = (d.reasm.available.drop frameHeaderLen).take hdr.len := by
  unfold turnFrame at h
  split at h
  · next hat =>
      split at h
      · cases h
      · next hparse =>
          split at h
          · next hwant =>
              cases h
              simp only [Bool.and_eq_true, decide_eq_true_eq] at hwant
              exact ⟨hat, hparse, hwant.1, hwant.2, rfl⟩
          · cases h
  · cases h

/-- Taking the frame of a turn has one of these outcomes. -/
theorem take_frame_cases {d : Direction} {hdr : FrameHeader} {payload : Bytes}
    (h : d.turnFrame = some (hdr, payload)) :
    TakeOutcome d hdr payload (d.takeFrame hdr).1 (d.takeFrame hdr).2.decoded := by
  obtain ⟨-, -, -, -, rfl⟩ := turn_frame_eq_some h
  rw [take_frame_eq]
  exact (handle_frame_cases d hdr _ _ _).relocated _ _ _ _

/-! ## Turns -/

/-- The outcomes of a turn, as far as header blocks are concerned. -/
inductive Turn (d : Direction) : Progress → Prop where
  | stop (d' : Direction) : SameBlocks d d' → Turn d (.stop d')
  | move (d' : Direction) : SameBlocks d d' → Turn d (.more d' none)
  | misaligned (d' : Direction) :
      SameBlocks { d with dec := d.dec.resetPartial } d' → Turn d (.more d' none)
  | skip (hdr : FrameHeader) :
      d.atFrame = true → FrameHeader.parse d.reasm.available = some hdr →
      d.wantPayload hdr = false → Turn d (.more (d.skipFrame hdr).1 (some (d.skipFrame hdr).2))
  | take (hdr : FrameHeader) (payload : Bytes) :
      d.turnFrame = some (hdr, payload) →
      Turn d (.more (d.takeFrame hdr).1 (some (d.takeFrame hdr).2))

/-- Every turn has one of these outcomes. -/
theorem turn_cases (d : Direction) : Turn d d.parseStep := by
  unfold parseStep
  split
  · simp only [discardStep]
    split
    · exact .stop _ (same_blocks_refl d)
    · exact .move _ ⟨rfl, rfl, rfl, rfl, rfl, rfl, id⟩
  · next hdiscard =>
      split
      · simp only [seekStep]
        split
        · split
          · exact .stop _ (same_blocks_refl d)
          · exact .move _ ⟨rfl, rfl, rfl, rfl, rfl, rfl, id⟩
        · split
          · exact .misaligned _ ⟨rfl, rfl, rfl, rfl, rfl, rfl, fun _ => Or.inl rfl⟩
          · exact .move _ ⟨rfl, rfl, rfl, rfl, rfl, rfl, id⟩
      · next hpending =>
          split
          · rw [resync_step_eq]
            split
            · exact .stop _ (same_blocks_refl d)
            · split
              · exact .move _ ⟨rfl, rfl, rfl, rfl, rfl, rfl, fun _ => Or.inr (Nat.succ_pos _)⟩
              · exact .stop _ (same_blocks_refl d)
              · split
                · exact .stop _ (same_blocks_reasm d _)
                · exact .stop _ (same_blocks_refl d)
          · next hsynced =>
              split
              · simp only [prefaceStep]
                split
                · exact .stop _ (same_blocks_refl d)
                · split <;> exact .move _ ⟨rfl, rfl, rfl, rfl, rfl, rfl, id⟩
              · next hpreface =>
                  have hat : d.atFrame = true := by
                    simp [atFrame, hpending, hsynced, hpreface]
                    omega
                  unfold frameStep
                  split
                  · exact .stop _ (same_blocks_refl d)
                  · next hdr hparse =>
                      split
                      · next hwant =>
                          split
                          · exact .stop _ (same_blocks_refl d)
                          · next hshort =>
                              have hlength : frameHeaderLen + hdr.len ≤
                                  d.reasm.available.length := by omega
                              refine .take hdr
                                ((d.reasm.available.drop frameHeaderLen).take hdr.len) ?_
                              simp only [turnFrame, hat, hparse, hwant, hlength, if_true,
                                Bool.true_and, decide_true]
                      · next hwant => exact .skip hdr hat hparse (by simpa using hwant)

/-- The direction at the start of every turn of the parse loop. -/
def turns (d : Direction) : List Direction :=
  match _h : d.parseStep with
  | .stop _ => [d]
  | .more d' _ => d :: turns d'
termination_by d.work
decreasing_by exact work_parse_step _h

theorem turns_of_stop {d d' : Direction} (h : d.parseStep = .stop d') : d.turns = [d] := by
  rw [turns]
  split
  · rfl
  · next h' =>
      rw [h] at h'
      cases h'

theorem turns_of_more {d d' : Direction} {frame : Option ProcessedFrame}
    (h : d.parseStep = .more d' frame) : d.turns = d :: d'.turns := by
  rw [turns]
  split
  · next h' =>
      rw [h] at h'
      cases h'
  · next h' =>
      rw [h] at h'
      cases h'
      rfl

theorem mem_turns_self (d : Direction) : d ∈ d.turns := by
  rw [turns]
  split <;> simp

/-- The turns after the first one are turns of the whole loop. -/
theorem mem_turns_of_more {d d' t : Direction} {frame : Option ProcessedFrame}
    (h : d.parseStep = .more d' frame) (ht : t ∈ d'.turns) : t ∈ d.turns := by
  rw [turns_of_more h]
  exact List.mem_cons_of_mem _ ht

/-- A property that every guarded turn keeps, with a property of the frames it returns, holds of the
whole parse loop. -/
theorem parse_rule {P : Direction → Prop} {G : Direction → Prop} {Q : ProcessedFrame → Prop}
    (hstop : ∀ d d', P d → d.parseStep = .stop d' → P d')
    (hmore : ∀ d d' frame, P d → G d → d.parseStep = .more d' frame →
      P d' ∧ ∀ pf ∈ frame, Q pf) {d : Direction} (hguard : ∀ t ∈ d.turns, G t) (hinit : P d) :
    P d.parse.1 ∧ ∀ pf ∈ d.parse.2, Q pf := by
  induction hwork : d.work using Nat.strongRecOn generalizing d with
  | ind n ih =>
      subst hwork
      cases hturn : d.parseStep with
      | stop d' =>
          rw [parse_of_stop hturn]
          exact ⟨hstop d d' hinit hturn, by simp⟩
      | more d' frame =>
          obtain ⟨hnext, hframe⟩ := hmore d d' frame hinit (hguard d (mem_turns_self d)) hturn
          obtain ⟨hfinal, hframes⟩ := ih _ (work_parse_step hturn)
            (fun t ht => hguard t (mem_turns_of_more hturn ht)) hnext rfl
          rw [parse_of_more hturn]
          refine ⟨hfinal, fun pf hpf => ?_⟩
          rcases List.mem_append.mp hpf with hpf | hpf
          · exact hframe pf (by simpa using hpf)
          · exact hframes pf hpf

/-! ## Lost sync -/

/-- The direction has lost its place and knows it. -/
def LostSync (d : Direction) : Prop := d.poisoned = true ∧ d.LostPlace

/-- Parsing does not restore a lost direction. -/
theorem lost_sync_parse {d : Direction} (h : d.LostSync) : d.parse.1.LostSync := by
  refine (parse_rule (P := LostSync) (G := fun _ => True) (Q := fun _ => True) ?_ ?_
    (fun _ _ => trivial) h).1
  · rintro d d' ⟨hpoisoned, hplace⟩ hturn
    have hcases := turn_cases d
    rw [hturn] at hcases
    cases hcases with
    | stop _ hsame => exact ⟨hsame.poisoned.trans hpoisoned, hsame.lostPlace hplace⟩
  · rintro d d' frame ⟨hpoisoned, hplace⟩ - hturn
    refine ⟨?_, fun _ _ => trivial⟩
    have hcases := turn_cases d
    rw [hturn] at hcases
    cases hcases with
    | move _ hsame => exact ⟨hsame.poisoned.trans hpoisoned, hsame.lostPlace hplace⟩
    | misaligned _ hsame => exact ⟨hsame.poisoned.trans hpoisoned, hsame.lostPlace hplace⟩
    | skip hdr hat hparse hwant => exact ⟨hpoisoned, hplace⟩
    | take hdr payload hframe =>
        have htake := take_frame_cases hframe
        exact ⟨htake.poisoned hpoisoned, htake.lost_place hplace⟩

/-! ## Reassembly -/

omit [HuffmanDecoding] in
/-- The direction after a turn. -/
def Progress.next : Progress → Direction
  | .stop d => d
  | .more d _ => d

/-- A turn takes bytes from the front of the buffer, and does nothing else to the reassembler. -/
theorem reasm_parse_step (d : Direction) :
    d.parseStep.next.reasm = d.reasm ∨ ∃ n, d.parseStep.next.reasm = d.reasm.consume n := by
  unfold parseStep
  split
  · simp only [discardStep]
    split
    · exact Or.inl rfl
    · exact Or.inr ⟨_, rfl⟩
  · split
    · simp only [seekStep]
      split
      · split
        · exact Or.inl rfl
        · exact Or.inr ⟨_, rfl⟩
      · split <;> exact Or.inl rfl
    · split
      · rw [resync_step_eq]
        split
        · exact Or.inl rfl
        · split
          · exact Or.inr ⟨_, rfl⟩
          · exact Or.inl rfl
          · split
            · exact Or.inr ⟨d.reasm.available.length - resyncWindow, by rw [Progress.next]⟩
            · exact Or.inl rfl
      · split
        · simp only [prefaceStep]
          split
          · exact Or.inl rfl
          · split
            · exact Or.inr ⟨_, rfl⟩
            · exact Or.inl rfl
        · unfold frameStep
          split
          · exact Or.inl rfl
          · split
            · split
              · exact Or.inl rfl
              · exact Or.inr ⟨_, (same_position_handle_frame _ _ _ _ _).reasm⟩
            · exact Or.inr ⟨_, rfl⟩

/-- What every turn keeps holds after the loop. -/
theorem parse_keeps {P : Direction → Prop} (hturn : ∀ t, P t → P t.parseStep.next) {d : Direction}
    (hinit : P d) : P d.parse.1 := by
  refine (parse_rule (P := P) (G := fun _ => True) (Q := fun _ => True) ?_ ?_ (fun _ _ => trivial)
    hinit).1
  · intro t t' ht hstop
    have hnext := hturn t ht
    rwa [hstop] at hnext
  · intro t t' frame ht _ hmore
    have hnext := hturn t ht
    rw [hmore] at hnext
    exact ⟨hnext, fun _ _ => trivial⟩

/-- What every turn keeps holds at the start of every turn. -/
theorem turns_keep {P : Direction → Prop} (hturn : ∀ t, P t → P t.parseStep.next) {d : Direction}
    (hinit : P d) : ∀ t ∈ d.turns, P t := by
  induction hwork : d.work using Nat.strongRecOn generalizing d with
  | ind n ih =>
      subst hwork
      have hnext := hturn d hinit
      cases hstep : d.parseStep with
      | stop d' =>
          rw [turns_of_stop hstep]
          intro t ht
          rwa [List.mem_singleton.mp ht]
      | more d' frame =>
          rw [hstep] at hnext
          rw [turns_of_more hstep]
          intro t ht
          rcases List.mem_cons.mp ht with rfl | ht
          · exact hinit
          · exact ih _ (work_parse_step hstep) hnext rfl t ht

/-- Parsing only takes bytes from the front of the buffer. -/
theorem reasm_parse {P : Reassembler → Prop} (hconsume : ∀ r n, P r → P (r.consume n))
    {d : Direction} (hinit : P d.reasm) : P d.parse.1.reasm := by
  refine parse_keeps (P := fun t => P t.reasm) (fun t ht => ?_) hinit
  rcases reasm_parse_step t with hsame | ⟨n, hconsumed⟩
  · rwa [hsame]
  · rw [hconsumed]
    exact hconsume _ n ht

/-- Parsing leaves all of the reassembler but the buffer alone. -/
theorem outside_parse (d : Direction) : d.parse.1.reasm.outside = d.reasm.outside :=
  reasm_parse (P := fun r => r.outside = d.reasm.outside)
    (fun r n hr => (Reassembler.outside_consume r n).trans hr) rfl

/-- A feed pushes, and the parser takes bytes from the front of the buffer. -/
theorem reasm_feed {P : Reassembler → Prop} (hconsume : ∀ r n, P r → P (r.consume n))
    {d : Direction} {seq : Seq} {data : Bytes} {nowUs : Nat}
    (h : P (d.reasm.push seq data nowUs).1) : P (d.feed seq data nowUs).1.reasm := by
  refine reasm_parse hconsume ?_
  unfold withReassembled
  split <;> exact h

/-- So does a timeout. -/
theorem reasm_tick {P : Reassembler → Prop} (hconsume : ∀ r n, P r → P (r.consume n))
    {d : Direction} {nowUs : Nat} (h : P (d.reasm.checkTimeout nowUs).1) :
    P (d.tick nowUs).1.reasm := by
  unfold tick
  split
  · refine reasm_parse hconsume ?_
    unfold withReassembled
    split <;> exact h
  · exact h

omit [HuffmanDecoding] in
/-- A table size changes the decoder only. -/
theorem reasm_peer_capacities (sizes : List Nat) (d : Direction) :
    (sizes.foldl applyPeerCapacity d).reasm = d.reasm := by
  induction sizes generalizing d with
  | nil => rfl
  | cons n sizes ih => exact ih (d.applyPeerCapacity n)

/-! ## Decode errors -/

theorem decode_errors_finish_if_end (d : Direction) (hdr : FrameHeader) :
    d.decodeErrors ≤ (d.finishIfEnd hdr).1.decodeErrors := by
  unfold finishIfEnd finishBlock
  split
  · split
    · exact le_refl _
    · split
      · exact Nat.le_succ _
      · exact le_refl _
  · exact le_refl _

/-- Handling a frame forgets no error. -/
theorem decode_errors_handle_frame (d : Direction) (hdr : FrameHeader) (payload : Bytes)
    (startOff : Nat) (startSeq : Seq) :
    d.decodeErrors ≤ (d.handleFrame hdr payload startOff startSeq).1.decodeErrors := by
  cases hheader : hdr.isHeaderFrame with
  | false => rw [(handle_non_header_frame d hheader payload startOff startSeq).1]
  | true =>
      rw [handle_header_frame d hheader]
      cases hadd : d.addFragment hdr payload with
      | none => exact le_refl _
      | some opened =>
          have hopened : opened.decodeErrors = d.decodeErrors := by
            unfold addFragment at hadd
            split at hadd
            · split at hadd
              · cases hadd
              · cases hadd
                rfl
            · obtain ⟨frag, -, rfl⟩ := Option.map_eq_some_iff.mp hadd
              unfold notePromised dropOpenBlock
              split
              · split <;> split <;> rfl
              · split <;> rfl
          rw [← hopened]
          exact decode_errors_finish_if_end opened hdr

omit [HuffmanDecoding] in
theorem decode_errors_reasm (d : Direction) (reasm : Reassembler) :
    d.decodeErrors = { d with reasm := reasm }.decodeErrors := rfl

/-- A turn forgets no error. -/
theorem decode_errors_parse_step (d : Direction) : d.decodeErrors ≤
    d.parseStep.next.decodeErrors := by
  unfold parseStep
  split
  · simp only [discardStep]
    split <;> simp only [Progress.next, le_refl]
  · split
    · simp only [seekStep]
      split
      · split <;> simp only [Progress.next, le_refl]
      · split <;> simp only [Progress.next, le_refl]
    · split
      · rw [resync_step_eq]
        split
        · simp only [Progress.next, le_refl]
        · split
          · simp only [Progress.next, le_refl]
          · simp only [Progress.next, le_refl]
          · split
            · exact (decode_errors_reasm d _).le
            · exact le_refl _
      · split
        · simp only [prefaceStep]
          split
          · simp only [Progress.next, le_refl]
          · split <;> simp only [Progress.next, le_refl]
        · unfold frameStep
          split
          · simp only [Progress.next, le_refl]
          · split
            · split
              · simp only [Progress.next, le_refl]
              · next hdr _ _ _ =>
                  exact decode_errors_handle_frame { d with
                    reasm := d.reasm.consume (frameHeaderLen + hdr.len)
                    frames := d.frames + 1 } hdr _ _ _
            · exact le_refl _

/-- Nor does the loop. -/
theorem decode_errors_parse (d : Direction) : d.decodeErrors ≤ d.parse.1.decodeErrors := by
  refine (parse_rule (P := fun t => d.decodeErrors ≤ t.decodeErrors) (G := fun _ => True)
    (Q := fun _ => True) ?_ ?_ (fun _ _ => trivial) (le_refl _)).1
  · intro t t' ht hturn
    have hstep := decode_errors_parse_step t
    rw [hturn] at hstep
    exact ht.trans hstep
  · intro t t' frame ht _ hturn
    have hstep := decode_errors_parse_step t
    rw [hturn] at hstep
    exact ⟨ht.trans hstep, fun _ _ => trivial⟩

/-- A feed forgets no error. -/
theorem decode_errors_feed (d : Direction) (seq : Seq) (data : Bytes) (nowUs : Nat) :
    d.decodeErrors ≤ (d.feed seq data nowUs).1.decodeErrors := by
  have hpushed : (d.withReassembled (d.reasm.push seq data nowUs)).decodeErrors =
      d.decodeErrors := by
    unfold withReassembled
    split <;> rfl
  exact hpushed.ge.trans (decode_errors_parse _)

/-- The direction at the start of every turn of the parse loop that an operation runs. -/
def opTurns (d : Direction) : DirOp → List Direction
  | .feed seq data nowUs => (d.withReassembled (d.reasm.push seq data nowUs)).turns
  | .tick nowUs =>
      if (d.reasm.checkTimeout nowUs).2 then
        (d.withReassembled (d.reasm.checkTimeout nowUs)).turns
      else []
  | .applyPeerCapacity _ => []

end H2Tap.Direction
