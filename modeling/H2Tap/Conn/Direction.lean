import H2Tap.Frame
import H2Tap.Reassembly
import H2Tap.Hpack.Decoder

/-!
# The per-direction HTTP/2 state machine

`conn.rs`: reassembly, framing and HPACK for one direction of a connection. `parseStep` is one turn
of the loop of `Direction::parse`, which either stops or goes on, possibly with a frame; `parse`
repeats it. `feed` and `tick` are the entry points.
-/

namespace H2Tap

/-- `MAX_BUFFERED_FRAME`: payloads above it are dropped. -/
def maxBufferedFrame : Nat := 2 ^ 20

/-- `RESYNC_WINDOW`: what is kept while hunting for a frame boundary. -/
def resyncWindow : Nat := 2 ^ 16

inductive BlockKind where
  | headers
  | trailers
  | pushPromise
  deriving DecidableEq, Repr

/-- A decoded header block. `exact` says that the dynamic table was fully known and no reference in
the block went unresolved. -/
structure DecodedBlock where
  streamId : Nat
  fields : List Field
  endStream : Bool
  kind : BlockKind
  promisedStreamId : Option Nat
  exact : Bool
  unresolved : Nat
  deriving DecidableEq, Repr

/-- A frame that the parser consumed, at its stream offset and sequence number. -/
structure ProcessedFrame where
  hdr : FrameHeader
  payload : Bytes
  startOff : Nat
  startSeq : Seq
  decoded : Option DecodedBlock
  isHeaderFrame : Bool
  truncated : Bool
  settingsTableSize : Option Nat
  deriving DecidableEq, Repr

structure Direction where
  reasm : Reassembler
  dec : Decoder
  poisoned : Bool
  desynced : Bool
  frames : Nat
  blocks : Nat
  decodeErrors : Nat
  resyncs : Nat
  keepPayloads : Bool
  expectPreface : Bool
  discard : Nat
  pendingStartSeq : Option Seq
  snapshotMisaligned : Bool
  preSnapshotSkipped : Nat
  tableTrackLimit : Nat
  block : Bytes
  blockHdr : Option FrameHeader
  blockPromised : Option Nat
  openStreams : Finset Nat
  deriving DecidableEq

namespace Direction

/-- `Direction::joined_midstream`: frame boundaries and table unknown. -/
def joinedMidstream (keepPayloads : Bool) : Direction where
  reasm := .new
  dec := .newPartial
  poisoned := false
  desynced := true
  frames := 0
  blocks := 0
  decodeErrors := 0
  resyncs := 0
  keepPayloads := keepPayloads
  expectPreface := false
  discard := 0
  pendingStartSeq := none
  snapshotMisaligned := false
  preSnapshotSkipped := 0
  tableTrackLimit := usizeMax
  block := []
  blockHdr := none
  blockPromised := none
  openStreams := ∅

/-- `Direction::from_connection_start`. -/
def fromConnectionStart (keepPayloads expectPreface : Bool) : Direction :=
  { joinedMidstream keepPayloads with
    dec := .newExact
    desynced := false
    expectPreface := expectPreface }

/-- `Direction::set_table_track_limit`. -/
def setTableTrackLimit (d : Direction) (n : Nat) : Direction :=
  { d with tableTrackLimit := n, dec := d.dec.setTrackLimit n }

/-- `Direction::seed_from_snapshot`. -/
def seedFromSnapshot (d : Direction) (entries : List Field) (maxSize : Nat) (nextFrameSeq : Seq) :
    Direction :=
  { d with
    dec := (Decoder.fromEntries entries maxSize).setTrackLimit d.tableTrackLimit
    desynced := false
    poisoned := false
    expectPreface := false
    block := []
    blockHdr := none
    blockPromised := none
    discard := 0
    pendingStartSeq := some nextFrameSeq }

/-- `Direction::next_frame_seq`. -/
def nextFrameSeq (d : Direction) : Seq := d.reasm.nextUnparsedSeq

/-- `Direction::is_snapshottable`. -/
def isSnapshottable (d : Direction) : Bool :=
  !d.poisoned && !d.desynced && d.dec.isExact && d.blockHdr.isNone

/-- `Direction::on_gap`. -/
def onGap (d : Direction) : Direction :=
  { d with
    poisoned := true
    desynced := true
    discard := 0
    block := []
    blockHdr := none
    blockPromised := none
    dec := d.dec.resetPartial }

/-- `Direction::mark_bad_block`. -/
def markBadBlock (d : Direction) : Direction :=
  { d with
    block := []
    blockHdr := none
    blockPromised := none
    poisoned := true
    desynced := true
    dec := d.dec.resetPartial }

/-! ## Header blocks -/

/-- The kind of a block that starts with `hdr`. -/
def blockKind (d : Direction) (hdr : FrameHeader) : BlockKind :=
  if hdr.typ = FrameType.pushPromise then .pushPromise
  else if hdr.streamId ∈ d.openStreams then .trailers
  else .headers

/-- The streams that are open after a block that starts with `hdr`. -/
def openStreamsAfter (d : Direction) (hdr : FrameHeader) : Finset Nat :=
  if hdr.typ = FrameType.pushPromise then d.openStreams
  else if hdr.has Flags.endStream then d.openStreams.erase hdr.streamId
  else if d.openStreams.card > 65536 then {hdr.streamId}
  else insert hdr.streamId d.openStreams

/-- The open block taken out of the direction. -/
def takeBlock (d : Direction) : Direction :=
  { d with block := [], blockHdr := none, blockPromised := none, blocks := d.blocks + 1 }

/-- The decoded blocks a call returns. -/
def decodedBlocks (frames : List ProcessedFrame) : List DecodedBlock :=
  frames.filterMap ProcessedFrame.decoded

/-- The table sizes a call returns. -/
def settingsSizes (frames : List ProcessedFrame) : List Nat :=
  frames.filterMap ProcessedFrame.settingsTableSize

variable [HuffmanDecoding]

/-- `Direction::finish_block`. A failed decode forgets the table but keeps the framing. -/
def finishBlock (d : Direction) : Direction × Option DecodedBlock :=
  match d.blockHdr with
  | none => (d, none)
  | some hdr =>
      match d.dec.decode d.block with
      | (dec, .error _) =>
          ({ d.takeBlock with
            dec := dec.resetPartial
            decodeErrors := d.decodeErrors + 1
            poisoned := true }, none)
      | (dec, .ok fields) =>
          ({ d.takeBlock with dec := dec, openStreams := d.openStreamsAfter hdr },
            some {
              streamId := hdr.streamId
              fields := fields
              endStream := hdr.has Flags.endStream
              kind := d.blockKind hdr
              promisedStreamId := d.blockPromised
              exact := dec.isExact && dec.unresolved - d.dec.unresolved == 0
              unresolved := dec.unresolved - d.dec.unresolved })

/-- Finish the block if the frame ends it. -/
def finishIfEnd (d : Direction) (hdr : FrameHeader) : Direction × Option DecodedBlock :=
  if hdr.has Flags.endHeaders then d.finishBlock else (d, none)

omit [HuffmanDecoding] in
/-- A new block while one is open: the fragments so far are dropped. -/
def dropOpenBlock (d : Direction) : Direction :=
  if d.blockHdr.isSome then { d with block := [] } else d

omit [HuffmanDecoding] in
/-- Record the promised stream id of a PUSH_PROMISE frame. -/
def notePromised (d : Direction) (hdr : FrameHeader) (payload : Bytes) : Direction :=
  if hdr.typ = FrameType.pushPromise then
    match promisedStreamId hdr payload with
    | some sid => { d with blockPromised := some sid }
    | none => d
  else d

/-- `handle_frame` on HEADERS and PUSH_PROMISE. -/
def beginBlock (d : Direction) (hdr : FrameHeader) (payload : Bytes) :
    Direction × Option DecodedBlock :=
  let d := d.dropOpenBlock.notePromised hdr payload
  match headerBlockFragment hdr payload with
  | some frag => { d with block := d.block ++ frag, blockHdr := some hdr }.finishIfEnd hdr
  | none => (d.markBadBlock, none)

/-- `handle_frame` on CONTINUATION. -/
def continueBlock (d : Direction) (hdr : FrameHeader) (payload : Bytes) :
    Direction × Option DecodedBlock :=
  if d.blockHdr.isNone then (d.markBadBlock, none)
  else { d with block := d.block ++ payload }.finishIfEnd hdr

/-- `Direction::handle_frame`. -/
def handleFrame (d : Direction) (hdr : FrameHeader) (payload : Bytes) (startOff : Nat)
    (startSeq : Seq) : Direction × ProcessedFrame :=
  let pf : ProcessedFrame := ⟨hdr, payload, startOff, startSeq, none, false, false, none⟩
  if hdr.typ = FrameType.settings then
    (d, { pf with settingsTableSize := settingsHeaderTableSize hdr payload })
  else if hdr.typ = FrameType.headers ∨ hdr.typ = FrameType.pushPromise then
    ((d.beginBlock hdr payload).1,
      { pf with decoded := (d.beginBlock hdr payload).2, isHeaderFrame := true })
  else if hdr.typ = FrameType.continuation then
    ((d.continueBlock hdr payload).1,
      { pf with decoded := (d.continueBlock hdr payload).2, isHeaderFrame := true })
  else (d, pf)

/-! ## The parse loop -/

omit [HuffmanDecoding] in
/-- The scan of `try_resync`: the first offset that is not refused, and whether it is a boundary. -/
def scanBoundary (a : Bytes) : Option (Nat × Bool) :=
  (List.range (a.length - frameHeaderLen + 1)).findSome? fun off =>
    match checkFrameChain (a.drop off) 4 2 with
    | .ok => some (off, true)
    | .needMore => some (off, false)
    | .bad => none

omit [HuffmanDecoding] in
/-- `Direction::try_resync`: true when a frame boundary was adopted. -/
def tryResync (d : Direction) : Direction × Bool :=
  let a := d.reasm.available
  if a.length < frameHeaderLen then (d, false)
  else
    match scanBoundary a with
    | some (off, true) =>
        ({ d with reasm := d.reasm.consume off, desynced := false, resyncs := d.resyncs + 1 }, true)
    | some (_, false) => (d, false)
    | none =>
        if a.length > resyncWindow then
          ({ d with reasm := d.reasm.consume (a.length - resyncWindow) }, false)
        else (d, false)

/-- What one turn of the loop of `parse` does: break, or go on, with a frame if one was pushed. -/
inductive Progress where
  | stop (d : Direction)
  | more (d : Direction) (frame : Option ProcessedFrame)

omit [HuffmanDecoding] in
/-- A turn while a payload is being thrown away. -/
def discardStep (d : Direction) : Progress :=
  let n := min d.discard d.reasm.available.length
  if n = 0 then .stop d
  else .more { d with reasm := d.reasm.consume n, discard := d.discard - n } none

omit [HuffmanDecoding] in
/-- A turn while seeking the snapshot's `next_frame_seq`. -/
def seekStep (d : Direction) (target : Seq) : Progress :=
  let delta := seqDelta target d.reasm.nextUnparsedSeq
  if delta > 0 then
    let n := min delta.toNat d.reasm.available.length
    if n = 0 then .stop d
    else
      .more { d with
        reasm := d.reasm.consume n
        preSnapshotSkipped := d.preSnapshotSkipped + n } none
  else if delta < 0 then
    -- bytes the snapshot assumed are missing
    .more { d with
      snapshotMisaligned := true
      dec := d.dec.resetPartial
      desynced := true
      pendingStartSeq := none } none
  else .more { d with pendingStartSeq := none } none

omit [HuffmanDecoding] in
/-- A turn while hunting for a frame boundary. -/
def resyncStep (d : Direction) : Progress :=
  match d.tryResync with
  | (d, true) => .more d none
  | (d, false) => .stop d

omit [HuffmanDecoding] in
/-- A turn while the client preface is expected. -/
def prefaceStep (d : Direction) : Progress :=
  let a := d.reasm.available
  if a.length < preface.length then .stop d
  else if preface.isPrefixOf a then
    .more { d with expectPreface := false, reasm := d.reasm.consume preface.length } none
  else .more { d with expectPreface := false } none

omit [HuffmanDecoding] in
/-- `want_payload`: whether the payload of a frame is buffered and handled. -/
def wantPayload (d : Direction) (hdr : FrameHeader) : Bool :=
  (d.keepPayloads || hdr.isHeaderFrame || hdr.typ == FrameType.settings) &&
    decide (hdr.len ≤ maxBufferedFrame)

omit [HuffmanDecoding] in
/-- Step over a frame header and drop the payload that follows. -/
def skipFrame (d : Direction) (hdr : FrameHeader) : Direction × ProcessedFrame :=
  ({ d with
      reasm := d.reasm.consume frameHeaderLen
      discard := hdr.len
      frames := d.frames + 1 },
    { hdr := hdr
      payload := []
      startOff := d.reasm.offset
      startSeq := d.reasm.nextUnparsedSeq
      decoded := none
      isHeaderFrame := hdr.isHeaderFrame
      truncated := true
      settingsTableSize := none })

/-- Take a whole frame. -/
def takeFrame (d : Direction) (hdr : FrameHeader) : Direction × ProcessedFrame :=
  { d with
    reasm := d.reasm.consume (frameHeaderLen + hdr.len)
    frames := d.frames + 1 }.handleFrame hdr
      ((d.reasm.available.drop frameHeaderLen).take hdr.len) d.reasm.offset
      d.reasm.nextUnparsedSeq

/-- A turn at a frame boundary. -/
def frameStep (d : Direction) : Progress :=
  match FrameHeader.parse d.reasm.available with
  | none => .stop d
  | some hdr =>
      if d.wantPayload hdr then
        if d.reasm.available.length < frameHeaderLen + hdr.len then .stop d
        else .more (d.takeFrame hdr).1 (some (d.takeFrame hdr).2)
      else .more (d.skipFrame hdr).1 (some (d.skipFrame hdr).2)

/-- One turn of the loop of `Direction::parse`. -/
def parseStep (d : Direction) : Progress :=
  if d.discard > 0 then d.discardStep
  else
    match d.pendingStartSeq with
    | some target => d.seekStep target
    | none =>
        if d.desynced then d.resyncStep
        else if d.expectPreface then d.prefaceStep
        else d.frameStep

/-! ## Termination -/

/-- What handling a frame leaves alone: everything but the decoder and the header block. -/
structure SamePosition (d d' : Direction) : Prop where
  reasm : d'.reasm = d.reasm
  frames : d'.frames = d.frames
  resyncs : d'.resyncs = d.resyncs
  keepPayloads : d'.keepPayloads = d.keepPayloads
  expectPreface : d'.expectPreface = d.expectPreface
  discard : d'.discard = d.discard
  pendingStartSeq : d'.pendingStartSeq = d.pendingStartSeq
  snapshotMisaligned : d'.snapshotMisaligned = d.snapshotMisaligned
  preSnapshotSkipped : d'.preSnapshotSkipped = d.preSnapshotSkipped
  tableTrackLimit : d'.tableTrackLimit = d.tableTrackLimit

omit [HuffmanDecoding] in
theorem SamePosition.trans {d d' d'' : Direction} (h : SamePosition d d')
    (h' : SamePosition d' d'') : SamePosition d d'' :=
  ⟨h'.reasm.trans h.reasm, h'.frames.trans h.frames, h'.resyncs.trans h.resyncs,
    h'.keepPayloads.trans h.keepPayloads, h'.expectPreface.trans h.expectPreface,
    h'.discard.trans h.discard, h'.pendingStartSeq.trans h.pendingStartSeq,
    h'.snapshotMisaligned.trans h.snapshotMisaligned,
    h'.preSnapshotSkipped.trans h.preSnapshotSkipped, h'.tableTrackLimit.trans h.tableTrackLimit⟩

omit [HuffmanDecoding] in
theorem same_position_refl (d : Direction) : SamePosition d d :=
  ⟨rfl, rfl, rfl, rfl, rfl, rfl, rfl, rfl, rfl, rfl⟩

theorem same_position_finish_block (d : Direction) : SamePosition d d.finishBlock.1 := by
  unfold finishBlock
  split
  · exact same_position_refl d
  · split <;> exact ⟨rfl, rfl, rfl, rfl, rfl, rfl, rfl, rfl, rfl, rfl⟩

theorem same_position_finish_if_end (d : Direction) (hdr : FrameHeader) :
    SamePosition d (d.finishIfEnd hdr).1 := by
  unfold finishIfEnd
  split
  · exact same_position_finish_block d
  · exact same_position_refl d

theorem same_position_begin_block (d : Direction) (hdr : FrameHeader) (payload : Bytes) :
    SamePosition d (d.beginBlock hdr payload).1 := by
  have hdrop : SamePosition d d.dropOpenBlock := by
    unfold dropOpenBlock
    split <;> exact ⟨rfl, rfl, rfl, rfl, rfl, rfl, rfl, rfl, rfl, rfl⟩
  have hnote : SamePosition d.dropOpenBlock (d.dropOpenBlock.notePromised hdr payload) := by
    unfold notePromised
    split
    · split <;> exact ⟨rfl, rfl, rfl, rfl, rfl, rfl, rfl, rfl, rfl, rfl⟩
    · exact same_position_refl _
  refine (hdrop.trans hnote).trans ?_
  simp only [beginBlock]
  split
  · refine SamePosition.trans ?_ (same_position_finish_if_end _ hdr)
    exact ⟨rfl, rfl, rfl, rfl, rfl, rfl, rfl, rfl, rfl, rfl⟩
  · exact ⟨rfl, rfl, rfl, rfl, rfl, rfl, rfl, rfl, rfl, rfl⟩

theorem same_position_continue_block (d : Direction) (hdr : FrameHeader) (payload : Bytes) :
    SamePosition d (d.continueBlock hdr payload).1 := by
  unfold continueBlock
  split
  · exact ⟨rfl, rfl, rfl, rfl, rfl, rfl, rfl, rfl, rfl, rfl⟩
  · refine SamePosition.trans ?_ (same_position_finish_if_end _ hdr)
    exact ⟨rfl, rfl, rfl, rfl, rfl, rfl, rfl, rfl, rfl, rfl⟩

/-- Handling a frame does not move the direction in the stream. -/
theorem same_position_handle_frame (d : Direction) (hdr : FrameHeader) (payload : Bytes)
    (startOff : Nat) (startSeq : Seq) :
    SamePosition d (d.handleFrame hdr payload startOff startSeq).1 := by
  unfold handleFrame
  split
  · exact same_position_refl d
  · split
    · exact same_position_begin_block d hdr payload
    · split
      · exact same_position_continue_block d hdr payload
      · exact same_position_refl d

omit [HuffmanDecoding] in
/-- What every turn of the loop decreases: it takes bytes, or leaves one of the modes behind. -/
def work (d : Direction) : Nat :=
  4 * d.reasm.available.length + 2 * d.pendingStartSeq.isSome.toNat + d.desynced.toNat +
    d.expectPreface.toNat

omit [HuffmanDecoding] in
theorem SamePosition.work_le {d d' : Direction} (h : SamePosition d d') : d'.work ≤ d.work + 1 := by
  have := Bool.toNat_le d'.desynced
  simp only [work, h.reasm, h.pendingStartSeq, h.expectPreface]
  omega

theorem work_frame_step {d d' : Direction} {frame : Option ProcessedFrame}
    (h : d.frameStep = .more d' frame) : d'.work < d.work := by
  unfold frameStep at h
  split at h
  · cases h
  · next hdr hparse =>
      have hlength := FrameHeader.length_of_parse hparse
      simp only [frameHeaderLen] at hlength
      split at h
      · split at h
        · cases h
        · cases h
          refine lt_of_le_of_lt (same_position_handle_frame _ _ _ _ _).work_le ?_
          simp only [work, Reassembler.available_consume, List.length_drop, frameHeaderLen]
          omega
      · cases h
        simp only [work, skipFrame, Reassembler.available_consume, List.length_drop,
          frameHeaderLen]
        omega

omit [HuffmanDecoding] in
/-- A resync adopts the boundary that the scan found. -/
theorem try_resync_true {d d' : Direction} (h : d.tryResync = (d', true)) :
    ∃ off, scanBoundary d.reasm.available = some (off, true) ∧
      d' = { d with
        reasm := d.reasm.consume off, desynced := false, resyncs := d.resyncs + 1 } := by
  simp only [tryResync] at h
  split at h
  · simp at h
  · split at h
    · next off hscan =>
        cases h
        exact ⟨off, hscan, rfl⟩
    · simp at h
    · split at h <;> simp at h

omit [HuffmanDecoding] in
/-- A turn while hunting for a frame boundary, by what the scan finds. -/
theorem resync_step_eq (d : Direction) : d.resyncStep =
    if d.reasm.available.length < frameHeaderLen then .stop d
    else
      match scanBoundary d.reasm.available with
      | some (off, true) => .more { d with
          reasm := d.reasm.consume off, desynced := false, resyncs := d.resyncs + 1 } none
      | some (_, false) => .stop d
      | none =>
          if d.reasm.available.length > resyncWindow then
            .stop { d with
              reasm := d.reasm.consume (d.reasm.available.length - resyncWindow) }
          else .stop d := by
  simp only [resyncStep, tryResync]
  by_cases hshort : d.reasm.available.length < frameHeaderLen
  · simp only [hshort, if_true]
  · simp only [hshort, if_false]
    rcases scanBoundary d.reasm.available with _ | ⟨off, _ | _⟩
    · by_cases hlarge : d.reasm.available.length > resyncWindow
      · simp only [hlarge, if_true]
      · simp only [hlarge, if_false]
    · rfl
    · rfl

/-- Every turn that goes on has done some of the work. -/
theorem work_parse_step {d d' : Direction} {frame : Option ProcessedFrame}
    (h : d.parseStep = .more d' frame) : d'.work < d.work := by
  unfold parseStep at h
  split at h
  · simp only [discardStep] at h
    split at h
    · cases h
    · cases h
      simp only [work, Reassembler.available_consume, List.length_drop]
      omega
  · split at h
    · next target hpending =>
        simp only [seekStep] at h
        split at h
        · split at h
          · cases h
          · cases h
            simp only [work, Reassembler.available_consume, List.length_drop]
            omega
        · have hdesynced := Bool.toNat_le d.desynced
          split at h <;>
          · cases h
            simp only [work, hpending, Option.isSome_some, Option.isSome_none, Bool.toNat_true,
              Bool.toNat_false]
            omega
    · split at h
      · next hdesynced =>
          simp only [resyncStep] at h
          split at h
          · next hresync =>
              cases h
              obtain ⟨off, -, rfl⟩ := try_resync_true hresync
              simp only [work, hdesynced, Reassembler.available_consume, List.length_drop,
                Bool.toNat_true, Bool.toNat_false]
              omega
          · cases h
      · split at h
        · next hpreface =>
            simp only [prefaceStep] at h
            split at h
            · cases h
            · split at h <;>
              · cases h
                simp only [work, hpreface, Reassembler.available_consume, List.length_drop,
                  Bool.toNat_true, Bool.toNat_false]
                omega
        · exact work_frame_step h

/-- `Direction::parse`: turn after turn, with the frames pushed on the way. -/
def parse (d : Direction) : Direction × List ProcessedFrame :=
  match _h : d.parseStep with
  | .stop d => (d, [])
  | .more d frame => ((parse d).1, frame.toList ++ (parse d).2)
termination_by d.work
decreasing_by all_goals exact work_parse_step _h

/-- The loop ends with a turn that stops. -/
theorem parse_of_stop {d d' : Direction} (h : d.parseStep = .stop d') : d.parse = (d', []) := by
  rw [parse]
  split
  · next h' =>
      rw [h] at h'
      cases h'
      rfl
  · next h' =>
      rw [h] at h'
      cases h'

/-- After a turn that goes on the loop goes on from there. -/
theorem parse_of_more {d d' : Direction} {frame : Option ProcessedFrame}
    (h : d.parseStep = .more d' frame) :
    d.parse = (d'.parse.1, frame.toList ++ d'.parse.2) := by
  rw [parse]
  split
  · next h' =>
      rw [h] at h'
      cases h'
  · next h' =>
      rw [h] at h'
      cases h'
      rfl

/-! ## Entry points -/

omit [HuffmanDecoding] in
/-- What `feed` and `tick` do with a segment or a timeout before parsing. -/
def withReassembled (d : Direction) (pushed : Reassembler × Bool) : Direction :=
  if pushed.2 then { d with reasm := pushed.1 }.onGap else { d with reasm := pushed.1 }

/-- `Direction::feed`. -/
def feed (d : Direction) (seq : Seq) (data : Bytes) (nowUs : Nat) :
    Direction × List ProcessedFrame :=
  (d.withReassembled (d.reasm.push seq data nowUs)).parse

/-- `Direction::tick`. -/
def tick (d : Direction) (nowUs : Nat) : Direction × List ProcessedFrame :=
  if (d.reasm.checkTimeout nowUs).2 then
    (d.withReassembled (d.reasm.checkTimeout nowUs)).parse
  else ({ d with reasm := (d.reasm.checkTimeout nowUs).1 }, [])

omit [HuffmanDecoding] in
/-- What a caller does with a table size seen in the opposite direction. -/
def applyPeerCapacity (d : Direction) (n : Nat) : Direction :=
  { d with dec := d.dec.applyPeerCapacity n }

/-- The operations a caller performs on a direction. -/
inductive DirOp where
  | feed (seq : Seq) (data : Bytes) (nowUs : Nat)
  | tick (nowUs : Nat)
  | applyPeerCapacity (n : Nat)
  deriving DecidableEq

/-- One operation, with the frames it returns. -/
def perform (d : Direction) : DirOp → Direction × List ProcessedFrame
  | .feed seq data nowUs => d.feed seq data nowUs
  | .tick nowUs => d.tick nowUs
  | .applyPeerCapacity n => (d.applyPeerCapacity n, [])

end Direction

end H2Tap
