import H2Tap.Hpack.Bounds
import H2Tap.Conn.Reachable

/-!
# Parsing a hostile stream

`Direction::parse` and what it calls as they stand in the source, with every index, slice and
subtraction checked when it is made, and every loop cut off. `raw_parse_step` says that a turn does
what `parseStep` does, and `raw_parse` that the loop ends within `work` turns with the result of
`parse`, so that no buffered byte makes the source panic or loop. Counters that only grow are
unbounded here, as in the rest of the model.
-/

namespace H2Tap.Direction

open Lib

/-! ## The frame layer with checked accesses -/

namespace Raw

/-- `FrameHeader::parse`. -/
def parseHeader (b : Bytes) : Outcome FrameHeader :=
  if b.length < frameHeaderLen then .none
  else do
    let b0 ← index b 0
    let b1 ← index b 1
    let b2 ← index b 2
    let typ ← index b 3
    let flags ← index b 4
    let b5 ← index b 5
    let b6 ← index b 6
    let b7 ← index b 7
    let b8 ← index b 8
    return {
      len := fromBeBytes [0, b0, b1, b2]
      typ := typ
      flags := flags
      streamId := fromBeBytes [b5, b6, b7, b8] % 2 ^ 31 }

/-- A prefix that is dropped after a length check. -/
def stripBytes (n : Nat) (b : Bytes) : Outcome Bytes :=
  if b.length < n then .none else sliceFrom b n

/-- `header_block_fragment`. -/
def headerBlockFragment (hdr : FrameHeader) (payload : Bytes) : Outcome Bytes := do
  let (pad, p) ← Outcome.ofOption (stripPadLength hdr payload)
  let p ← if hdr.typ = FrameType.headers ∧ hdr.has Flags.priority then stripBytes 5 p else pure p
  let p ← if hdr.typ = FrameType.pushPromise then stripBytes 4 p else pure p
  if pad > p.length then .none else slice p 0 (← sub p.length pad)

/-- The stream id at the front of some bytes, if there are four. -/
def leadingStreamId (p : Bytes) : Outcome Nat :=
  if p.length ≥ 4 then do
    let s0 ← index p 0
    let s1 ← index p 1
    let s2 ← index p 2
    let s3 ← index p 3
    return fromBeBytes [s0, s1, s2, s3] % 2 ^ 31
  else .none

/-- The promised stream id that `handle_frame` reads. -/
def promisedStreamId (hdr : FrameHeader) (payload : Bytes) : Outcome Nat := do
  let p ← if hdr.has Flags.padded ∧ payload ≠ [] then sliceFrom payload 1 else pure payload
  leadingStreamId p

/-- One turn of the loop of `settings_header_table_size`, with the entries that are left. -/
def settingsTurn (s : Option Nat × Bytes) :
    Outcome (LoopTurn (Option Nat × Bytes) (Option Nat)) :=
  if s.2.length < 6 then return .done s.1
  else do
    let i0 ← index s.2 0
    let i1 ← index s.2 1
    let v0 ← index s.2 2
    let v1 ← index s.2 3
    let v2 ← index s.2 4
    let v3 ← index s.2 5
    return .more
      (if fromBeBytes [i0, i1] = settingsHeaderTableSizeId then some (fromBeBytes [v0, v1, v2, v3])
        else s.1, s.2.drop 6)

/-- `settings_header_table_size`. -/
def settingsHeaderTableSize (hdr : FrameHeader) (payload : Bytes) : Outcome (Option Nat) :=
  if hdr.typ ≠ FrameType.settings ∨ hdr.has Flags.ack then return none
  else loop settingsTurn (payload.length + 1) (none, payload)

/-- One turn of the loop of `check_frame_chain` at an offset, with the frames accepted so far. -/
def chainTurn (b : Bytes) (want minAccept : Nat) (s : Nat × Nat) :
    Outcome (LoopTurn (Nat × Nat) ChainCheck) :=
  if s.2 < want then
    if s.1 + frameHeaderLen > b.length then
      return .done (if s.2 ≥ minAccept then .ok else .needMore)
    else do
      match ← (parseHeader (← sliceFrom b s.1)).attempt with
      | some h =>
          if frameHeaderPlausible h then return .more (s.1 + h.totalLen, s.2 + 1)
          else return .done .bad
      | none => return .done .bad
  else return .done .ok

/-- `check_frame_chain`. -/
def checkFrameChain (b : Bytes) (want minAccept : Nat) : Outcome ChainCheck :=
  loop (chainTurn b want minAccept) (want + 1) (0, 0)

/-- The scan of `try_resync` over candidate offsets. -/
def scanFrom (a : Bytes) : List Nat → Outcome (Option (Nat × Bool))
  | [] => return none
  | off :: offs => do
      match ← checkFrameChain (← sliceFrom a off) 4 2 with
      | .ok => return some (off, true)
      | .needMore => return some (off, false)
      | .bad => scanFrom a offs

/-! ## The reassembler with checked accesses -/

/-- `Reassembler::available`. -/
def available (r : Reassembler) : Outcome Bytes := sliceFrom r.buf r.pos

/-- `consume` before compaction. A position past the buffer would make the next access panic. -/
def advance (r : Reassembler) (n : Nat) : Outcome Reassembler :=
  if h : r.pos + n ≤ r.buf.length then .some (r.advance n h) else .panic

/-- `Reassembler::consume`. -/
def consume (r : Reassembler) (n : Nat) : Outcome Reassembler := do
  let left ← sub r.buf.length r.pos
  let r ← advance r (min n left)
  if r.pos ≥ compactThreshold then do
    let buf ← sliceFrom r.buf r.pos
    return { r with buf := buf, pos := 0, pos_le := Nat.zero_le _ }
  else return r

end Raw

/-! ## No access of theirs is out of range -/

/-- Nine bytes are checked before the nine that are read. -/
theorem raw_parse_header (b : Bytes) :
    Raw.parseHeader b = Outcome.ofOption (FrameHeader.parse b) := by
  by_cases hshort : b.length < frameHeaderLen
  · rw [Raw.parseHeader, if_pos hshort, (FrameHeader.parse_eq_none_iff b).mpr hshort]
    rfl
  · rw [Raw.parseHeader, if_neg hshort]
    rcases b with
      _ | ⟨l0, _ | ⟨l1, _ | ⟨l2, _ | ⟨typ, _ | ⟨flags, _ | ⟨s0, _ | ⟨s1, _ | ⟨s2, _ | ⟨s3,
        b⟩⟩⟩⟩⟩⟩⟩⟩⟩
    any_goals simp [frameHeaderLen] at hshort
    have hlen : fromBeBytes [0, l0, l1, l2] = fromBeBytes [l0, l1, l2] := by
      simp [fromBeBytes]
    show Outcome.some _ = Outcome.some _
    rw [hlen]

theorem raw_strip_bytes (n : Nat) (b : Bytes) :
    Raw.stripBytes n b = Outcome.ofOption (stripBytes n b) := by
  unfold Raw.stripBytes stripBytes
  by_cases hshort : b.length < n
  · rw [if_pos hshort, if_pos hshort]
    rfl
  · rw [if_neg hshort, if_neg hshort, slice_from_of_le (by omega)]
    rfl

theorem raw_header_block_fragment (hdr : FrameHeader) (payload : Bytes) :
    Raw.headerBlockFragment hdr payload =
      Outcome.ofOption (headerBlockFragment hdr payload) := by
  have hstrip : ∀ (c : Prop) [Decidable c] (n : Nat) (p : Bytes) (f : Bytes → Outcome Bytes)
      (g : Bytes → Option Bytes), (∀ p, f p = Outcome.ofOption (g p)) →
      (if c then Raw.stripBytes n p >>= f else pure p >>= f) =
        Outcome.ofOption (if c then stripBytes n p >>= g else some p >>= g) := by
    intro c _ n p f g hfg
    split
    · rw [raw_strip_bytes, Option.bind_eq_bind, Outcome.of_option_bind]
      exact congrArg _ (funext hfg)
    · exact hfg p
  rw [Raw.headerBlockFragment, headerBlockFragment, Option.bind_eq_bind, Outcome.of_option_bind]
  congr 1
  funext ⟨pad, p⟩
  refine hstrip _ 5 p _ _ fun p => hstrip _ 4 p _ _ fun p => ?_
  dsimp only
  by_cases hpad : pad > p.length
  · rw [if_pos hpad, if_pos hpad]
    rfl
  · rw [if_neg hpad, if_neg hpad, sub_of_le (by omega), Outcome.some_bind,
      slice_of_le (Nat.zero_le _) (by omega)]
    rfl

theorem raw_leading_stream_id {hdr : FrameHeader} (hplain : hdr.has Flags.padded = false)
    (p : Bytes) : Raw.leadingStreamId p = Outcome.ofOption (promisedStreamId hdr p) := by
  unfold promisedStreamId
  rw [hplain]
  rcases p with _ | ⟨s0, _ | ⟨s1, _ | ⟨s2, _ | ⟨s3, p⟩⟩⟩⟩
  all_goals rfl

theorem raw_promised_stream_id (hdr : FrameHeader) (payload : Bytes) :
    Raw.promisedStreamId hdr payload = Outcome.ofOption (promisedStreamId hdr payload) := by
  unfold Raw.promisedStreamId
  cases hpadded : hdr.has Flags.padded with
  | false =>
      rw [if_neg fun h => Bool.false_ne_true h.1, Outcome.pure_eq, Outcome.some_bind]
      exact raw_leading_stream_id hpadded payload
  | true =>
      have hplain : ({ hdr with flags := 0 } : FrameHeader).has Flags.padded = false := by
        show (0 &&& Flags.padded != 0) = false
        decide
      -- the pad length is stripped, if there is one
      have hstrip : promisedStreamId hdr payload =
          promisedStreamId { hdr with flags := 0 } (payload.drop 1) := by
        unfold promisedStreamId
        rw [hpadded, hplain]
        rfl
      rw [hstrip, ← raw_leading_stream_id hplain]
      cases payload with
      | nil => rfl
      | cons n rest =>
          rw [if_pos ⟨rfl, List.cons_ne_nil n rest⟩, slice_from_of_le (by simp),
            Outcome.some_bind]

/-- Every turn takes an entry of six bytes. -/
theorem raw_settings_header_table_size (hdr : FrameHeader) (payload : Bytes) :
    Raw.settingsHeaderTableSize hdr payload = .some (settingsHeaderTableSize hdr payload) := by
  unfold Raw.settingsHeaderTableSize settingsHeaderTableSize
  by_cases hskip : hdr.typ ≠ FrameType.settings ∨ hdr.has Flags.ack
  · rw [if_pos hskip, if_pos hskip]
    rfl
  · rw [if_neg hskip, if_neg hskip]
    refine loop_ends (fun _ => True) (fun s : Option Nat × Bytes => s.2.length)
      (fun s => lastTableSize s.1 s.2) (fun s _ => ?_) trivial (Nat.lt_succ_self _)
    obtain ⟨found, b⟩ := s
    rcases b with _ | ⟨i0, _ | ⟨i1, _ | ⟨v0, _ | ⟨v1, _ | ⟨v2, _ | ⟨v3, b⟩⟩⟩⟩⟩⟩
    any_goals exact Or.inl rfl
    refine Or.inr ⟨(if fromBeBytes [i0, i1] = settingsHeaderTableSizeId then
      some (fromBeBytes [v0, v1, v2, v3]) else found, b), ?_, trivial, ?_, ?_⟩
    · rw [Raw.settingsTurn, if_neg (by simp)]
      rfl
    · show b.length < b.length + 6
      omega
    · dsimp only
      rw [lastTableSize]

/-- The offset stays in front of a frame that is still wanted. -/
theorem raw_check_frame_chain (b : Bytes) (want minAccept : Nat) :
    Raw.checkFrameChain b want minAccept = .some (checkFrameChain b want minAccept) := by
  refine loop_ends (fun _ => True) (fun s : Nat × Nat => want - s.2)
    (fun s => checkChainFrom minAccept s.2 (b.drop s.1) (want - s.2)) (fun s _ => ?_) trivial
    (Nat.lt_succ_self _)
  obtain ⟨off, ok⟩ := s
  dsimp only
  unfold Raw.chainTurn
  by_cases hwant : ok < want
  · obtain ⟨left, hleft⟩ : ∃ left, want - ok = left + 1 := ⟨want - ok - 1, by omega⟩
    rw [if_pos hwant, hleft, checkChainFrom]
    by_cases hshort : off + frameHeaderLen > b.length
    · have hnone : FrameHeader.parse (b.drop off) = none := by
        rw [FrameHeader.parse_eq_none_iff, List.length_drop]
        simp only [frameHeaderLen] at *
        omega
      rw [if_pos hshort, hnone]
      exact Or.inl rfl
    · rw [if_neg hshort, slice_from_of_le (by omega), Outcome.some_bind, raw_parse_header,
        Outcome.attempt_of_option, Outcome.some_bind]
      cases hparse : FrameHeader.parse (b.drop off) with
      | none =>
          have := (FrameHeader.parse_eq_none_iff _).mp hparse
          rw [List.length_drop] at this
          simp only [frameHeaderLen] at *
          omega
      | some h =>
          dsimp only
          by_cases hplausible : frameHeaderPlausible h = true
          · rw [if_pos hplausible, if_pos hplausible]
            refine Or.inr ⟨_, rfl, trivial, ?_, ?_⟩
            · show want - (ok + 1) < left + 1
              omega
            · show checkChainFrom minAccept (ok + 1) (b.drop (off + h.totalLen))
                (want - (ok + 1)) = _
              rw [List.drop_drop, show want - (ok + 1) = left by omega]
          · rw [if_neg hplausible, if_neg hplausible]
            exact Or.inl rfl
  · rw [if_neg hwant, show want - ok = 0 by omega]
    exact Or.inl rfl

/-- The scan starts no chain past the end of the buffer. -/
theorem raw_scan_from (a : Bytes) {offs : List Nat} (h : ∀ off ∈ offs, off ≤ a.length) :
    Raw.scanFrom a offs = .some (offs.findSome? fun off =>
      match checkFrameChain (a.drop off) 4 2 with
      | .ok => some (off, true)
      | .needMore => some (off, false)
      | .bad => none) := by
  induction offs with
  | nil => rfl
  | cons off offs ih =>
      obtain ⟨hoff, hoffs⟩ := List.forall_mem_cons.mp h
      rw [Raw.scanFrom, slice_from_of_le hoff, Outcome.some_bind, raw_check_frame_chain,
        Outcome.some_bind, List.findSome?_cons]
      cases checkFrameChain (a.drop off) 4 2 with
      | ok => rfl
      | needMore => rfl
      | bad => exact ih hoffs

theorem raw_available (r : Reassembler) : Raw.available r = .some r.available :=
  slice_from_of_le r.pos_le

theorem raw_consume (r : Reassembler) (n : Nat) : Raw.consume r n = .some (r.consume n) := by
  have hpos := r.pos_le
  have hadvance : r.pos + min n (r.buf.length - r.pos) ≤ r.buf.length := by omega
  rw [Raw.consume, sub_of_le hpos, Outcome.some_bind, Raw.advance, dif_pos hadvance,
    Outcome.some_bind, Reassembler.consume, Reassembler.compact]
  split
  · rw [slice_from_of_le (Reassembler.pos_le _)]
    rfl
  · rfl

/-! ## The parse loop with checked accesses -/

namespace Raw

/-- `Direction::try_resync`. -/
def tryResync (d : Direction) : Outcome (Direction × Bool) := do
  let avail := (← available d.reasm).length
  if avail < frameHeaderLen then return (d, false)
  else do
    let a ← available d.reasm
    match ← scanFrom a (List.range (a.length - frameHeaderLen + 1)) with
    | some (off, true) => do
        let reasm ← consume d.reasm off
        return ({ d with reasm := reasm, desynced := false, resyncs := d.resyncs + 1 }, true)
    | some (_, false) => return (d, false)
    | none =>
        if avail > resyncWindow then do
          let reasm ← consume d.reasm (← sub avail resyncWindow)
          return ({ d with reasm := reasm }, false)
        else return (d, false)

/-- A turn while a payload is being thrown away. -/
def discardStep (d : Direction) : Outcome Progress := do
  let n := min d.discard (← available d.reasm).length
  if n = 0 then return .stop d
  else do
    let reasm ← consume d.reasm n
    let discard ← sub d.discard n
    return .more { d with reasm := reasm, discard := discard } none

/-- A turn while seeking the snapshot's `next_frame_seq`. -/
def seekStep (d : Direction) (target : Seq) : Outcome Progress :=
  let delta := seqDelta target d.reasm.nextUnparsedSeq
  if delta > 0 then do
    let n := min delta.toNat (← available d.reasm).length
    if n = 0 then return .stop d
    else do
      let reasm ← consume d.reasm n
      return .more { d with reasm := reasm, preSnapshotSkipped := d.preSnapshotSkipped + n } none
  else if delta < 0 then
    return .more { d with
      snapshotMisaligned := true
      dec := d.dec.resetPartial
      desynced := true
      pendingStartSeq := none } none
  else return .more { d with pendingStartSeq := none } none

/-- A turn while hunting for a frame boundary. -/
def resyncStep (d : Direction) : Outcome Progress := do
  match ← tryResync d with
  | (d, true) => return .more d none
  | (d, false) => return .stop d

/-- A turn while the client preface is expected. -/
def prefaceStep (d : Direction) : Outcome Progress := do
  let a ← available d.reasm
  if a.length < preface.length then return .stop d
  else if preface.isPrefixOf a then do
    let reasm ← consume d.reasm preface.length
    return .more { d with expectPreface := false, reasm := reasm } none
  else return .more { d with expectPreface := false } none

variable [HuffmanDecoding]

/-- `Direction::finish_block`. -/
def finishBlock (d : Direction) : Outcome (Direction × Option DecodedBlock) :=
  match d.blockHdr with
  | none => return (d, none)
  | some hdr => do
      match ← Decoder.Raw.decode d.dec d.block with
      | (dec, .error _) =>
          return ({ d.takeBlock with
            dec := dec.resetPartial
            decodeErrors := d.decodeErrors + 1
            poisoned := true }, none)
      | (dec, .ok fields) => do
          let unresolved ← sub dec.unresolved d.dec.unresolved
          return ({ d.takeBlock with dec := dec, openStreams := d.openStreamsAfter hdr },
            some {
              streamId := hdr.streamId
              fields := fields
              endStream := hdr.has Flags.endStream
              kind := d.blockKind hdr
              promisedStreamId := d.blockPromised
              exact := dec.isExact && unresolved == 0
              unresolved := unresolved })

/-- Finish the block if the frame ends it. -/
def finishIfEnd (d : Direction) (hdr : FrameHeader) : Outcome (Direction × Option DecodedBlock) :=
  if hdr.has Flags.endHeaders then finishBlock d else return (d, none)

omit [HuffmanDecoding] in
/-- Record the promised stream id of a PUSH_PROMISE frame. -/
def notePromised (d : Direction) (hdr : FrameHeader) (payload : Bytes) : Outcome Direction :=
  if hdr.typ = FrameType.pushPromise then do
    match ← (promisedStreamId hdr payload).attempt with
    | some sid => return { d with blockPromised := some sid }
    | none => return d
  else return d

/-- `handle_frame` on HEADERS and PUSH_PROMISE. -/
def beginBlock (d : Direction) (hdr : FrameHeader) (payload : Bytes) :
    Outcome (Direction × Option DecodedBlock) := do
  let d ← notePromised d.dropOpenBlock hdr payload
  match ← (headerBlockFragment hdr payload).attempt with
  | some frag => finishIfEnd { d with block := d.block ++ frag, blockHdr := some hdr } hdr
  | none => return (d.markBadBlock, none)

/-- `handle_frame` on CONTINUATION. -/
def continueBlock (d : Direction) (hdr : FrameHeader) (payload : Bytes) :
    Outcome (Direction × Option DecodedBlock) :=
  if d.blockHdr.isNone then return (d.markBadBlock, none)
  else finishIfEnd { d with block := d.block ++ payload } hdr

/-- `Direction::handle_frame`. -/
def handleFrame (d : Direction) (hdr : FrameHeader) (payload : Bytes) (startOff : Nat)
    (startSeq : Seq) : Outcome (Direction × ProcessedFrame) :=
  let pf : ProcessedFrame := ⟨hdr, payload, startOff, startSeq, none, false, false, none⟩
  if hdr.typ = FrameType.settings then do
    let size ← settingsHeaderTableSize hdr payload
    return (d, { pf with settingsTableSize := size })
  else if hdr.typ = FrameType.headers ∨ hdr.typ = FrameType.pushPromise then do
    let (d, decoded) ← beginBlock d hdr payload
    return (d, { pf with decoded := decoded, isHeaderFrame := true })
  else if hdr.typ = FrameType.continuation then do
    let (d, decoded) ← continueBlock d hdr payload
    return (d, { pf with decoded := decoded, isHeaderFrame := true })
  else return (d, pf)

/-- A turn at a frame boundary. -/
def frameStep (d : Direction) : Outcome Progress := do
  let a ← available d.reasm
  if a.length < frameHeaderLen then return .stop d
  else do
    let hdr ← expect (← (parseHeader a).attempt)
    if d.wantPayload hdr then
      if a.length < frameHeaderLen + hdr.len then return .stop d
      else do
        let payload ← slice (← available d.reasm) frameHeaderLen (frameHeaderLen + hdr.len)
        let reasm ← consume d.reasm (frameHeaderLen + hdr.len)
        let (taken, pf) ← handleFrame { d with reasm := reasm, frames := d.frames + 1 } hdr payload
          d.reasm.offset d.reasm.nextUnparsedSeq
        return .more taken (some pf)
    else do
      let reasm ← consume d.reasm frameHeaderLen
      return .more { d with reasm := reasm, discard := hdr.len, frames := d.frames + 1 }
        (some (d.skipFrame hdr).2)

/-- One turn of the loop of `Direction::parse`. -/
def parseStep (d : Direction) : Outcome Progress :=
  if d.discard > 0 then discardStep d
  else
    match d.pendingStartSeq with
    | some target => seekStep d target
    | none =>
        if d.desynced then resyncStep d
        else if d.expectPreface then prefaceStep d
        else frameStep d

/-- How the loop of `Direction::parse` goes on after a turn. -/
def parseNext (out : List ProcessedFrame) :
    Progress → LoopTurn (Direction × List ProcessedFrame) (Direction × List ProcessedFrame)
  | .stop d => .done (d, out)
  | .more d frame => .more (d, out ++ frame.toList)

/-- The loop of `Direction::parse` around a turn, with the frames pushed so far. -/
def parseTurn (s : Direction × List ProcessedFrame) :
    Outcome (LoopTurn (Direction × List ProcessedFrame) (Direction × List ProcessedFrame)) := do
  return parseNext s.2 (← parseStep s.1)

/-- At most `turns` turns of `Direction::parse`. -/
def parse (turns : Nat) (d : Direction) : Outcome (Direction × List ProcessedFrame) :=
  loop parseTurn turns (d, [])

end Raw

/-! ## The parse loop does not panic, and it ends -/

theorem raw_try_resync (d : Direction) : Raw.tryResync d = .some d.tryResync := by
  rw [Raw.tryResync, raw_available, Outcome.some_bind, tryResync]
  dsimp only
  by_cases hshort : d.reasm.available.length < frameHeaderLen
  · rw [if_pos hshort, if_pos hshort]
    rfl
  have hscan : Raw.scanFrom d.reasm.available
      (List.range (d.reasm.available.length - frameHeaderLen + 1)) =
        .some (scanBoundary d.reasm.available) := by
    refine raw_scan_from _ fun off hoff => ?_
    have := List.mem_range.mp hoff
    simp only [frameHeaderLen] at *
    omega
  rw [if_neg hshort, if_neg hshort, Outcome.some_bind, hscan, Outcome.some_bind]
  rcases scanBoundary d.reasm.available with _ | ⟨off, _ | _⟩
  · dsimp only
    by_cases hlarge : d.reasm.available.length > resyncWindow
    · rw [if_pos hlarge, if_pos hlarge, sub_of_le (by omega), Outcome.some_bind, raw_consume]
      rfl
    · rw [if_neg hlarge, if_neg hlarge]
      rfl
  · rfl
  · dsimp only
    rw [raw_consume]
    rfl

theorem raw_discard_step (d : Direction) : Raw.discardStep d = .some d.discardStep := by
  rw [Raw.discardStep, raw_available, Outcome.some_bind, discardStep]
  dsimp only
  split
  · rfl
  · rw [raw_consume, Outcome.some_bind, sub_of_le (Nat.min_le_left _ _)]
    rfl

theorem raw_seek_step (d : Direction) (target : Seq) :
    Raw.seekStep d target = .some (d.seekStep target) := by
  unfold Raw.seekStep seekStep
  dsimp only
  split
  · rw [raw_available, Outcome.some_bind]
    split
    · rfl
    · rw [raw_consume]
      rfl
  · split <;> rfl

theorem raw_resync_step (d : Direction) : Raw.resyncStep d = .some d.resyncStep := by
  rw [Raw.resyncStep, raw_try_resync, Outcome.some_bind, resyncStep]
  obtain ⟨d', _ | _⟩ := d.tryResync <;> rfl

theorem raw_preface_step (d : Direction) : Raw.prefaceStep d = .some d.prefaceStep := by
  rw [Raw.prefaceStep, raw_available, Outcome.some_bind, prefaceStep]
  split
  · rfl
  · split
    · rw [raw_consume]
      rfl
    · rfl

theorem raw_note_promised (d : Direction) (hdr : FrameHeader) (payload : Bytes) :
    Raw.notePromised d hdr payload = .some (d.notePromised hdr payload) := by
  unfold Raw.notePromised notePromised
  split
  · rw [raw_promised_stream_id, Outcome.attempt_of_option, Outcome.some_bind]
    cases promisedStreamId hdr payload <;> rfl
  · rfl

variable [HuffmanDecoding]

/-- The only subtraction is of a count that decoding does not lower. -/
theorem raw_finish_block {d : Direction} (h : d.dec.Counted) :
    Raw.finishBlock d = .some d.finishBlock := by
  unfold Raw.finishBlock finishBlock
  cases d.blockHdr with
  | none => rfl
  | some hdr =>
      dsimp only
      have hcount := Decoder.unresolved_decode d.dec d.block
      rw [Decoder.raw_decode h, Outcome.some_bind]
      rcases hdecode : d.dec.decode d.block with ⟨dec, e | fields⟩
      · rfl
      · rw [hdecode] at hcount
        dsimp only
        rw [sub_of_le hcount]
        rfl

theorem raw_finish_if_end {d : Direction} (h : d.dec.Counted) (hdr : FrameHeader) :
    Raw.finishIfEnd d hdr = .some (d.finishIfEnd hdr) := by
  unfold Raw.finishIfEnd finishIfEnd
  split
  · exact raw_finish_block h
  · rfl

omit [HuffmanDecoding] in
/-- Opening a block leaves the decoder alone. -/
theorem dec_note_promised (d : Direction) (hdr : FrameHeader) (payload : Bytes) :
    (d.dropOpenBlock.notePromised hdr payload).dec = d.dec := by
  unfold notePromised dropOpenBlock
  split
  · split <;> split <;> rfl
  · split <;> rfl

theorem raw_begin_block {d : Direction} (h : d.dec.Counted) (hdr : FrameHeader)
    (payload : Bytes) : Raw.beginBlock d hdr payload = .some (d.beginBlock hdr payload) := by
  rw [Raw.beginBlock, raw_note_promised, Outcome.some_bind, raw_header_block_fragment,
    Outcome.attempt_of_option, Outcome.some_bind, beginBlock]
  cases headerBlockFragment hdr payload with
  | none => rfl
  | some frag =>
      refine raw_finish_if_end ?_ hdr
      show (d.dropOpenBlock.notePromised hdr payload).dec.Counted
      rw [dec_note_promised]
      exact h

theorem raw_continue_block {d : Direction} (h : d.dec.Counted) (hdr : FrameHeader)
    (payload : Bytes) : Raw.continueBlock d hdr payload = .some (d.continueBlock hdr payload) := by
  unfold Raw.continueBlock continueBlock
  split
  · rfl
  · exact raw_finish_if_end (d := { d with block := d.block ++ payload }) h hdr

theorem raw_handle_frame {d : Direction} (h : d.dec.Counted) (hdr : FrameHeader)
    (payload : Bytes) (startOff : Nat) (startSeq : Seq) :
    Raw.handleFrame d hdr payload startOff startSeq =
      .some (d.handleFrame hdr payload startOff startSeq) := by
  unfold Raw.handleFrame handleFrame
  dsimp only
  split
  · rw [raw_settings_header_table_size]
    rfl
  · split
    · rw [raw_begin_block h]
      rfl
    · split
      · rw [raw_continue_block h]
        rfl
      · rfl

/-- The header is read after its length check, the payload after another. -/
theorem raw_frame_step {d : Direction} (h : d.dec.Counted) :
    Raw.frameStep d = .some d.frameStep := by
  rw [Raw.frameStep, raw_available, Outcome.some_bind, frameStep]
  by_cases hshort : d.reasm.available.length < frameHeaderLen
  · rw [if_pos hshort, (FrameHeader.parse_eq_none_iff _).mpr hshort]
    rfl
  rw [if_neg hshort, raw_parse_header, Outcome.attempt_of_option, Outcome.some_bind]
  cases hparse : FrameHeader.parse d.reasm.available with
  | none => exact absurd ((FrameHeader.parse_eq_none_iff _).mp hparse) hshort
  | some hdr =>
      rw [expect_some, Outcome.some_bind]
      dsimp only
      by_cases hwant : d.wantPayload hdr = true
      · rw [if_pos hwant, if_pos hwant]
        by_cases hpart : d.reasm.available.length < frameHeaderLen + hdr.len
        · rw [if_pos hpart, if_pos hpart]
          rfl
        · have hpayload : (d.reasm.available.take (frameHeaderLen + hdr.len)).drop frameHeaderLen =
              (d.reasm.available.drop frameHeaderLen).take hdr.len := by
            rw [List.drop_take, Nat.add_sub_cancel_left]
          have htaken := raw_handle_frame (d := { d with
            reasm := d.reasm.consume (frameHeaderLen + hdr.len), frames := d.frames + 1 }) h hdr
            ((d.reasm.available.drop frameHeaderLen).take hdr.len) d.reasm.offset
            d.reasm.nextUnparsedSeq
          rw [if_neg hpart, if_neg hpart, Outcome.some_bind,
            slice_of_le (Nat.le_add_right _ _) (by omega), Outcome.some_bind, raw_consume,
            Outcome.some_bind, hpayload, htaken]
          rfl
      · rw [if_neg hwant, if_neg hwant, raw_consume]
        rfl

/-- A turn of the source does what `parseStep` does, without an access out of range. -/
theorem raw_parse_step {d : Direction} (h : d.dec.Counted) :
    Raw.parseStep d = .some d.parseStep := by
  unfold Raw.parseStep parseStep
  split
  · exact raw_discard_step d
  · cases d.pendingStartSeq with
    | some target => exact raw_seek_step d target
    | none =>
        dsimp only
        split
        · exact raw_resync_step d
        · split
          · exact raw_preface_step d
          · exact raw_frame_step h

/-! ## The size counts the entries in every turn -/

/-- A property of the decoder that decoding and forgetting keep is kept by every turn. -/
theorem dec_parse_step {P : Decoder → Prop}
    (hdecode : ∀ dec block, P dec → P (dec.decode block).1)
    (hreset : ∀ dec, P dec → P dec.resetPartial) {d : Direction} (h : P d.dec) :
    P d.parseStep.next.dec := by
  have hcases := turn_cases d
  generalize d.parseStep = progress at hcases
  cases hcases with
  | stop d' hsame => exact hsame.dec ▸ h
  | move d' hsame => exact hsame.dec ▸ h
  | misaligned d' hsame => exact hsame.dec ▸ hreset _ h
  | skip hdr hat hparse hwant => exact h
  | take hdr payload hframe =>
      have htake := take_frame_cases hframe
      show P (d.takeFrame hdr).1.dec
      generalize (d.takeFrame hdr).1 = d', (d.takeFrame hdr).2.decoded = decoded at htake
      cases htake with
      | other _ hheader hsame => exact hsame.dec ▸ h
      | bad _ hheader hadd hsame => exact hsame.dec ▸ hreset _ h
      | opened opened _ hheader hadd hend hsame =>
          rw [hsame.dec, (add_fragment_open hadd).2.1]
          exact h
      | failed opened _ dec e hheader hadd hend hdecoded hsame =>
          have hdec := hdecode _ opened.block h
          rw [hdecoded] at hdec
          exact hsame.dec ▸ hreset _ hdec
      | decoded opened _ bhdr dec fields hheader hadd hend hbhdr hdecoded hsame =>
          have hdec := hdecode _ opened.block h
          rw [hdecoded] at hdec
          exact hsame.dec ▸ hdec

theorem counted_parse_step {d : Direction} (h : d.dec.Counted) :
    d.parseStep.next.dec.Counted :=
  dec_parse_step (fun _ block hdec => hdec.decode block)
    (fun dec _ => Decoder.Counted.reset_partial dec) h

omit [HuffmanDecoding] in
theorem counted_with_reassembled {d : Direction} (h : d.dec.Counted)
    (pushed : Reassembler × Bool) : (d.withReassembled pushed).dec.Counted := by
  unfold withReassembled
  split
  · exact Decoder.Counted.reset_partial d.dec
  · exact h

theorem counted_perform {d : Direction} (h : d.dec.Counted) (op : DirOp) :
    (d.perform op).1.dec.Counted := by
  have hparse : ∀ pushed, (d.withReassembled pushed).parse.1.dec.Counted := fun pushed =>
    parse_keeps (P := fun t => t.dec.Counted) (fun _ ht => counted_parse_step ht)
      (counted_with_reassembled h pushed)
  cases op with
  | feed seq data nowUs => exact hparse _
  | tick nowUs =>
      simp only [perform, tick]
      split
      · exact hparse _
      · exact h
  | applyPeerCapacity n => exact h.apply_peer_capacity n

/-- Whatever callers do with a direction, the size of its table counts the entries. -/
theorem Reachable.counted {d : Direction} (h : d.Reachable) : d.dec.Counted := by
  induction h with
  | joined keepPayloads => rfl
  | started keepPayloads expectPreface => rfl
  | limited n _ ih => exact ih.set_track_limit n
  | @seeded d entries maxSize nextFrameSeq _ ih =>
      have hentries : (Decoder.fromEntries entries maxSize).Counted := rfl
      exact hentries.set_track_limit d.tableTrackLimit
  | syn seq _ ih => exact ih
  | performed op _ ih => exact counted_perform ih op

/-- The loop of the source ends within `work` turns, without an access out of range, with what
`parse` returns. -/
theorem raw_parse {d : Direction} (h : d.dec.Counted) {turns : Nat} (hturns : d.work < turns) :
    Raw.parse turns d = .some d.parse := by
  refine loop_ends (fun s : Direction × List ProcessedFrame => s.1.dec.Counted)
    (fun s => s.1.work) (fun s => (s.1.parse.1, s.2 ++ s.1.parse.2))
    (fun s hs => ?_) (s := (d, [])) h hturns
  obtain ⟨t, out⟩ := s
  have hnext := counted_parse_step hs
  have hbody : Raw.parseTurn (t, out) = Raw.parseStep t >>= fun progress =>
      .some (Raw.parseNext out progress) := rfl
  rw [hbody, raw_parse_step hs, Outcome.some_bind]
  cases hturn : t.parseStep with
  | stop t' =>
      refine Or.inl ?_
      rw [parse_of_stop hturn, List.append_nil]
      rfl
  | more t' frame =>
      rw [hturn] at hnext
      refine Or.inr ⟨_, rfl, hnext, work_parse_step hturn, ?_⟩
      rw [parse_of_more hturn, List.append_assoc]

end H2Tap.Direction
