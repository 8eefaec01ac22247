import H2Tap.Rebuild.Client
import H2Tap.Rebuild.Items

/-!
# What is written is in range

The parser returns stream ids of 31 bits, whole payloads and, with every promise, the stream that it
promises. So whatever the capture holds, the items that the replay writes are ones that
`encode_block` and `build_frame` can write down (`in_range_run`).
-/

namespace H2Tap

open Lib

theorem FrameHeader.stream_id_lt {b : Bytes} {hdr : FrameHeader}
    (h : FrameHeader.parse b = some hdr) : hdr.streamId < 2 ^ 31 := by
  unfold FrameHeader.parse at h
  split at h
  · cases h
    exact Nat.mod_lt _ (by decide)
  · cases h

theorem promised_stream_id_lt {hdr : FrameHeader} {payload : Bytes} {sid : Nat}
    (h : promisedStreamId hdr payload = some sid) : sid < 2 ^ 31 := by
  unfold promisedStreamId at h
  split at h
  · cases h
    exact Nat.mod_lt _ (by decide)
  · cases h

/-- A PUSH_PROMISE frame that has a fragment promises a stream. -/
theorem promised_of_fragment {hdr : FrameHeader} {payload frag : Bytes}
    (hpush : hdr.typ = FrameType.pushPromise) (h : headerBlockFragment hdr payload = some frag) :
    (promisedStreamId hdr payload).isSome = true := by
  have hfour : ∀ {p : Bytes}, 4 ≤ p.length →
      ∃ s0 s1 s2 s3 rest, p = s0 :: s1 :: s2 :: s3 :: rest := by
    intro p hp
    rcases p with _ | ⟨_, _ | ⟨_, _ | ⟨_, _ | ⟨_, _⟩⟩⟩⟩ <;> simp at hp ⊢
  have htype : FrameType.pushPromise ≠ FrameType.headers := by decide
  have hlong : 4 ≤ (if hdr.has Flags.padded then payload.drop 1 else payload).length := by
    unfold headerBlockFragment stripPadLength stripBytes at h
    by_cases hpadded : hdr.has Flags.padded = true
    · cases payload with
      | nil => simp [hpadded] at h
      | cons n rest =>
          by_cases hshort : rest.length < 4
          · simp [hpadded, hpush, htype, hshort] at h
          · simpa [hpadded] using hshort
    · by_cases hshort : payload.length < 4
      · simp [hpadded, hpush, htype, hshort] at h
      · simpa [hpadded] using hshort
  obtain ⟨s0, s1, s2, s3, rest, hbytes⟩ := hfour hlong
  unfold promisedStreamId
  rw [hbytes]
  rfl

namespace Direction

/-- The header of the open block and the promised stream are in range. -/
structure BlockInRange (d : Direction) : Prop where
  streamId : ∀ hdr, d.blockHdr = some hdr → hdr.streamId < 2 ^ 31
  promised : ∀ sid, d.blockPromised = some sid → sid < 2 ^ 31
  push : ∀ hdr, d.blockHdr = some hdr → hdr.typ = FrameType.pushPromise →
    d.blockPromised.isSome = true

theorem BlockInRange.of_same_blocks {d d' : Direction} (h : d.BlockInRange)
    (hsame : SameBlocks d d') : d'.BlockInRange := by
  obtain ⟨hid, hpromised, hpush⟩ := h
  rw [← hsame.blockHdr, ← hsame.blockPromised] at *
  exact ⟨hid, hpromised, hpush⟩

/-- Nothing is out of range where no block is open. -/
theorem block_in_range_of_none {d : Direction} (hhdr : d.blockHdr = none)
    (hpromised : d.blockPromised = none) : d.BlockInRange := by
  refine ⟨?_, ?_, ?_⟩ <;> simp [hhdr, hpromised]

/-- Adding a fragment keeps the block in range. -/
theorem BlockInRange.add_fragment {d opened : Direction} (h : d.BlockInRange) {hdr : FrameHeader}
    (hsid : hdr.streamId < 2 ^ 31) {payload : Bytes}
    (hadd : d.addFragment hdr payload = some opened) : opened.BlockInRange := by
  unfold addFragment at hadd
  split at hadd
  · split at hadd
    · cases hadd
    · cases hadd
      exact ⟨h.streamId, h.promised, h.push⟩
  · obtain ⟨frag, hfrag, rfl⟩ := Option.map_eq_some_iff.mp hadd
    have hdrop : d.dropOpenBlock.blockPromised = d.blockPromised := by
      unfold dropOpenBlock
      split <;> rfl
    refine ⟨?_, ?_, ?_⟩
    · rintro hdr' ⟨⟩
      exact hsid
    · intro sid hpromised
      unfold notePromised at hpromised
      split at hpromised
      · split at hpromised
        · next hsome =>
            cases hpromised
            exact promised_stream_id_lt hsome
        · exact h.promised sid (hdrop ▸ hpromised)
      · exact h.promised sid (hdrop ▸ hpromised)
    · rintro hdr' ⟨⟩ hpush
      obtain ⟨sid, hpromised⟩ := Option.isSome_iff_exists.mp (promised_of_fragment hpush hfrag)
      simp only [notePromised, hpush, if_true, hpromised, Option.isSome_some]

/-- What is returned of a frame is in range. -/
structure FrameInRange (pf : ProcessedFrame) : Prop where
  streamId : pf.hdr.streamId < 2 ^ 31
  isHeader : pf.isHeaderFrame = pf.hdr.isHeaderFrame
  payload : pf.truncated = false → pf.hdr.len = pf.payload.length ∧ pf.hdr.len ≤ maxBufferedFrame
  decoded : ∀ blk, pf.decoded = some blk → blk.carried.WellFormed

variable [HuffmanDecoding]

/-- The block that a frame ends is in range, and so is what is open after it. -/
theorem TakeOutcome.in_range {d d' : Direction} {hdr : FrameHeader} {payload : Bytes}
    {decoded : Option DecodedBlock} (h : TakeOutcome d hdr payload d' decoded)
    (hsid : hdr.streamId < 2 ^ 31) (hd : d.BlockInRange) :
    d'.BlockInRange ∧ ∀ blk, decoded = some blk → blk.carried.WellFormed := by
  cases h with
  | other _ hheader hsame => exact ⟨hd.of_same_blocks hsame, by simp⟩
  | bad _ hheader hadd hsame =>
      exact ⟨(block_in_range_of_none rfl rfl).of_same_blocks hsame, by simp⟩
  | opened opened _ hheader hadd hend hsame =>
      exact ⟨(hd.add_fragment hsid hadd).of_same_blocks hsame, by simp⟩
  | failed opened _ dec e hheader hadd hend hdecode hsame =>
      exact ⟨(block_in_range_of_none rfl rfl).of_same_blocks hsame, by simp⟩
  | decoded opened _ bhdr dec fields hheader hadd hend hbhdr hdecode hsame =>
      refine ⟨(block_in_range_of_none rfl rfl).of_same_blocks hsame, ?_⟩
      rintro blk ⟨⟩
      obtain ⟨hid, hpromised, hpush⟩ := hd.add_fragment hsid hadd
      by_cases hkind : bhdr.typ = FrameType.pushPromise
      · have hblock : opened.blockKind bhdr = .pushPromise := if_pos hkind
        simp only [DecodedBlock.carried, hblock, if_true]
        exact ⟨hid bhdr hbhdr, hpromised, ⟨fun _ => hpush bhdr hbhdr hkind, fun _ => rfl⟩,
          fun _ => rfl⟩
      · have hblock : opened.blockKind bhdr ≠ .pushPromise := by
          unfold blockKind
          rw [if_neg hkind]
          split <;> simp
        simp only [DecodedBlock.carried, hblock, if_false]
        refine ⟨hid bhdr hbhdr, by simp, ⟨fun heq => absurd heq hblock, by simp⟩,
          fun heq => absurd heq hblock⟩

/-- The returned frame shows its header and payload, and whether it is a header frame. -/
theorem handle_frame_echoes (d : Direction) (hdr : FrameHeader) (payload : Bytes) (startOff : Nat)
    (startSeq : Seq) :
    (d.handleFrame hdr payload startOff startSeq).2.hdr = hdr ∧
      (d.handleFrame hdr payload startOff startSeq).2.payload = payload ∧
      (d.handleFrame hdr payload startOff startSeq).2.isHeaderFrame = hdr.isHeaderFrame := by
  have htypes : FrameType.settings ≠ FrameType.headers ∧
      FrameType.settings ≠ FrameType.continuation ∧
      FrameType.settings ≠ FrameType.pushPromise := by decide
  unfold handleFrame FrameHeader.isHeaderFrame
  split
  · next hsettings => simp [hsettings, htypes]
  · split
    · next hbegins => rcases hbegins with hbegins | hbegins <;> simp [hbegins]
    · next hbegins =>
        rw [not_or] at hbegins
        split
        · next hcontinuation => simp [hcontinuation]
        · next hcontinuation => simp [hbegins, hcontinuation]

/-- What a turn returns is in range. -/
theorem in_range_turn {d d' : Direction} {frame : Option ProcessedFrame} (h : d.BlockInRange)
    (hturn : d.parseStep = .more d' frame) :
    d'.BlockInRange ∧ ∀ pf ∈ frame, FrameInRange pf := by
  have hcases := turn_cases d
  rw [hturn] at hcases
  cases hcases with
  | move _ hsame => exact ⟨h.of_same_blocks hsame, by simp⟩
  | misaligned _ hsame =>
      have hd : ({ d with dec := d.dec.resetPartial } : Direction).BlockInRange := ⟨h.1, h.2, h.3⟩
      exact ⟨hd.of_same_blocks hsame, by simp⟩
  | skip hdr hat hparse hwant =>
      refine ⟨⟨h.1, h.2, h.3⟩, ?_⟩
      rintro pf ⟨⟩
      exact ⟨FrameHeader.stream_id_lt hparse, rfl, by simp [skipFrame], by simp [skipFrame]⟩
  | take hdr payload hframe =>
      obtain ⟨-, hparse, hwant, hlength, hpayload⟩ := turn_frame_eq_some hframe
      have hsid := FrameHeader.stream_id_lt hparse
      obtain ⟨hblock, hdecoded⟩ := (take_frame_cases hframe).in_range hsid h
      refine ⟨hblock, ?_⟩
      rintro pf ⟨⟩
      have hshows : (d.takeFrame hdr).2.hdr = hdr ∧ (d.takeFrame hdr).2.payload = payload ∧
          (d.takeFrame hdr).2.isHeaderFrame = hdr.isHeaderFrame := by
        rw [hpayload]
        exact handle_frame_echoes _ hdr _ _ _
      obtain ⟨hhdr, hbytes, hheader⟩ := hshows
      refine ⟨by rwa [hhdr], by rwa [hhdr], fun _ => ?_, hdecoded⟩
      rw [hhdr, hbytes, hpayload, List.length_take, List.length_drop]
      unfold wantPayload at hwant
      simp only [Bool.and_eq_true, decide_eq_true_eq] at hwant
      simp only [frameHeaderLen] at hlength ⊢
      omega

/-- What a call returns is in range. -/
theorem in_range_parse {d : Direction} (h : d.BlockInRange) :
    d.parse.1.BlockInRange ∧ ∀ pf ∈ d.parse.2, FrameInRange pf := by
  refine parse_rule (P := BlockInRange) (G := fun _ => True) (Q := FrameInRange) ?_
    (fun _ _ _ ht _ hturn => in_range_turn ht hturn) (fun _ _ => trivial) h
  intro t t' ht hturn
  have hcases := turn_cases t
  rw [hturn] at hcases
  cases hcases with
  | stop _ hsame => exact ht.of_same_blocks hsame

theorem in_range_feed {d : Direction} (h : d.BlockInRange) (seq : Seq) (data : Bytes)
    (nowUs : Nat) :
    (d.feed seq data nowUs).1.BlockInRange ∧ ∀ pf ∈ (d.feed seq data nowUs).2, FrameInRange pf := by
  refine in_range_parse ?_
  unfold withReassembled
  split
  · exact block_in_range_of_none rfl rfl
  · exact ⟨h.1, h.2, h.3⟩

end Direction

/-- What is written for a frame is in range. -/
theorem Direction.FrameInRange.normalize {pf : ProcessedFrame} (h : Direction.FrameInRange pf)
    {item : Normalized} (hitem : normalize pf = some item) : item.InRange := by
  unfold H2Tap.normalize at hitem
  split at hitem
  · cases hitem
  · next hwhole =>
      split at hitem
      · obtain ⟨blk, hblk, rfl⟩ := Option.map_eq_some_iff.mp hitem
        exact h.decoded blk hblk
      · next hheader =>
          cases hitem
          obtain ⟨hlen, hmax⟩ := h.payload (by simpa using hwhole)
          exact ⟨by rw [← h.isHeader]; simpa using hheader, hlen, hlen ▸ hmax, h.streamId⟩

/-! ## The replay -/

/-- The open block of a direction and all that was written for it are in range. -/
structure DirState.InRange (ds : DirState) : Prop where
  block : ds.dir.BlockInRange
  out : ∀ item ∈ ds.out, item.2.InRange

namespace Replay

variable [HuffmanDecoding] (seeds : Table (String × String) Seed)

omit [HuffmanDecoding] in
theorem in_range_touched {r : Replay}
    (h : ∀ k cs, r.conns.lookup k = some cs → ∀ isC2s, (cs.dir isC2s).InRange) (seg : EthSegment)
    (ts : Nat) (isC2s : Bool) : ((r.touched seeds seg ts).dir isC2s).InRange := by
  have hfound : ∀ side, ((r.found seg ts).dir side).InRange := by
    refine found_rule h seg ts fun side => ⟨?_, ?_⟩
    · cases side <;> cases hsyn : seg.freshSyn <;>
        simp only [ConnState.opened, ConnState.dir, hsyn] <;>
        exact Direction.block_in_range_of_none rfl rfl
    · rw [(ConnState.opened_dir seg ts side).2]
      simp
  rcases Bool.eq_or_eq_not isC2s (r.sentByClient seg ts) with rfl | rfl
  · rw [touched, ConnState.touch_dir]
    refine ⟨ConnState.touched_dir_rule (P := Direction.BlockInRange) (hfound _).block
      (fun s _ _ => Direction.block_in_range_of_none rfl rfl) (fun d seq hd => ⟨hd.1, hd.2, hd.3⟩)
      _ _, ?_⟩
    rw [ConnState.touched_dir_out]
    exact (hfound _).out
  · rw [touched, ConnState.touch_dir_not]
    exact hfound _

theorem in_range_step {r : Replay}
    (h : ∀ k cs, r.conns.lookup k = some cs → ∀ isC2s, (cs.dir isC2s).InRange) (packet : Packet) :
    ∀ k cs, (r.step seeds packet).1.conns.lookup k = some cs → ∀ isC2s, (cs.dir isC2s).InRange := by
  intro k cs hlookup isC2s
  rcases lookup_step_cases seeds hlookup with hbefore | ⟨seg, -, -, hcs⟩
  · exact h k cs hbefore isC2s
  have htouched := in_range_touched seeds (r := r.countPacket) h seg packet.1
  rcases hcs with rfl | rfl
  · exact htouched isC2s
  rw [absorbed]
  rcases Bool.eq_or_eq_not isC2s (r.countPacket.sentByClient seg packet.1) with rfl | rfl
  · obtain ⟨hblock, hframes⟩ := Direction.in_range_feed
      (htouched (r.countPacket.sentByClient seg packet.1)).block seg.seq seg.payload packet.1
    rw [ConnState.absorb_dir]
    refine ⟨hblock, fun item hitem => ?_⟩
    rcases List.mem_append.mp hitem with hold | hnew
    · exact (htouched _).out item hold
    · obtain ⟨written, hwritten, rfl⟩ := List.mem_map.mp hnew
      rcases List.mem_append.mp hwritten with hframe | hmarker
      · obtain ⟨pf, hpf, hitem⟩ := List.mem_filterMap.mp hframe
        exact (hframes pf hpf).normalize hitem
      · rw [List.eq_of_mem_replicate hmarker]
        trivial
  · rw [ConnState.absorb_dir_not]
    have hpeer : ∀ (sizes : List Nat) (d : Direction), d.BlockInRange →
        (sizes.foldl Direction.applyPeerCapacity d).BlockInRange := by
      intro sizes
      induction sizes with
      | nil => exact fun d hd => hd
      | cons n sizes ih => exact fun d hd => ih _ ⟨hd.1, hd.2, hd.3⟩
    exact ⟨hpeer _ _ (htouched _).block, (htouched _).out⟩

/-- In every state of the replay, all that was written is in range. -/
theorem in_range_run (packets : List Packet) :
    ∀ k cs, (run (step seeds) start packets).1.conns.lookup k = some cs →
      ∀ isC2s, (cs.dir isC2s).InRange :=
  (run_invariant (step seeds) (Q := fun _ => True)
    (P := fun r => ∀ k cs, r.conns.lookup k = some cs → ∀ isC2s, (cs.dir isC2s).InRange)
    (fun _ packet h _ => ⟨in_range_step seeds h packet, trivial⟩)
    (fun k cs hlookup => by simp [start] at hlookup) (guarded_true _ packets)).1

end Replay

end H2Tap
