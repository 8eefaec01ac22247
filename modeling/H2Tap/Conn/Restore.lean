import H2Tap.Conn.Received
import H2Tap.Conn.Arrival
import H2Tap.Conn.Seek

/-!
# Restoring a direction from its snapshot

A direction `d` watched from its SYN is snapshotted at a frame boundary, and a direction `r` seeded
from the snapshot is fed the same stream from an earlier byte on. `Mirrors` relates the two at a
frame boundary: their header blocks and decoders agree, but for what a snapshot does not carry.
Every frame keeps it (`mirrors_absorb`), and `restored_direction_agrees` is the outcome for whole
streams: `r` returns no frame before the snapshot and the same header blocks as `d` after it.
-/

namespace H2Tap.Direction

open Lib

section

variable [HuffmanDecoding]

/-! ## What a watched direction keeps -/

/-- The table is known as long as nothing failed, and nothing is left over from a closed block. -/
structure Steady (limit : Nat) (d : Direction) : Prop where
  watched : d.poisoned = false → d.dec.Watched limit
  idle : d.blockHdr = none → d.block = [] ∧ d.blockPromised = none

omit [HuffmanDecoding] in
theorem Steady.of_same_blocks {limit : Nat} {d d' : Direction} (h : d.Steady limit)
    (hsame : SameBlocks d d') : d'.Steady limit := by
  refine ⟨?_, ?_⟩
  · rw [hsame.poisoned, hsame.dec]
    exact h.watched
  · rw [hsame.blockHdr, hsame.block, hsame.blockPromised]
    exact h.idle

theorem steady_handle_frame {limit : Nat} {d : Direction} (h : d.Steady limit) (hdr : FrameHeader)
    (payload : Bytes) (startOff : Nat) (startSeq : Seq) :
    (d.handleFrame hdr payload startOff startSeq).1.Steady limit := by
  have htake := handle_frame_cases d hdr payload startOff startSeq
  generalize (d.handleFrame hdr payload startOff startSeq).1 = d' at htake
  generalize (d.handleFrame hdr payload startOff startSeq).2.decoded = decoded at htake
  cases htake with
  | other _ hheader hsame => exact h.of_same_blocks hsame
  | bad _ hheader hadd hsame =>
      refine Steady.of_same_blocks ⟨?_, fun _ => ⟨rfl, rfl⟩⟩ hsame
      intro hpoisoned
      cases hpoisoned
  | opened opened _ hheader hadd hend hsame =>
      obtain ⟨hopen, hdec, hpoisoned, -⟩ := add_fragment_open hadd
      refine Steady.of_same_blocks ⟨?_, ?_⟩ hsame
      · rw [hpoisoned, hdec]
        exact h.watched
      · intro hnone
        rw [hnone] at hopen
        cases hopen
  | failed opened _ dec e hheader hadd hend hdecode hsame =>
      refine Steady.of_same_blocks ⟨?_, fun _ => ⟨rfl, rfl⟩⟩ hsame
      intro hpoisoned
      cases hpoisoned
  | decoded opened _ bhdr dec fields hheader hadd hend hbhdr hdecode hsame =>
      obtain ⟨-, -, hpoisoned, -⟩ := add_fragment_open hadd
      refine Steady.of_same_blocks ⟨?_, fun _ => ⟨rfl, rfl⟩⟩ hsame
      intro hhealthy
      have hwatched := (h.watched (hpoisoned.symm.trans hhealthy)).decode opened.block
      rw [hdecode] at hwatched
      exact hwatched

theorem steady_absorbed {limit : Nat} {d : Direction} (h : d.Steady limit) (frames : List Frame) :
    (d.absorbed frames).Steady limit := by
  induction frames generalizing d with
  | nil => exact h
  | cons f frames ih =>
      refine ih ?_
      show (d.absorb f).1.Steady limit
      unfold absorb
      split
      · exact steady_handle_frame h _ _ _ _
      · exact h

/-! ## Two directions at the same frame boundary -/

/-- The header blocks of `r` are those of `d`, and its decoder that of `d` but for the count of
unresolved references and the tracking limit. -/
structure Mirrors (limit : Nat) (d r : Direction) : Prop where
  dec : ∃ count, d.dec = r.dec.retuned count limit
  limit_le : limit ≤ r.dec.trackLimit
  block : d.block = r.block
  blockHdr : d.blockHdr = r.blockHdr
  blockPromised : d.blockPromised = r.blockPromised
  desynced : d.desynced = r.desynced

/-- Two blocks are the same but for the kind, which depends on the streams seen open. -/
def SameButKind (a b : DecodedBlock) : Prop := a = { b with kind := a.kind }

section

variable {limit : Nat} {d r : Direction}

omit [HuffmanDecoding] in
theorem Mirrors.drop_open_block (h : Mirrors limit d r) :
    Mirrors limit d.dropOpenBlock r.dropOpenBlock := by
  unfold dropOpenBlock
  rw [h.blockHdr]
  split
  · exact ⟨h.dec, h.limit_le, rfl, rfl, h.blockPromised, h.desynced⟩
  · exact h

omit [HuffmanDecoding] in
theorem Mirrors.note_promised (h : Mirrors limit d r) (hdr : FrameHeader) (payload : Bytes) :
    Mirrors limit (d.notePromised hdr payload) (r.notePromised hdr payload) := by
  unfold notePromised
  split
  · split
    · exact ⟨h.dec, h.limit_le, h.block, h.blockHdr, rfl, h.desynced⟩
    · exact h
  · exact h

omit [HuffmanDecoding] in
/-- A header frame adds the same fragment to both, or to neither. -/
theorem Mirrors.add_fragment (h : Mirrors limit d r) (hdr : FrameHeader) (payload : Bytes) :
    (d.addFragment hdr payload = none ∧ r.addFragment hdr payload = none) ∨
      ∃ d' r', d.addFragment hdr payload = some d' ∧ r.addFragment hdr payload = some r' ∧
        Mirrors limit d' r' := by
  unfold addFragment
  rw [h.blockHdr]
  split
  · split
    · exact Or.inl ⟨rfl, rfl⟩
    · exact Or.inr ⟨_, _, rfl, rfl, ⟨h.dec, h.limit_le, by rw [h.block], rfl,
        h.blockPromised, h.desynced⟩⟩
  · have hnoted := h.drop_open_block.note_promised hdr payload
    cases headerBlockFragment hdr payload with
    | none => exact Or.inl ⟨rfl, rfl⟩
    | some frag =>
        exact Or.inr ⟨_, _, rfl, rfl, ⟨hnoted.dec, hnoted.limit_le, by rw [hnoted.block], rfl,
          hnoted.blockPromised, hnoted.desynced⟩⟩

theorem finish_block_over_limit {hdr : FrameHeader} (hopen : d.blockHdr = some hdr) :
    d.finishBlock.1.dec.overLimit = (d.dec.decode d.block).1.overLimit := by
  simp only [finishBlock, hopen]
  rcases d.dec.decode d.block with ⟨dec, e | fields⟩ <;> rfl

/-- Finishing the open block gives the same fields in both, or an error in both. -/
theorem Mirrors.finish_block (h : Mirrors limit d r)
    (hwithin : d.finishBlock.1.dec.overLimit = false) :
    Mirrors limit d.finishBlock.1 r.finishBlock.1 ∧
      Option.Rel SameButKind d.finishBlock.2 r.finishBlock.2 := by
  cases hbhdr : r.blockHdr with
  | none =>
      have hd : d.finishBlock = (d, none) := by simp only [finishBlock, h.blockHdr, hbhdr]
      have hr : r.finishBlock = (r, none) := by simp only [finishBlock, hbhdr]
      rw [hd, hr]
      exact ⟨h, .none⟩
  | some hdr =>
      obtain ⟨count, hdec⟩ := h.dec
      rw [finish_block_over_limit (h.blockHdr.trans hbhdr), hdec, h.block] at hwithin
      have hdecode := Decoder.decode_retuned r.block h.limit_le hwithin
      have hlimit : limit ≤ (r.dec.decode r.block).1.trackLimit :=
        (Decoder.decode_limit r.dec r.block rfl).1 ▸ h.limit_le
      simp only [finishBlock, h.blockHdr, hbhdr, hdec, h.block, hdecode]
      revert hlimit
      rcases r.dec.decode r.block with ⟨dec, e | fields⟩ <;> intro hlimit
      · exact ⟨⟨⟨count, rfl⟩, hlimit, rfl, rfl, rfl, h.desynced⟩, .none⟩
      · refine ⟨⟨⟨count, rfl⟩, hlimit, rfl, rfl, rfl, h.desynced⟩, .some ?_⟩
        simp only [SameButKind, Decoder.retuned_isExact, Decoder.retuned_unresolved,
          Nat.add_sub_add_right, h.blockPromised]

/-- As long as `d` keeps its place and is within its limit, every frame keeps the two alike, and
they return the same block for it. -/
theorem mirrors_absorb (h : Mirrors limit d r) (f : Frame)
    (hsynced : (d.absorb f).1.desynced = false)
    (hwithin : (d.absorb f).1.dec.overLimit = false) :
    Mirrors limit (d.absorb f).1 (r.absorb f).1 ∧
      Option.Rel SameButKind (d.absorb f).2.1 (r.absorb f).2.1 := by
  by_cases hblock : f.hdr.isHeaderFrame = false ∨ maxBufferedFrame < f.hdr.len
  · obtain ⟨hd, hdout⟩ := absorb_without_block d hblock
    obtain ⟨hr, hrout⟩ := absorb_without_block r hblock
    rw [hd, hr, hdout, hrout]
    exact ⟨h, .none⟩
  · rw [not_or, Bool.not_eq_false, not_lt] at hblock
    obtain ⟨hd, hdout⟩ := absorb_header_frame d hblock.1 hblock.2
    obtain ⟨hr, hrout⟩ := absorb_header_frame r hblock.1 hblock.2
    rw [hd] at hsynced hwithin
    rw [hd, hr, hdout, hrout]
    simp only [frameOutput]
    rw [handle_header_frame d hblock.1] at hsynced hwithin ⊢
    rw [handle_header_frame r hblock.1]
    rcases h.add_fragment f.hdr f.payload with ⟨hdadd, -⟩ | ⟨d', r', hdadd, hradd, h'⟩
    · rw [hdadd] at hsynced
      cases hsynced
    · rw [hdadd] at hsynced hwithin ⊢
      rw [hradd]
      simp only [finishIfEnd] at hwithin ⊢
      split at hwithin
      · next hend =>
          simp only [hend, if_true]
          exact h'.finish_block hwithin
      · next hend =>
          simp only [hend]
          exact ⟨h', .none⟩

/-! ## Whole streams -/

/-- Any frames: as long as `d` keeps its place and is within its limit in the end, the two are alike
in the end and have returned the same blocks. -/
theorem mirrors_absorbed (h : Mirrors limit d r) (frames : List Frame)
    (hplace : ¬ (d.absorbed frames).LostPlace)
    (hwithin : (d.absorbed frames).dec.overLimit = false) :
    Mirrors limit (d.absorbed frames) (r.absorbed frames) ∧
      List.Forall₂ SameButKind (blocksOf (d.absorbOutput frames))
        (blocksOf (r.absorbOutput frames)) := by
  induction frames generalizing d r with
  | nil => exact ⟨h, .nil⟩
  | cons f frames ih =>
      obtain ⟨hplace', hover'⟩ := absorbed_sticky (d.absorb f).1 frames
      have hsynced : (d.absorb f).1.desynced = false := by
        by_contra hlost
        exact hplace (hplace' (Or.inl (by simpa using hlost)))
      obtain ⟨hnext, hblock⟩ := mirrors_absorb h f hsynced (hover' hwithin)
      obtain ⟨hend, hblocks⟩ := ih hnext hplace hwithin
      refine ⟨hend, ?_⟩
      have hcons : ∀ d : Direction, blocksOf (d.absorbOutput (f :: frames)) =
          (d.absorb f).2.1.toList ++ blocksOf ((d.absorb f).1.absorbOutput frames) := by
        intro d
        simp only [blocksOf, absorbOutput, run, List.filterMap_cons]
        cases (d.absorb f).2.1 <;> rfl
      rw [hcons, hcons]
      generalize (d.absorb f).2.1 = decoded at hblock ⊢
      generalize (r.absorb f).2.1 = decoded' at hblock ⊢
      cases hblock with
      | none => exact hblocks
      | some hsame => exact .cons hsame hblocks

end

/-! ## Two runs over one stream -/

/-- Two directions that stand at the same frame, and one of which mirrors the other, have returned
the same blocks once they have followed the stream to the same byte. -/
theorem followed_alike {limit k k' : Nat} {d r : Source} {rest : Bytes}
    {before : Nat → Bytes → Direction → Prop}
    {outs outs' : List (Option DecodedBlock × Option Nat)} {d' r' : Direction}
    (hr : r.frames = d.frames) (h : Mirrors limit d.start r.start)
    (hplace : ¬ d'.LostPlace) (hwithin : d'.dec.overLimit = false)
    (hfollows : Follows d (fun _ _ _ => False) k rest outs d')
    (hfollows' : Follows r before k' rest outs' r') (hpast : ¬ before k' rest r') :
    List.Forall₂ SameButKind (blocksOf outs) (blocksOf outs') := by
  rcases hfollows with hlost | ⟨hfalse, -⟩ | ⟨jd, hreads, hsettled, rfl⟩
  · exact absurd hlost.sync.2 hplace
  · exact hfalse.elim
  obtain ⟨i, hreceived, hstate, hblocks⟩ := reads_received_in_full hreads hsettled
  -- the direction that does not lose its place absorbs the first `i` frames
  obtain ⟨n, hhandled⟩ := hreads.handled
  have hplace' : ¬ (d.start.absorbed (d.frames.take i)).LostPlace := by
    rw [← hstate]
    rw [hhandled] at hplace
    exact hplace
  have hwithin' : (d.start.absorbed (d.frames.take i)).dec.overLimit = false := by
    rw [← hstate]
    rw [hhandled] at hwithin
    exact hwithin
  rcases hfollows' with hlost | ⟨hbefore, -⟩ | ⟨jr, hreads', hsettled', rfl⟩
  · -- the other one cannot have lost its place at one of them
    obtain ⟨j, hj, hdesynced, hlength⟩ := hlost.frame
    rw [hr] at hj hdesynced hlength
    have hle : j ≤ i := (hreceived.2 j hj).mp hlength
    have hsplit := take_split d.frames hle
    rw [hsplit, absorbed_append] at hplace' hwithin'
    obtain ⟨hplaces, hlimits⟩ := absorbed_sticky (d.start.absorbed (d.frames.take j))
      ((d.frames.take i).drop j)
    have hmirrors := (mirrors_absorbed h (d.frames.take j) (fun hlost => hplace' (hplaces hlost))
      (hlimits hwithin')).1
    exact absurd (hplaces (Or.inl (hmirrors.desynced.trans hdesynced))) hplace'
  · exact absurd hbefore hpast
  · obtain ⟨i', hreceived', -, hblocks'⟩ := reads_received_in_full hreads' hsettled'
    rw [hr] at hreceived' hblocks'
    obtain rfl := received_in_full_unique hreceived hreceived'
    rw [hblocks, hr, hblocks']
    exact (mirrors_absorbed h (d.frames.take i) hplace' hwithin').2

/-! ## The snapshot -/

/-- The direction that the rebuilder seeds from a snapshot: `joined_midstream`, then
`seed_from_snapshot` with what `dir_snapshot` has recorded. -/
def restoredFrom (d : Direction) : Direction :=
  (joinedMidstream true).seedFromSnapshot (restoredFields d.dec.table) d.dec.maxSize d.nextFrameSeq

section

variable {limit : Nat} {d : Direction}

omit [HuffmanDecoding] in
/-- A direction mirrors its snapshot. -/
theorem mirrors_restored (h : d.Steady limit) (hsnapshottable : d.isSnapshottable = true)
    (hlimit : limit ≤ usizeMax) (target : Option Seq) (skip : Nat) :
    Mirrors limit d
      { d.restoredFrom with pendingStartSeq := target, preSnapshotSkipped := skip } := by
  simp only [isSnapshottable, Decoder.isExact, Bool.and_eq_true, Bool.not_eq_eq_eq_not,
    Bool.not_true, Option.isNone_iff_eq_none] at hsnapshottable
  obtain ⟨⟨⟨hpoisoned, hdesynced⟩, -, hover⟩, hclosed⟩ := hsnapshottable
  obtain ⟨hblock, hpromised⟩ := h.idle hclosed
  have hwatched := h.watched hpoisoned
  refine ⟨⟨d.dec.unresolved, hwatched.restored_eq hover hlimit⟩, ?_, hblock, hclosed, hpromised,
    hdesynced⟩
  have htrack : ∀ d : Decoder, (d.setTrackLimit usizeMax).trackLimit = usizeMax := by
    intro d
    unfold Decoder.setTrackLimit Decoder.enforceLimit
    split <;> rfl
  exact hlimit.trans (htrack _).ge

/-- A direction at a frame boundary follows the rest of the stream as a stream of its own. -/
theorem reads_from_here {src : Source} {k j : Nat} {rest : Bytes} (h : Reads src k rest j d)
    (hsettled : Settled src j d) (hdiscard : d.discard = 0) :
    Follows ⟨d, src.frames.drop j, src.delivery⟩ (fun _ _ _ => False) k rest [] d := by
  obtain ⟨hpending, hsynced, hpreface⟩ := h.synced
  obtain ⟨tail, htail, hbytes⟩ := h.bytes
  obtain rfl : tail = [] := List.length_eq_zero_iff.mp (htail.trans hdiscard)
  obtain ⟨n, hhandled⟩ := h.handled
  have hwant : ∀ hdr, d.wantPayload hdr = src.start.wantPayload hdr := by
    intro hdr
    rw [hhandled]
    rfl
  refine Or.inr (Or.inr ⟨0, reads_start ?_ rfl hbytes h.order, ?_, rfl⟩)
  · simp only [atFrame, hdiscard, hpending, hsynced, hpreface]
    rfl
  · simp only [Settled, hdiscard, gt_iff_lt, lt_self_iff_false, if_false, hwant,
      List.getElem?_drop, Nat.add_zero] at hsettled ⊢
    exact hsettled

end

/-- A direction watched from its SYN is steady wherever it stands. -/
theorem steady_reads {keepPayloads : Bool} {limit : Nat} {isn : Seq} {delivery : Delivery}
    {frames : List Frame} {k j : Nat} {rest : Bytes} {d : Direction}
    (h : Reads (watchedSource keepPayloads limit isn delivery frames) k rest j d) :
    d.Steady limit := by
  obtain ⟨n, hhandled⟩ := h.handled
  have hstart : (watchedFrom keepPayloads false limit isn).Steady limit :=
    ⟨fun _ => Decoder.new_exact_watched limit, fun _ => ⟨rfl, rfl⟩⟩
  rw [hhandled]
  exact (steady_absorbed hstart (frames.take j)).of_same_blocks ⟨rfl, rfl, rfl, rfl, rfl, rfl, id⟩

section

variable {hasPreface : Bool} {limit : Nat} {isn : Seq} {frames : List Frame} {stream : Bytes}
  {before after : List Arrival} {d : Direction}

/-- Where a snapshot of a watched direction is taken, when no payload is being dropped and no
preface is expected. -/
theorem snapshot_place (hstream : stream = leadBytes hasPreface ++ framesWire frames)
    (hbefore : Guarded (arrive (isn + 1) stream) (arrivesInWindow (isn + 1) stream)
      (watchedFrom false hasPreface limit isn) before)
    (hd : (run (arrive (isn + 1) stream) (watchedFrom false hasPreface limit isn) before).1 = d)
    (hsnapshottable : d.isSnapshottable = true) (hdiscard : d.discard = 0)
    (hpreface : d.expectPreface = false) :
    ∃ k ≤ stream.length, ∃ j,
      Reads (watchedSource false limit isn (.anyOrder (isn + 1) stream) frames) k
        (stream.drop k) j d ∧
      Settled (watchedSource false limit isn (.anyOrder (isn + 1) stream) frames) j d ∧
      d.reasm.offset = (leadBytes hasPreface ++ framesWire (frames.take j)).length := by
  obtain ⟨k, hk, hrun⟩ := watched_arrivals hstream hbefore
  have hlengths := congrArg List.length hstream
  rw [List.length_append] at hlengths
  rw [hd] at hrun
  rcases hrun with hlost | ⟨⟨-, hawaits⟩, -⟩ | ⟨j, hreads, hsettled, -⟩
  · exact absurd hsnapshottable hlost.sync.not_snapshottable
  · rw [hawaits.waiting] at hpreface
    cases hpreface
  · refine ⟨k, hk, j, hreads, hsettled, ?_⟩
    have hmoved := hreads.offset_eq (leadBytes hasPreface).length (by
      rw [List.length_drop, Nat.add_sub_of_le hk]
      exact hlengths)
    rw [hdiscard, Nat.add_zero] at hmoved
    rw [List.length_append]
    exact hmoved

omit [HuffmanDecoding] in
/-- A direction seeded from a snapshot seeks the recorded boundary from an earlier byte on. -/
theorem restored_seeded {base : Seq} {j : Nat} (hbase : d.reasm.baseSeq = base)
    (hle : j ≤ d.reasm.offset) (hnear : d.reasm.offset - j < 2 ^ 31) :
    Seeded (base + BitVec.ofNat 32 j) (d.reasm.offset - j) d.restoredFrom where
  fresh := rfl
  skipped := rfl
  target := by
    have hseq : d.nextFrameSeq = base + BitVec.ofNat 32 d.reasm.offset := by
      rw [nextFrameSeq, Reassembler.nextUnparsedSeq, Reassembler.seqAt, hbase]
      rfl
    show some d.nextFrameSeq = _
    rw [hseq, BitVec.add_assoc, ← BitVec.ofNat_add, Nat.add_sub_of_le hle]
  mode := ⟨rfl, rfl, rfl⟩
  near := hnear

/-- From its snapshot on, a direction and the one that was seeded from the snapshot return the same
header blocks. -/
theorem blocks_agree_after_snapshot {segments : List (Bytes × Nat)} {j : Nat}
    {d' : Direction × List (List ProcessedFrame)}
    {r' : (Direction × Seq) × List (List ProcessedFrame)}
    (hlimit : limit ≤ usizeMax) (hstream : stream = leadBytes hasPreface ++ framesWire frames)
    (hsegments : segmentBytes segments = (stream.take d'.1.reasm.deliveredOff).drop j)
    (hdata : ∀ segment ∈ segments, segment.1 ≠ [])
    (hbefore : Guarded (arrive (isn + 1) stream) (arrivesInWindow (isn + 1) stream)
      (watchedFrom false hasPreface limit isn) before)
    (hafter : Guarded (arrive (isn + 1) stream) (arrivesInWindow (isn + 1) stream) d after)
    (hd : (run (arrive (isn + 1) stream) (watchedFrom false hasPreface limit isn) before).1 = d)
    (hd' : run (arrive (isn + 1) stream) d after = d')
    (hr' : run feedNext (d.restoredFrom, isn + 1 + BitVec.ofNat 32 j) segments = r')
    (hsnapshottable : d.isSnapshottable = true) (hdiscard : d.discard = 0)
    (hpreface : d.expectPreface = false) (hle : j ≤ d.reasm.offset)
    (hnear : d.reasm.offset - j < 2 ^ 31) (hplace : ¬ d'.1.LostPlace)
    (hwithin : d'.1.dec.overLimit = false) :
    (∀ pf ∈ r'.2.flatten, d.reasm.offset - j ≤ pf.startOff) ∧
      List.Forall₂ SameButKind (decodedBlocks d'.2.flatten) (decodedBlocks r'.2.flatten) := by
  obtain ⟨k, hk, jp, hreads, hsettled, hoffset⟩ :=
    snapshot_place hstream hbefore hd hsnapshottable hdiscard hpreface
  have hreceived : d.reasm.offset + d.reasm.available.length = k :=
    hreads.order.collecting.received
  -- what the first direction goes on to receive
  obtain ⟨k', hkk', hk', hfollows⟩ := arrivals_follow rfl
    (fun _ _ _ _ _ hfalse => False.elim hfalse) hk
    (reads_from_here hreads hsettled hdiscard) hafter
  rw [hd', List.nil_append] at hfollows
  have hdelivered : d'.1.reasm.deliveredOff = k' := by
    rcases hfollows with hlost | ⟨hfalse, -⟩ | ⟨jd, hreads', -, -⟩
    · exact absurd hlost.sync.2 hplace
    · exact hfalse.elim
    · exact (Reassembler.Collected.collecting hreads'.order).deliveredOff
  rw [hdelivered] at hsegments
  have hseeded := restored_seeded hreads.order.collecting.baseSeq hle hnear
  subst hr'
  refine ⟨frames_after_target hseeded hdata, ?_⟩
  rw [← blocks_of_frame_outputs, ← blocks_of_frame_outputs]
  have hlength := congrArg List.length hsegments
  rw [List.length_drop, List.length_take, min_eq_left hk'] at hlength
  by_cases hnone : segments = []
  · -- there are no bytes after the snapshot
    subst hnone
    rcases hfollows with hlost | ⟨hfalse, -⟩ | ⟨jd, hreads', hsettled', houts⟩
    · exact absurd hlost.sync.2 hplace
    · exact hfalse.elim
    · obtain ⟨i, hfull, -, hblocks⟩ := reads_received_in_full hreads' hsettled'
      obtain ⟨tail, htail, hbytes⟩ := hreads.bytes
      have hlengths := congrArg List.length hbytes
      simp only [segmentBytes, List.flatMap_nil, List.length_nil] at hlength
      simp only [List.length_append, List.length_drop, htail, hdiscard] at hlengths
      obtain rfl := nothing_received hfull (by
        show (framesWire (frames.drop jp)).length ≤ (stream.drop k').length
        have hframes : (watchedSource false limit isn (.anyOrder (isn + 1) stream) frames).frames =
            frames := rfl
        rw [hframes] at hlengths
        rw [List.length_drop]
        omega)
      rw [houts, hblocks]
      exact .nil
  · have hsplit : framesWire frames =
        framesWire (frames.take jp) ++ framesWire (frames.drop jp) := by
      rw [framesWire, framesWire, framesWire, ← List.flatMap_append, List.take_append_drop]
    have hstream' : segmentBytes segments ++ stream.drop k' =
        (leadBytes hasPreface ++ framesWire (frames.take jp)).drop j ++
          framesWire (frames.drop jp) := by
      rw [hsegments, ← List.drop_append_of_le_length (by rw [List.length_take]; omega),
        List.take_append_drop, hstream, hsplit, ← List.append_assoc,
        List.drop_append_of_le_length (by omega)]
    have hfollows' := seeks_run hseeded (by rw [List.length_drop, ← hoffset]) hstream' hdata hnone
    have hmirrors := mirrors_restored (steady_reads hreads) hsnapshottable hlimit none
      (d.reasm.offset - j)
    refine followed_alike (d := ⟨d, frames.drop jp, .anyOrder (isn + 1) stream⟩)
      (r := seekSource d.restoredFrom (frames.drop jp) (isn + 1 + BitVec.ofNat 32 j)
        (d.reasm.offset - j)) rfl hmirrors hplace hwithin hfollows hfollows' ?_
    rintro ⟨-, hshort⟩
    omega

end

/-- A direction that follows a stream from its SYN, whatever the order of its segments, is
snapshotted at a frame boundary, and another one seeded from the snapshot is fed the stream from an
earlier byte `j` on, cut in any way. No frame that the second one returns starts before the
snapshot, and as long as the first one keeps its place and is within its limit, the header blocks
that they decode from the same bytes from there on are the same. -/
theorem restored_direction_agrees (hasPreface : Bool) (limit : Nat) (isn : Seq)
    (frames : List Frame) (before after : List Arrival) (segments : List (Bytes × Nat)) (j : Nat) :
    let stream := leadBytes hasPreface ++ framesWire frames
    let arriving := arrive (isn + 1) stream
    let start := watchedFrom false hasPreface limit isn
    let d := (run arriving start before).1
    let d' := run arriving d after
    let r' := run feedNext (d.restoredFrom, isn + 1 + BitVec.ofNat 32 j) segments
    limit ≤ usizeMax → Guarded arriving (arrivesInWindow (isn + 1) stream) start before →
    Guarded arriving (arrivesInWindow (isn + 1) stream) d after →
    segmentBytes segments = (stream.take d'.1.reasm.deliveredOff).drop j →
    (∀ segment ∈ segments, segment.1 ≠ []) →
    d.isSnapshottable = true → d.discard = 0 → d.expectPreface = false →
    j ≤ d.reasm.offset → d.reasm.offset - j < 2 ^ 31 →
    d'.1.desynced = false → d'.1.resyncs = 0 → d'.1.dec.overLimit = false →
    (∀ pf ∈ r'.2.flatten, d.reasm.offset - j ≤ pf.startOff) ∧
      List.Forall₂ SameButKind (decodedBlocks d'.2.flatten) (decodedBlocks r'.2.flatten) := by
  intro stream arriving start d d' r' hlimit hbefore hafter hsegments hdata hsnapshottable hdiscard
    hpreface hle hnear hsynced hresyncs hwithin
  refine blocks_agree_after_snapshot hlimit rfl hsegments hdata hbefore hafter rfl rfl rfl
    hsnapshottable hdiscard hpreface hle hnear ?_ hwithin
  simp [LostPlace, hsynced, hresyncs]

end

/-- A snapshot between the two frames, shortly before sequence numbers wrap. The segments of the
stream arrive in reverse order, and the restored direction is fed from the sixth byte on. -/
theorem restored_direction_agrees_reference :
    let _ := noHuffman.toHuffmanDecoding
    let isn : Seq := 4294967290
    let arriving := arrive (isn + 1) (leadBytes false ++
      framesWire [insertingFrame, referringFrame])
    let d := (run arriving (watchedFrom false false 4096 isn)
      [.segment 9 9 0, .tick 1, .segment 0 9 2]).1
    let d' := run arriving d [.segment 20 8 3, .segment 18 5 4]
    let r' := run feedNext (d.restoredFrom, isn + 1 + BitVec.ofNat 32 5)
      [(insertingFrame.wire.drop 5 ++ referringFrame.wire.take 3, 5),
        (referringFrame.wire.drop 3, 6)]
    (∀ pf ∈ r'.2.flatten, d.reasm.offset - 5 ≤ pf.startOff) ∧
      List.Forall₂ SameButKind (decodedBlocks d'.2.flatten) (decodedBlocks r'.2.flatten) := by
  intro _ isn arriving d d' r'
  exact restored_direction_agrees false 4096 isn [insertingFrame, referringFrame]
    [.segment 9 9 0, .tick 1, .segment 0 9 2] [.segment 20 8 3, .segment 18 5 4]
    [(insertingFrame.wire.drop 5 ++ referringFrame.wire.take 3, 5), (referringFrame.wire.drop 3, 6)]
    5 (by decide) (by decide +kernel) (by decide +kernel) (by decide +kernel) (by decide +kernel)
    (by decide +kernel) (by decide +kernel) (by decide +kernel) (by decide +kernel)
    (by decide +kernel) (by decide +kernel) (by decide +kernel) (by decide +kernel)

end H2Tap.Direction
