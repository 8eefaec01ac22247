import H2Tap.Conn.Resync
import H2Tap.Rebuild.SideLog

/-!
# A direction next to the log of its side

A direction of the replay seeks the place that a snapshot gave, hunts for a frame boundary, awaits
the preface or reads (`Stage`). `KeepsFrames` says of a segment that the direction goes on reading
from the first frame of its side on, with whole header blocks; then it has written what is due for
all complete frames, or a loss is reported (`stage_feed`).
-/

namespace H2Tap

open Lib

namespace Direction

/-- A loss that is counted when the loop is over: bytes before the snapshot, or a snapshot that does
not fit. -/
def OwnLoss (d : Direction) : Prop := 0 < d.preSnapshotSkipped ∨ d.snapshotMisaligned = true

instance (d : Direction) : Decidable d.OwnLoss := inferInstanceAs (Decidable (_ ∨ _))

/-- Where `try_resync` finds a boundary among the bytes that are kept. -/
def boundaryIn (kept : Bytes) : Option Nat :=
  if kept.length < frameHeaderLen then none
  else
    match scanBoundary kept with
    | some (off, true) => some off
    | _ => none

/-- With a segment that takes the log of the side from `log` to `after`, the direction goes on
reading the frames from the place `first` on, or there are none yet. A SYN brings no new bytes. -/
def KeepsFrames (d : Direction) (first : Int) (log after : SideLog) (seg : TcpSegment) : Prop :=
  (seg.has TcpFlags.syn = true → after.top = log.top) ∧
    match d.pendingStartSeq with
    | some target =>
        after.base ≠ some target ∧ (0 < after.top ∨ after.frames first = []) ∨
          first = 0 ∧ BlocksWhole false (after.frames first)
    | none =>
        if d.desynced then
          match boundaryIn (after.bytesFrom d.reasm.offset) with
          | some off => d.reasm.offset + off = first ∧ BlocksWhole false (after.frames first)
          | none => after.frames first = []
        else if d.expectPreface then
          first = 0 ∧ BlocksWhole false (after.frames first) ∧
            (preface.length ≤ after.top ∨ after.frames first = [])
        else (log.top = 0 → first = 0) ∧ BlocksWhole false (after.frames first)

instance (d : Direction) (first : Int) (log after : SideLog) (seg : TcpSegment) :
    Decidable (d.KeepsFrames first log after seg) := by
  have hnone : Decidable (after.frames first = []) := decidable_of_iff _ List.isEmpty_iff
  unfold KeepsFrames
  refine @instDecidableAnd _ _ inferInstance ?_
  split
  · infer_instance
  · split
    · split <;> infer_instance
    · split <;> infer_instance

/-- Before the first frame is read. -/
structure Unread (d : Direction) : Prop where
  discard : d.discard = 0
  keeps : d.keepPayloads = true
  hasOpen : d.HasOpen none

/-- Where the direction stands in the bytes of its side, and what it has written for the frames from
the place `first` on. -/
inductive Stage [HuffmanDecoding] (first : Int) (log : SideLog) (bytes : Bytes) (d : Direction) :
    List Normalized → Prop where
  | seeking (target : Seq) :
      d.Unread → d.pendingStartSeq = some target → d.desynced = false → d.expectPreface = false →
      bytes = [] → log.opened = false → log.frames first = [] → Stage first log bytes d []
  | hunting :
      d.Unread → d.pendingStartSeq = none → d.desynced = true → d.expectPreface = false →
      log.opened = false → log.frames first = [] → Stage first log bytes d []
  | awaiting :
      d.Unread → d.pendingStartSeq = none → d.desynced = false → d.expectPreface = true →
      log.opened = true → d.reasm.offset = 0 → log.frames first = [] → Stage first log bytes d []
  | waiting :
      d.AtBoundary → d.HasOpen none → bytes = [] → log.opened = false → log.frames first = [] →
      Stage first log bytes d []
  | reading (n : Nat) (frames : List Frame) (out : List Normalized) :
      d.AtBoundary → d.HasOpen (openBlock frames) → first = n → n ≤ bytes.length →
      (log.opened = true → preface.length ≤ (bytes.drop n).length) →
      afterPreface log.opened (bytes.drop n) = framesWire frames ++ d.reasm.available →
      completeFrames d.reasm.available = [] →
      (∀ f ∈ frames, f.hdr.len ≤ maxBufferedFrame) →
      List.Forall₂ Shows (run collect none frames).2.flatten out →
      Stage first log bytes d out

theorem Unread.congr {d d' : Direction} (h : d.Unread) (hdiscard : d'.discard = d.discard)
    (hkeeps : d'.keepPayloads = d.keepPayloads) (hblockHdr : d'.blockHdr = d.blockHdr)
    (hblock : d'.block = d.block) : d'.Unread :=
  ⟨hdiscard.trans h.discard, hkeeps.trans h.keeps, hblockHdr.trans h.hasOpen.blockHdr,
    hblock.trans h.hasOpen.block⟩

theorem AtBoundary.congr {d : Direction} (h : d.AtBoundary) (reasm : Reassembler) :
    ({ d with reasm := reasm } : Direction).AtBoundary :=
  ⟨h.discard, h.pending, h.synced, h.preface, h.keeps⟩

/-- A feed that reports a loss. -/
def FeedShowsLoss (fed : Direction × List ProcessedFrame) : Prop :=
  (∃ pf ∈ fed.2, pf.truncated = true) ∨ 0 < fed.1.decodeErrors ∨ fed.1.OwnLoss

end Direction

open Direction

variable {first : Int} {log after : SideLog} {bytes : Bytes} {d : Direction}

/-- What is buffered are the bytes from the offset on. -/
theorem Received.available {r : Reassembler} (h : Received log bytes r) :
    r.available = bytes.drop r.offset ∧ r.offset ≤ bytes.length := by
  cases hbase : log.base with
  | none =>
      obtain ⟨rfl, rfl⟩ := h.unstarted hbase
      exact ⟨rfl, le_refl _⟩
  | some base =>
      obtain ⟨hinit, hcarries⟩ := h.started base hbase
      have hreceived := hcarries.order.received
      rw [Reassembler.start, if_pos hinit] at hreceived
      refine ⟨?_, hreceived ▸ Nat.le_add_right _ _⟩
      rw [hcarries.bytes, List.take_length]
      rfl

/-- More bytes come after the preface, if it is known how the stream starts. -/
theorem after_preface_append {opened : Bool} {stream : Bytes}
    (hlong : opened = true → preface.length ≤ stream.length) (more : Bytes) :
    afterPreface opened (stream ++ more) = afterPreface opened stream ++ more := by
  cases opened with
  | false => rfl
  | true =>
      have hsame : preface.isPrefixOf (stream ++ more) = preface.isPrefixOf stream := by
        rw [Bool.eq_iff_iff, List.isPrefixOf_iff_prefix, List.isPrefixOf_iff_prefix]
        exact ⟨fun h => List.prefix_of_prefix_length_le h (List.prefix_append _ _) (hlong rfl),
          fun h => h.trans (List.prefix_append _ _)⟩
      rw [afterPreface, afterPreface, hsame, Bool.true_and]
      split
      · rw [List.drop_append_of_le_length (hlong rfl)]
      · rfl

/-- What is due for the side of a direction that reads. -/
theorem frames_of_reading {n : Nat} {frames : List Frame} {rest : Bytes}
    (hreceived : ∀ n : Nat, log.bytesFrom n = bytes.drop n)
    (hbytes : afterPreface log.opened (bytes.drop n) = framesWire frames ++ rest) :
    log.frames n = frames ++ completeFrames rest := by
  rw [SideLog.frames, hreceived, hbytes, complete_frames_append]

namespace Direction

variable [HuffmanDecoding]

/-- A direction at a frame boundary reads on. -/
theorem stage_parse {r : Reassembler} (hreceived : Received log bytes r) (hat : d.AtBoundary)
    {n : Nat} {frames : List Frame} {out : List Normalized} (hopen : d.HasOpen (openBlock frames))
    (hfirst : first = n) (hn : n ≤ bytes.length)
    (hlong : log.opened = true → preface.length ≤ (bytes.drop n).length)
    (hbytes : afterPreface log.opened (bytes.drop n) = framesWire frames ++ d.reasm.available)
    (hsmall : ∀ f ∈ frames, f.hdr.len ≤ maxBufferedFrame)
    (hshown : List.Forall₂ Shows (run collect none frames).2.flatten out)
    (hwhole : BlocksWhole false (log.frames first)) :
    FeedShowsLoss d.parse ∨
      Stage first log bytes d.parse.1 (out ++ d.parse.2.filterMap normalize) := by
  have hframes := frames_of_reading hreceived.bytes_from hbytes
  rw [hfirst, hframes] at hwhole
  have hfront : BlocksWhole (none : Option Fragments).isSome
      (frames ++ completeFrames d.reasm.available) := hwhole
  have hlater : BlocksWhole (openBlock frames).isSome (completeFrames d.reasm.available) :=
    blocks_whole_after hfront hsmall
  rcases parse_shows hat hopen hlater with (htruncated | herror) | hwrites
  · exact Or.inl (Or.inl htruncated)
  · exact Or.inl (Or.inr (Or.inl (lt_of_le_of_lt (Nat.zero_le _) herror)))
  · right
    have hrun : run collect none (frames ++ completeFrames d.reasm.available) =
        ((run collect (openBlock frames) (completeFrames d.reasm.available)).1,
          (run collect none frames).2 ++
            (run collect (openBlock frames) (completeFrames d.reasm.available)).2) :=
      run_append none frames (completeFrames d.reasm.available)
    refine .reading n (frames ++ completeFrames d.reasm.available) _ hwrites.boundary ?_ hfirst hn
      hlong ?_ hwrites.incomplete ?_ ?_
    · rw [openBlock, hrun]
      exact hwrites.hasOpen
    · rw [hbytes, framesWire, framesWire, List.flatMap_append, List.append_assoc]
      conv_lhs => rw [hwrites.bytes]
      rfl
    · exact List.forall_mem_append.mpr ⟨hsmall, hwrites.small⟩
    · rw [hrun, List.flatten_append]
      exact List.rel_append hshown hwrites.shows_due

/-- A direction that gets to the first frame reads on. -/
theorem stage_start {r : Reassembler} (hreceived : Received log bytes r) (hat : d.AtBoundary)
    (hopen : d.HasOpen none) {n : Nat} (hfirst : first = n) (hn : n ≤ bytes.length)
    (hlong : log.opened = true → preface.length ≤ (bytes.drop n).length)
    (hbytes : afterPreface log.opened (bytes.drop n) = d.reasm.available)
    (hwhole : BlocksWhole false (log.frames first)) :
    FeedShowsLoss d.parse ∨ Stage first log bytes d.parse.1 (d.parse.2.filterMap normalize) := by
  have hopen' : d.HasOpen (openBlock []) := hopen
  have hshown : List.Forall₂ Shows (run collect none []).2.flatten ([] : List Normalized) := .nil
  exact stage_parse hreceived hat hopen' hfirst hn hlong hbytes
    (fun _ hf => absurd hf List.not_mem_nil) hshown hwhole

/-! ## Losses that are counted in the end -/

omit [HuffmanDecoding] in
theorem own_loss_reasm (h : d.OwnLoss) (reasm : Reassembler) :
    ({ d with reasm := reasm } : Direction).OwnLoss := h

/-- No turn forgets them. -/
theorem own_loss_parse_step (h : d.OwnLoss) : d.parseStep.next.OwnLoss := by
  unfold parseStep
  split
  · simp only [discardStep]
    split <;> exact h
  · split
    · simp only [seekStep]
      split
      · split
        · exact h
        · exact h.imp_left (Nat.lt_add_right _)
      · split
        · exact Or.inr rfl
        · exact h
    · split
      · rw [resync_step_eq]
        split
        · exact h
        · split
          · exact h
          · exact h
          · split
            · exact own_loss_reasm h _
            · exact h
      · split
        · simp only [prefaceStep]
          split
          · exact h
          · split <;> exact h
        · unfold frameStep
          split
          · exact h
          · split
            · split
              · exact h
              · next hdr _ _ _ =>
                  have hsame := same_position_handle_frame { d with
                      reasm := d.reasm.consume (frameHeaderLen + hdr.len)
                      frames := d.frames + 1 } hdr
                    ((d.reasm.available.drop frameHeaderLen).take hdr.len) d.reasm.offset
                    d.reasm.nextUnparsedSeq
                  show (d.takeFrame hdr).1.OwnLoss
                  exact h.imp (fun hskipped => hsame.preSnapshotSkipped.symm ▸ hskipped)
                    fun hmisaligned => hsame.snapshotMisaligned.trans hmisaligned
            · exact h

/-- Nor does the loop. -/
theorem own_loss_parse (h : d.OwnLoss) : d.parse.1.OwnLoss :=
  parse_keeps (fun _ => own_loss_parse_step) h

theorem own_loss_feed (h : d.OwnLoss) (seq : Seq) (data : Bytes) (nowUs : Nat) :
    (d.feed seq data nowUs).1.OwnLoss := by
  refine own_loss_parse ?_
  unfold withReassembled
  split <;> exact h

/-- A turn that leaves a mode is followed by the rest of the loop. -/
theorem parse_of_more_none {d' : Direction} (h : d.parseStep = .more d' none) :
    d.parse = d'.parse := by
  rw [parse_of_more h]
  rfl

/-! ## A segment -/

variable {r : Reassembler} {seg : TcpSegment} {more : Bytes}

theorem parse_step_seeking (hdiscard : d.discard = 0) {target : Seq}
    (hpending : d.pendingStartSeq = some target) (r : Reassembler) :
    ({ d with reasm := r } : Direction).parseStep =
      ({ d with reasm := r } : Direction).seekStep target := by
  rw [parseStep, hdiscard, if_neg (lt_irrefl 0), hpending]

/-- Bytes before the place that is sought are counted, and so is a place that the bytes have left
behind. -/
theorem loss_of_seek (hdiscard : d.discard = 0) {target : Seq}
    (hpending : d.pendingStartSeq = some target)
    (hmiss : seqDelta target r.nextUnparsedSeq < 0 ∨
      0 < seqDelta target r.nextUnparsedSeq ∧ r.available ≠ []) :
    FeedShowsLoss { d with reasm := r }.parse := by
  have hturn := parse_step_seeking hdiscard hpending r
  rw [seekStep] at hturn
  dsimp only at hturn
  rcases hmiss with hbefore | ⟨hafter, hne⟩
  · rw [if_neg (by omega), if_pos hbefore] at hturn
    rw [parse_of_more_none hturn]
    exact Or.inr (Or.inr (own_loss_parse (Or.inr rfl)))
  · have hpos := List.length_pos_iff.mpr hne
    rw [if_pos hafter, if_neg (by omega)] at hturn
    rw [parse_of_more_none hturn]
    refine Or.inr (Or.inr (own_loss_parse (Or.inl ?_)))
    show 0 < d.preSnapshotSkipped + _
    omega

/-- At the place that is sought the direction reads on, if the first frame starts there. -/
theorem stage_at_target (hreceived : Received after bytes r) (hunread : d.Unread) {target : Seq}
    (hpending : d.pendingStartSeq = some target) (hsynced : d.desynced = false)
    (hpreface : d.expectPreface = false) (hopened : after.opened = false)
    (havailable : r.available = bytes) (hat : seqDelta target r.nextUnparsedSeq = 0)
    (hfirst : first = 0) (hwhole : BlocksWhole false (after.frames first)) :
    FeedShowsLoss { d with reasm := r }.parse ∨
      Stage first after bytes { d with reasm := r }.parse.1
        ({ d with reasm := r }.parse.2.filterMap normalize) := by
  have hturn : ({ d with reasm := r } : Direction).parseStep =
      .more { d with reasm := r, pendingStartSeq := none } none := by
    rw [parse_step_seeking hunread.discard hpending, seekStep]
    dsimp only
    rw [hat, if_neg (lt_irrefl 0), if_neg (lt_irrefl 0)]
  rw [parse_of_more_none hturn]
  have hat' : ({ d with reasm := r, pendingStartSeq := none } : Direction).AtBoundary :=
    ⟨hunread.discard, rfl, hsynced, hpreface, hunread.keeps⟩
  refine stage_start (n := 0) hreceived hat' ⟨hunread.hasOpen.blockHdr, hunread.hasOpen.block⟩
    hfirst (Nat.zero_le _) (fun hclient => by rw [hopened] at hclient; cases hclient) ?_ hwhole
  rw [hopened, List.drop_zero]
  exact havailable.symm

/-- The direction seeks the place that the snapshot gave. -/
theorem stage_seeking (hreceived : Received after bytes r) (hbase : after.base.isSome = true)
    (hunread : d.Unread) {target : Seq} (hpending : d.pendingStartSeq = some target)
    (hsynced : d.desynced = false) (hpreface : d.expectPreface = false)
    (hoffset : r.offset = 0) (hopened : after.opened = false)
    (hkeeps : after.base ≠ some target ∧ (0 < after.top ∨ after.frames first = []) ∨
      first = 0 ∧ BlocksWhole false (after.frames first)) :
    FeedShowsLoss { d with reasm := r }.parse ∨
      Stage first after bytes { d with reasm := r }.parse.1
        ({ d with reasm := r }.parse.2.filterMap normalize) := by
  obtain ⟨base, hsome⟩ := Option.isSome_iff_exists.mp hbase
  obtain ⟨hinit, hcarries⟩ := hreceived.started base hsome
  have havailable : r.available = bytes := by
    rw [hreceived.available.1, hoffset, List.drop_zero]
  have hnext : r.nextUnparsedSeq = base := by
    have horder := hcarries.order.baseSeq
    rw [Reassembler.start, if_pos hinit] at horder
    rw [Reassembler.nextUnparsedSeq, Reassembler.seqAt, horder]
    have hpos : r.bufOff = 0 := hoffset
    rw [hpos]
    simp
  rcases lt_trichotomy (seqDelta target r.nextUnparsedSeq) 0 with hbefore | hat | hafter
  · -- the stream starts after the place of the snapshot, which does not fit then
    exact Or.inl (loss_of_seek hunread.discard hpending (Or.inl hbefore))
  · -- it starts there
    rcases hkeeps with ⟨hne, -⟩ | ⟨hfirst, hwhole⟩
    · have hsub : target - base = 0 := BitVec.eq_of_toInt_eq ((hnext ▸ hat).trans rfl)
      have heq : base = target := by bv_omega
      exact absurd (hsome.trans (congrArg some heq)) hne
    · exact stage_at_target hreceived hunread hpending hsynced hpreface hopened havailable hat
        hfirst hwhole
  · by_cases hnone : bytes = []
    · -- nothing has come yet
      have hturn : ({ d with reasm := r } : Direction).parseStep = .stop { d with reasm := r } := by
        rw [parse_step_seeking hunread.discard hpending, seekStep]
        dsimp only
        rw [if_pos hafter, havailable, hnone, if_pos (by simp)]
      rw [parse_of_stop hturn]
      refine Or.inr (.seeking target (hunread.congr rfl rfl rfl rfl) hpending hsynced hpreface hnone
        hopened ?_)
      rcases hkeeps with ⟨-, hpos | hdue⟩ | ⟨hfirst, -⟩
      · rw [hreceived.top, hnone] at hpos
        exact absurd hpos (lt_irrefl 0)
      · exact hdue
      · have hbytes : after.bytesFrom (0 : Nat) = [] := by
          rw [hreceived.bytes_from, hnone, List.drop_nil]
        show completeFrames (afterPreface after.opened (after.bytesFrom first)) = []
        rw [hfirst, ← Nat.cast_zero, hbytes, hopened]
        exact complete_frames_of_short fun hdr hparse => by cases hparse
    · -- the bytes before it are skipped, and counted
      exact Or.inl (loss_of_seek hunread.discard hpending
        (Or.inr ⟨hafter, by rwa [havailable]⟩))

omit [HuffmanDecoding] in
/-- The search ends at the boundary that is found. -/
theorem resync_step_of_boundary {off : Nat} (h : boundaryIn d.reasm.available = some off) :
    d.resyncStep = .more { d with
        reasm := d.reasm.consume off
        desynced := false
        resyncs := d.resyncs + 1 } none ∧
      off ≤ d.reasm.available.length := by
  unfold boundaryIn at h
  split at h
  · cases h
  · next hlong =>
      split at h
      · next found hscan =>
          obtain rfl := Option.some.inj h
          obtain ⟨hoff, -, -⟩ := scan_boundary_some hscan
          rw [resync_step_eq, if_neg hlong, hscan]
          exact ⟨rfl, by omega⟩
      · cases h

omit [HuffmanDecoding] in
/-- Without one the direction waits, and keeps at least what is looked at again. -/
theorem resync_step_of_none (h : boundaryIn d.reasm.available = none) :
    ∃ reasm, d.resyncStep = .stop { d with reasm := reasm } := by
  unfold boundaryIn at h
  rw [resync_step_eq]
  split
  · exact ⟨d.reasm, rfl⟩
  · next hlong =>
      rw [if_neg hlong] at h
      split
      · next off hscan =>
          rw [hscan] at h
          cases h
      · exact ⟨d.reasm, rfl⟩
      · split
        · exact ⟨_, rfl⟩
        · exact ⟨d.reasm, rfl⟩

/-- The direction hunts for a frame boundary. The first frame has to be where it finds one, and no
frame may be complete as long as it finds none. -/
theorem stage_hunting (hreceived : Received after bytes r) (hunread : d.Unread)
    (hpending : d.pendingStartSeq = none) (hdesynced : d.desynced = true)
    (hpreface : d.expectPreface = false) (hopened : after.opened = false)
    (hkeeps : match boundaryIn (after.bytesFrom r.offset) with
      | some off => (r.offset : Int) + off = first ∧ BlocksWhole false (after.frames first)
      | none => after.frames first = []) :
    FeedShowsLoss { d with reasm := r }.parse ∨
      Stage first after bytes { d with reasm := r }.parse.1
        ({ d with reasm := r }.parse.2.filterMap normalize) := by
  obtain ⟨havailable, hle⟩ := hreceived.available
  have hstep : ({ d with reasm := r } : Direction).parseStep =
      ({ d with reasm := r } : Direction).resyncStep := by
    rw [parseStep, hunread.discard, if_neg (lt_irrefl 0), hpending, hdesynced]
    rfl
  rw [hreceived.bytes_from, ← havailable] at hkeeps
  cases hboundary : boundaryIn r.available with
  | none =>
      rw [hboundary] at hkeeps
      obtain ⟨reasm, hstop⟩ :=
        resync_step_of_none (d := { d with reasm := r }) hboundary
      rw [parse_of_stop (hstep.trans hstop)]
      exact Or.inr (.hunting (hunread.congr rfl rfl rfl rfl) hpending hdesynced hpreface hopened
        hkeeps)
  | some off =>
      rw [hboundary] at hkeeps
      obtain ⟨hfirst, hwhole⟩ := hkeeps
      obtain ⟨hmore, hoff⟩ := resync_step_of_boundary (d := { d with reasm := r }) hboundary
      have hlength : r.available.length = bytes.length - r.offset := by
        rw [havailable, List.length_drop]
      have hoff : off ≤ r.available.length := hoff
      rw [parse_of_more_none (hstep.trans hmore)]
      have hat : ({ d with
          reasm := r.consume off
          desynced := false
          resyncs := d.resyncs + 1 } : Direction).AtBoundary :=
        ⟨hunread.discard, hpending, rfl, hpreface, hunread.keeps⟩
      refine stage_start (n := r.offset + off) hreceived hat
        ⟨hunread.hasOpen.blockHdr, hunread.hasOpen.block⟩ hfirst.symm (by omega)
        (fun hclient => by rw [hopened] at hclient; cases hclient) ?_ hwhole
      show afterPreface after.opened _ = (r.consume off).available
      rw [hopened, Reassembler.available_consume, havailable, List.drop_drop]
      rfl

/-- The direction awaits the preface. -/
theorem stage_awaiting (hreceived : Received after bytes r) (hunread : d.Unread)
    (hpending : d.pendingStartSeq = none) (hsynced : d.desynced = false)
    (hpreface : d.expectPreface = true) (hopened : after.opened = true) (hoffset : r.offset = 0)
    (hfirst : first = 0) (hwhole : BlocksWhole false (after.frames first))
    (hlong : preface.length ≤ after.top ∨ after.frames first = []) :
    FeedShowsLoss { d with reasm := r }.parse ∨
      Stage first after bytes { d with reasm := r }.parse.1
        ({ d with reasm := r }.parse.2.filterMap normalize) := by
  have havailable : r.available = bytes := by
    rw [hreceived.available.1, hoffset, List.drop_zero]
  have hturn : ({ d with reasm := r } : Direction).parseStep =
      ({ d with reasm := r } : Direction).prefaceStep := by
    rw [parseStep, hunread.discard, if_neg (lt_irrefl 0), hpending, hsynced, hpreface]
    rfl
  rw [prefaceStep] at hturn
  dsimp only at hturn
  rw [havailable] at hturn
  by_cases hshort : bytes.length < preface.length
  · rw [if_pos hshort] at hturn
    have hdue := hlong.resolve_left (by rw [hreceived.top]; exact not_le.mpr hshort)
    rw [parse_of_stop hturn]
    exact Or.inr (.awaiting (hunread.congr rfl rfl rfl rfl) hpending hsynced hpreface hopened
      hoffset hdue)
  · have hlarge : after.opened = true → preface.length ≤ (bytes.drop 0).length :=
      fun _ => not_lt.mp hshort
    rw [if_neg hshort] at hturn
    -- with the preface or without it, the frames come next
    split at hturn
    · next hstarts =>
        rw [parse_of_more_none hturn]
        have hat : ({ d with
            expectPreface := false
            reasm := r.consume preface.length } : Direction).AtBoundary :=
          ⟨hunread.discard, hpending, hsynced, rfl, hunread.keeps⟩
        refine stage_start (n := 0) hreceived hat ⟨hunread.hasOpen.blockHdr, hunread.hasOpen.block⟩
          hfirst (Nat.zero_le _) hlarge ?_ hwhole
        show _ = (r.consume preface.length).available
        rw [hopened, List.drop_zero, afterPreface, hstarts, Reassembler.available_consume,
          havailable]
        rfl
    · next hother =>
        rw [parse_of_more_none hturn]
        have hat : ({ d with reasm := r, expectPreface := false } : Direction).AtBoundary :=
          ⟨hunread.discard, hpending, hsynced, rfl, hunread.keeps⟩
        refine stage_start (n := 0) hreceived hat ⟨hunread.hasOpen.blockHdr, hunread.hasOpen.block⟩
          hfirst (Nat.zero_le _) hlarge ?_ hwhole
        show _ = r.available
        rw [hopened, List.drop_zero, afterPreface, Bool.true_and, if_neg hother, havailable]

/-- What a segment does to a direction next to the log of its side: it reads on and writes what is
due, or reports a loss. -/
theorem stage_feed {out : List Normalized} (h : Stage first log bytes d out)
    (hbefore : Received log bytes d.reasm) (hreceived : Received after (bytes ++ more) r)
    (hmore : r.available = d.reasm.available ++ more) (hoffset : r.offset = d.reasm.offset)
    (hbase : after.base.isSome = true) (hopened : after.opened = log.opened)
    (hkeeps : d.KeepsFrames first log after seg) :
    FeedShowsLoss { d with reasm := r }.parse ∨
      Stage first after (bytes ++ more) { d with reasm := r }.parse.1
        (out ++ { d with reasm := r }.parse.2.filterMap normalize) := by
  obtain ⟨-, hkeeps⟩ := hkeeps
  cases h with
  | seeking target hunread hpending hsynced hpreface hnone hclosed hdue =>
      subst hnone
      have hzero : r.offset = 0 := by
        rw [hoffset]
        exact Nat.le_zero.mp hbefore.available.2
      rw [hpending] at hkeeps
      exact stage_seeking hreceived hbase hunread hpending hsynced hpreface hzero
        (hopened.trans hclosed) hkeeps
  | hunting hunread hpending hdesynced hpreface hclosed hdue =>
      rw [hpending, hdesynced, ← hoffset] at hkeeps
      exact stage_hunting hreceived hunread hpending hdesynced hpreface (hopened.trans hclosed)
        hkeeps
  | awaiting hunread hpending hsynced hpreface hclient hstart hdue =>
      rw [hpending, hsynced, hpreface] at hkeeps
      obtain ⟨hfirst, hwhole, hlong⟩ := hkeeps
      exact stage_awaiting hreceived hunread hpending hsynced hpreface (hopened.trans hclient)
        (hoffset.trans hstart) hfirst hwhole hlong
  | waiting hat hopen hnone hclosed hdue =>
      subst hnone
      rw [hat.pending, hat.synced, hat.preface] at hkeeps
      obtain ⟨hfirst, hwhole⟩ := hkeeps
      have hnothing : d.reasm.available = [] := by rw [hbefore.available.1, List.drop_nil]
      refine stage_start (n := 0) hreceived (hat.congr r) ⟨hopen.blockHdr, hopen.block⟩
        (hfirst hbefore.top) (Nat.zero_le _)
        (fun hclient => by rw [hopened, hclosed] at hclient; cases hclient) ?_ hwhole
      show _ = r.available
      rw [hopened, hclosed, hmore, hnothing]
      rfl
  | reading n frames out hat hopen hfirst hn hlong hbytes hdone hsmall hshown =>
      rw [hat.pending, hat.synced, hat.preface] at hkeeps
      have hdrop : (bytes ++ more).drop n = bytes.drop n ++ more :=
        List.drop_append_of_le_length hn
      have hopen' : ({ d with reasm := r } : Direction).HasOpen (openBlock frames) :=
        ⟨hopen.blockHdr, hopen.block⟩
      refine stage_parse (n := n) hreceived (hat.congr r) hopen' hfirst
        (by rw [List.length_append]; omega) (fun hclient => ?_) ?_ hsmall hshown hkeeps.2
      · rw [hdrop, List.length_append]
        exact Nat.le_add_right_of_le (hlong (hopened.symm.trans hclient))
      · show _ = framesWire frames ++ r.available
        rw [hdrop, hopened, after_preface_append hlong, hbytes, hmore, List.append_assoc]

end Direction

end H2Tap
