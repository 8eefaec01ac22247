import H2Tap.Lib.Run
import H2Tap.Conn.ParseLoop

/-!
# Keeping payloads does not change what is decoded

The daemon drops the payloads of the frames it does not look into as they arrive, the rebuilder
waits for whole frames. `Tandem` relates a direction that drops to one that keeps: they stand at the
same place (`Level`), or the first has stepped over a frame header and is dropping the payload of a
frame that the second is still buffering (`Ahead`). `tandem_parse` is the simulation;
`keep_payloads_decodes_identically` is the result over all histories.
-/

namespace H2Tap.Direction

open Lib

/-- The same unconsumed bytes, and the same held segments. -/
structure SameStream (a b : Reassembler) : Prop where
  outside_eq : a.outside = b.outside
  available_eq : a.available = b.available
  bufOff_eq : a.bufOff = b.bufOff

theorem SameStream.consume {a b : Reassembler} (h : SameStream a b) (n : Nat) :
    SameStream (a.consume n) (b.consume n) := by
  refine ⟨?_, ?_, ?_⟩
  · simp only [Reassembler.outside_consume, h.outside_eq]
  · simp only [Reassembler.available_consume, h.available_eq]
  · simp only [Reassembler.bufOff_consume, h.available_eq, h.bufOff_eq]

theorem SameStream.next_unparsed_seq {a b : Reassembler} (h : SameStream a b) :
    a.nextUnparsedSeq = b.nextUnparsedSeq := by
  have hbase := (Reassembler.reads_of_outside_eq h.outside_eq).2.1
  simp only [Reassembler.nextUnparsedSeq, Reassembler.seqAt, hbase, h.bufOff_eq]

/-- Two directions that differ only in what they keep of payloads, at the same place. -/
def Level (a b : Direction) : Prop :=
  ∃ frames reasm, b = a.relocated true frames reasm a.discard ∧ SameStream a.reasm reasm

/-- `a` has consumed `seen`, the start of a frame of no interest, which `b` still buffers. -/
structure SteppedInto (a : Direction) (reasm : Reassembler) (seen : Bytes) (hdr : FrameHeader) :
    Prop where
  outside_eq : a.reasm.outside = reasm.outside
  header : FrameHeader.parse seen = some hdr
  available_eq : reasm.available = seen ++ a.reasm.available
  bufOff_eq : a.reasm.bufOff = reasm.bufOff + seen.length
  remaining : seen.length + a.discard = frameHeaderLen + hdr.len
  dropping : 0 < a.discard
  other : hdr.isHeaderFrame = false
  not_settings : hdr.typ ≠ FrameType.settings
  small : hdr.len ≤ maxBufferedFrame
  at_frame : a.pendingStartSeq = none ∧ a.desynced = false ∧ a.expectPreface = false

/-- The direction that drops is inside a payload that the other still buffers. -/
def Ahead (a b : Direction) : Prop :=
  ∃ frames reasm seen hdr, b = a.relocated true frames reasm 0 ∧ SteppedInto a reasm seen hdr

/-- A direction that drops payloads and one that keeps them, fed the same. -/
def Tandem (a b : Direction) : Prop := a.keepPayloads = false ∧ (Level a b ∨ Ahead a b)

/-- Two calls return the same blocks and table sizes. -/
def SameOutput (f g : List ProcessedFrame) : Prop :=
  decodedBlocks f = decodedBlocks g ∧ settingsSizes f = settingsSizes g

theorem same_output_refl (f : List ProcessedFrame) : SameOutput f f := ⟨rfl, rfl⟩

theorem SameOutput.append {f f' g g' : List ProcessedFrame} (h : SameOutput f g)
    (h' : SameOutput f' g') : SameOutput (f ++ f') (g ++ g') := by
  simp only [SameOutput, decodedBlocks, settingsSizes, List.filterMap_append] at *
  rw [h.1, h.2, h'.1, h'.2]
  exact ⟨rfl, rfl⟩

/-! ## One frame -/

section

variable [HuffmanDecoding]

/-- A frame that carries no header block and is not SETTINGS leaves the direction as it is and
returns nothing. -/
theorem handle_other_frame {hdr : FrameHeader} (hother : hdr.isHeaderFrame = false)
    (hsettings : hdr.typ ≠ FrameType.settings) (d : Direction) (payload : Bytes) (startOff : Nat)
    (startSeq : Seq) :
    (d.handleFrame hdr payload startOff startSeq).1 = d ∧
      (d.handleFrame hdr payload startOff startSeq).2.decoded = none ∧
      (d.handleFrame hdr payload startOff startSeq).2.settingsTableSize = none := by
  simp only [FrameHeader.isHeaderFrame, Bool.or_eq_false_iff, beq_eq_false_iff_ne] at hother
  obtain ⟨⟨hheaders, hcontinuation⟩, hpush⟩ := hother
  simp [handleFrame, hsettings, hheaders, hcontinuation, hpush]

theorem take_other_frame {hdr : FrameHeader} (hother : hdr.isHeaderFrame = false)
    (hsettings : hdr.typ ≠ FrameType.settings) (d : Direction) :
    (d.takeFrame hdr).1 = d.relocated d.keepPayloads (d.frames + 1)
        (d.reasm.consume (frameHeaderLen + hdr.len)) d.discard ∧
      (d.takeFrame hdr).2.decoded = none ∧ (d.takeFrame hdr).2.settingsTableSize = none := by
  rw [take_frame_eq]
  obtain ⟨hstate, hnothing⟩ := handle_other_frame hother hsettings d
    ((d.reasm.available.drop frameHeaderLen).take hdr.len) d.reasm.offset d.reasm.nextUnparsedSeq
  exact ⟨by simp only [hstate], hnothing⟩

/-- The direction that keeps handles the frame as the other does, at its own place. -/
theorem take_frame_level (a : Direction) (frames : Nat) {r : Reassembler}
    (hsame : SameStream a.reasm r) (hdr : FrameHeader) :
    (a.relocated true frames r a.discard).takeFrame hdr =
      ((a.takeFrame hdr).1.relocated true (frames + 1)
        (r.consume (frameHeaderLen + hdr.len)) a.discard, (a.takeFrame hdr).2) := by
  have hbytes : (a.relocated true frames r a.discard).reasm.available = a.reasm.available :=
    hsame.available_eq.symm
  have hseq : (a.relocated true frames r a.discard).reasm.nextUnparsedSeq =
      a.reasm.nextUnparsedSeq := hsame.next_unparsed_seq.symm
  have hoff : (a.relocated true frames r a.discard).reasm.offset = a.reasm.offset :=
    hsame.bufOff_eq.symm
  simp only [take_frame_eq, hbytes, hseq, hoff, handle_frame_relocated]
  rfl

/-! ## One turn and the whole loop -/

/-- A turn of the direction that drops, matched by the other: both stop, both go on, or only the
first goes on, without output. -/
inductive TurnsMatch (a b : Direction) : Prop where
  | bothStop (a' b' : Direction) (ha : a.parseStep = .stop a') (hb : b.parseStep = .stop b')
      (h : Tandem a' b')
  | bothMore (a' b' : Direction) (f g : Option ProcessedFrame) (ha : a.parseStep = .more a' f)
      (hb : b.parseStep = .more b' g) (h : Tandem a' b') (hout : SameOutput f.toList g.toList)
  | leftMore (a' : Direction) (f : Option ProcessedFrame) (ha : a.parseStep = .more a' f)
      (h : Tandem a' b) (hout : SameOutput f.toList [])

/-- What two steps return, if both stop or both go on. -/
inductive SameProgress : Progress → Progress → Prop where
  | stop {a b : Direction} (h : Tandem a b) : SameProgress (.stop a) (.stop b)
  | more {a b : Direction} {f g : Option ProcessedFrame} (h : Tandem a b)
      (hout : SameOutput f.toList g.toList) : SameProgress (.more a f) (.more b g)

theorem TurnsMatch.of_same_progress {a b : Direction}
    (h : SameProgress a.parseStep b.parseStep) : TurnsMatch a b := by
  generalize ha : a.parseStep = p at h
  generalize hb : b.parseStep = q at h
  cases h with
  | stop h => exact .bothStop _ _ ha hb h
  | more h hout => exact .bothMore _ _ _ _ ha hb h hout

/-! ### At the same place -/

section

variable {a : Direction} {r : Reassembler}

omit [HuffmanDecoding] in
theorem tandem_level (hkeep : a.keepPayloads = false) (hsame : SameStream a.reasm r)
    (frames : Nat) : Tandem a (a.relocated true frames r a.discard) :=
  ⟨hkeep, Or.inl ⟨frames, r, rfl, hsame⟩⟩

omit [HuffmanDecoding] in
theorem same_progress_discard (hkeep : a.keepPayloads = false) (hsame : SameStream a.reasm r)
    (frames : Nat) :
    SameProgress a.discardStep (a.relocated true frames r a.discard).discardStep := by
  have hbytes : (a.relocated true frames r a.discard).reasm.available = a.reasm.available :=
    hsame.available_eq.symm
  have hdiscard : (a.relocated true frames r a.discard).discard = a.discard := rfl
  simp only [discardStep, hbytes, hdiscard]
  by_cases hn : min a.discard a.reasm.available.length = 0
  · rw [if_pos hn, if_pos hn]
    exact .stop (tandem_level hkeep hsame frames)
  · rw [if_neg hn, if_neg hn]
    exact .more ⟨hkeep, Or.inl ⟨frames, _, rfl, hsame.consume _⟩⟩ (same_output_refl [])

omit [HuffmanDecoding] in
theorem same_progress_seek (hkeep : a.keepPayloads = false) (hsame : SameStream a.reasm r)
    (frames : Nat) (target : Seq) :
    SameProgress (a.seekStep target) ((a.relocated true frames r a.discard).seekStep target) := by
  have hbytes : (a.relocated true frames r a.discard).reasm.available = a.reasm.available :=
    hsame.available_eq.symm
  have hseq : (a.relocated true frames r a.discard).reasm.nextUnparsedSeq =
      a.reasm.nextUnparsedSeq := hsame.next_unparsed_seq.symm
  simp only [seekStep, hbytes, hseq]
  by_cases hahead : seqDelta target a.reasm.nextUnparsedSeq > 0
  · rw [if_pos hahead, if_pos hahead]
    by_cases hn : min (seqDelta target a.reasm.nextUnparsedSeq).toNat
        a.reasm.available.length = 0
    · rw [if_pos hn, if_pos hn]
      exact .stop (tandem_level hkeep hsame frames)
    · rw [if_neg hn, if_neg hn]
      exact .more ⟨hkeep, Or.inl ⟨frames, _, rfl, hsame.consume _⟩⟩ (same_output_refl [])
  · rw [if_neg hahead, if_neg hahead]
    by_cases hbehind : seqDelta target a.reasm.nextUnparsedSeq < 0
    · rw [if_pos hbehind, if_pos hbehind]
      exact .more ⟨hkeep, Or.inl ⟨frames, r, rfl, hsame⟩⟩ (same_output_refl [])
    · rw [if_neg hbehind, if_neg hbehind]
      exact .more ⟨hkeep, Or.inl ⟨frames, r, rfl, hsame⟩⟩ (same_output_refl [])

omit [HuffmanDecoding] in
theorem same_progress_resync (hkeep : a.keepPayloads = false) (hsame : SameStream a.reasm r)
    (frames : Nat) :
    SameProgress a.resyncStep (a.relocated true frames r a.discard).resyncStep := by
  have hbytes : (a.relocated true frames r a.discard).reasm.available = a.reasm.available :=
    hsame.available_eq.symm
  have hwaits : SameProgress (.stop a) (.stop (a.relocated true frames r a.discard)) :=
    .stop (tandem_level hkeep hsame frames)
  rw [resync_step_eq, resync_step_eq, hbytes]
  by_cases hshort : a.reasm.available.length < frameHeaderLen
  · rw [if_pos hshort, if_pos hshort]
    exact hwaits
  · rw [if_neg hshort, if_neg hshort]
    cases hscan : scanBoundary a.reasm.available with
    | some found =>
        obtain ⟨off, _ | _⟩ := found
        · exact hwaits
        · exact .more ⟨hkeep, Or.inl ⟨frames, _, rfl, hsame.consume _⟩⟩ (same_output_refl [])
    | none =>
        -- both drop the same bytes from the front of the window
        by_cases hlarge : a.reasm.available.length > resyncWindow
        · simp only [if_pos hlarge]
          generalize a.reasm.available.length - resyncWindow = n
          exact .stop ⟨hkeep, Or.inl ⟨frames, _, rfl, hsame.consume n⟩⟩
        · simp only [if_neg hlarge]
          exact hwaits

omit [HuffmanDecoding] in
theorem same_progress_preface (hkeep : a.keepPayloads = false) (hsame : SameStream a.reasm r)
    (frames : Nat) :
    SameProgress a.prefaceStep (a.relocated true frames r a.discard).prefaceStep := by
  have hbytes : (a.relocated true frames r a.discard).reasm.available = a.reasm.available :=
    hsame.available_eq.symm
  simp only [prefaceStep, hbytes]
  by_cases hshort : a.reasm.available.length < preface.length
  · rw [if_pos hshort, if_pos hshort]
    exact .stop (tandem_level hkeep hsame frames)
  · rw [if_neg hshort, if_neg hshort]
    by_cases hmatched : preface.isPrefixOf a.reasm.available = true
    · rw [if_pos hmatched, if_pos hmatched]
      exact .more ⟨hkeep, Or.inl ⟨frames, _, rfl, hsame.consume _⟩⟩ (same_output_refl [])
    · rw [if_neg hmatched, if_neg hmatched]
      exact .more ⟨hkeep, Or.inl ⟨frames, r, rfl, hsame⟩⟩ (same_output_refl [])

theorem same_progress_frame_none (hkeep : a.keepPayloads = false)
    (hsame : SameStream a.reasm r) (frames : Nat)
    (hparse : FrameHeader.parse a.reasm.available = none) :
    SameProgress a.frameStep (a.relocated true frames r a.discard).frameStep := by
  have hbytes : (a.relocated true frames r a.discard).reasm.available = a.reasm.available :=
    hsame.available_eq.symm
  rw [frameStep, frameStep, hbytes, hparse]
  exact .stop (tandem_level hkeep hsame frames)

/-- A frame that both want or that neither wants. -/
theorem same_progress_frame (hkeep : a.keepPayloads = false) (hsame : SameStream a.reasm r)
    (frames : Nat) {hdr : FrameHeader} (hparse : FrameHeader.parse a.reasm.available = some hdr)
    (hwant : (a.relocated true frames r a.discard).wantPayload hdr = a.wantPayload hdr) :
    SameProgress a.frameStep (a.relocated true frames r a.discard).frameStep := by
  have hbytes : (a.relocated true frames r a.discard).reasm.available = a.reasm.available :=
    hsame.available_eq.symm
  rw [frameStep, frameStep, hbytes, hparse]
  simp only [hwant]
  by_cases hwanted : a.wantPayload hdr = true
  · rw [if_pos hwanted, if_pos hwanted]
    by_cases hshort : a.reasm.available.length < frameHeaderLen + hdr.len
    · rw [if_pos hshort, if_pos hshort]
      exact .stop (tandem_level hkeep hsame frames)
    · rw [if_neg hshort, if_neg hshort, take_frame_level a frames hsame, take_frame_eq]
      exact .more ⟨hkeep, Or.inl ⟨frames + 1, _, rfl, hsame.consume _⟩⟩ (same_output_refl _)
  · rw [if_neg hwanted, if_neg hwanted]
    refine .more ⟨hkeep, Or.inl ⟨frames + 1, _, rfl, hsame.consume _⟩⟩ ?_
    simp [SameOutput, decodedBlocks, settingsSizes, skipFrame]

omit [HuffmanDecoding] in
/-- The direction that drops has stepped over the header of a frame with a payload. -/
theorem stepped_into_of_skip (hsame : SameStream a.reasm r) {hdr : FrameHeader}
    (hparse : FrameHeader.parse a.reasm.available = some hdr) (hlen : 0 < hdr.len)
    (hsmall : hdr.len ≤ maxBufferedFrame)
    (hother : hdr.isHeaderFrame = false ∧ hdr.typ ≠ FrameType.settings)
    (hat : a.pendingStartSeq = none ∧ a.desynced = false ∧ a.expectPreface = false) :
    SteppedInto (a.skipFrame hdr).1 r (a.reasm.available.take frameHeaderLen) hdr := by
  have hlength := FrameHeader.length_of_parse hparse
  have hseen : (a.reasm.available.take frameHeaderLen).length = frameHeaderLen := by
    rw [List.length_take, min_eq_left hlength]
  exact {
    outside_eq := by simp only [skipFrame, Reassembler.outside_consume, hsame.outside_eq]
    header := by
      obtain ⟨hdr', hparse'⟩ := Option.isSome_iff_exists.mp
        ((FrameHeader.parse_isSome_iff _).mpr hseen.ge)
      have happend := FrameHeader.parse_append hparse' (a.reasm.available.drop frameHeaderLen)
      rw [List.take_append_drop, hparse] at happend
      rw [hparse', ← happend]
    available_eq := by
      simp only [skipFrame, Reassembler.available_consume, List.take_append_drop,
        hsame.available_eq]
    bufOff_eq := by
      simp only [skipFrame, Reassembler.bufOff_consume, hseen, hsame.bufOff_eq,
        min_eq_left hlength]
    remaining := by simp only [skipFrame, hseen]
    dropping := hlen
    other := hother.1
    not_settings := hother.2
    small := hsmall
    at_frame := hat }

/-- A frame that only the direction that keeps wants: the other one steps over its header, and so
over the whole frame if it is empty. -/
theorem turns_match_unwanted (hkeep : a.keepPayloads = false) (hsame : SameStream a.reasm r)
    (frames : Nat) (hdiscard : a.discard = 0)
    (hat : a.pendingStartSeq = none ∧ a.desynced = false ∧ a.expectPreface = false)
    (ha : a.parseStep = a.frameStep)
    (hb : (a.relocated true frames r a.discard).parseStep =
      (a.relocated true frames r a.discard).frameStep)
    {hdr : FrameHeader} (hparse : FrameHeader.parse a.reasm.available = some hdr)
    (hwanta : a.wantPayload hdr = false) (hsmall : hdr.len ≤ maxBufferedFrame) :
    TurnsMatch a (a.relocated true frames r a.discard) := by
  have hother : hdr.isHeaderFrame = false ∧ hdr.typ ≠ FrameType.settings := by
    simpa [wantPayload, hkeep, hsmall] using hwanta
  have hskip : a.parseStep = .more (a.skipFrame hdr).1 (some (a.skipFrame hdr).2) := by
    rw [ha, frameStep, hparse]
    simp only [hwanta, Bool.false_eq_true, if_false]
  have hquiet : SameOutput (some (a.skipFrame hdr).2).toList [] := by
    simp [SameOutput, decodedBlocks, settingsSizes, skipFrame]
  rcases Nat.eq_zero_or_pos hdr.len with hempty | hlen
  · -- nothing to drop: the other takes the whole frame at once
    have hbytes : (a.relocated true frames r a.discard).reasm.available = a.reasm.available :=
      hsame.available_eq.symm
    have hlength := FrameHeader.length_of_parse hparse
    have htake : ¬ a.reasm.available.length < frameHeaderLen + hdr.len := by omega
    have hwantb : (a.relocated true frames r a.discard).wantPayload hdr = true := by
      simp [wantPayload, relocated, hsmall]
    obtain ⟨hstate, hdecoded, hsize⟩ := take_other_frame hother.1 hother.2
      (a.relocated true frames r a.discard)
    refine .bothMore _ ((a.relocated true frames r a.discard).takeFrame hdr).1 _
      (some ((a.relocated true frames r a.discard).takeFrame hdr).2) hskip ?_ ?_ ?_
    · rw [hb, frameStep, hbytes, hparse]
      simp only [hwantb, htake, if_true, if_false]
    · refine ⟨hkeep, Or.inl ⟨frames + 1, r.consume frameHeaderLen, ?_, hsame.consume _⟩⟩
      rw [hstate]
      simp only [relocated, skipFrame, hempty, hdiscard, Nat.add_zero]
    · simp [SameOutput, decodedBlocks, settingsSizes, skipFrame, hdecoded, hsize]
  · refine .leftMore _ _ hskip ⟨hkeep, Or.inr ⟨frames, r, _, hdr, ?_,
      stepped_into_of_skip hsame hparse hlen hsmall hother hat⟩⟩ hquiet
    simp only [relocated, skipFrame, hdiscard]

/-- At a frame boundary the frame is taken by both, skipped by both, or stepped into by the
direction that drops. -/
theorem turns_match_frame (hkeep : a.keepPayloads = false) (hsame : SameStream a.reasm r)
    (frames : Nat) (hdiscard : a.discard = 0) (hpending : a.pendingStartSeq = none)
    (hsynced : a.desynced = false) (hpreface : a.expectPreface = false) :
    TurnsMatch a (a.relocated true frames r a.discard) := by
  have ha : a.parseStep = a.frameStep := by
    simp [parseStep, hdiscard, hpending, hsynced, hpreface]
  have hb : (a.relocated true frames r a.discard).parseStep =
      (a.relocated true frames r a.discard).frameStep := by
    simp [parseStep, relocated, hdiscard, hpending, hsynced, hpreface]
  cases hparse : FrameHeader.parse a.reasm.available with
  | none =>
      refine .of_same_progress ?_
      rw [ha, hb]
      exact same_progress_frame_none hkeep hsame frames hparse
  | some hdr =>
      by_cases hwant : (a.relocated true frames r a.discard).wantPayload hdr = a.wantPayload hdr
      · refine .of_same_progress ?_
        rw [ha, hb]
        exact same_progress_frame hkeep hsame frames hparse hwant
      · -- keeping payloads makes a difference for small frames only
        have hsmall : hdr.len ≤ maxBufferedFrame := by
          by_contra hlarge
          simp [wantPayload, relocated, hlarge] at hwant
        have hwanta : a.wantPayload hdr = false := by
          cases hwanta : a.wantPayload hdr with
          | false => rfl
          | true =>
              rw [hwanta] at hwant
              simp [wantPayload, relocated, hsmall] at hwant
        exact turns_match_unwanted hkeep hsame frames hdiscard ⟨hpending, hsynced, hpreface⟩ ha hb
          hparse hwanta hsmall

/-- The other modes. -/
theorem turns_match_level {b : Direction} (hkeep : a.keepPayloads = false) (h : Level a b) :
    TurnsMatch a b := by
  obtain ⟨frames, r, rfl, hsame⟩ := h
  by_cases hdiscard : a.discard > 0
  · refine .of_same_progress ?_
    have ha : a.parseStep = a.discardStep := by simp only [parseStep, hdiscard, if_true]
    have hb : (a.relocated true frames r a.discard).parseStep =
        (a.relocated true frames r a.discard).discardStep := by
      simp only [parseStep, relocated, hdiscard, if_true]
    rw [ha, hb]
    exact same_progress_discard hkeep hsame frames
  cases hpending : a.pendingStartSeq with
  | some target =>
      refine .of_same_progress ?_
      have ha : a.parseStep = a.seekStep target := by simp [parseStep, hdiscard, hpending]
      have hb : (a.relocated true frames r a.discard).parseStep =
          (a.relocated true frames r a.discard).seekStep target := by
        simp [parseStep, relocated, hdiscard, hpending]
      rw [ha, hb]
      exact same_progress_seek hkeep hsame frames target
  | none =>
      cases hsynced : a.desynced with
      | true =>
          refine .of_same_progress ?_
          have ha : a.parseStep = a.resyncStep := by
            simp [parseStep, hdiscard, hpending, hsynced]
          have hb : (a.relocated true frames r a.discard).parseStep =
              (a.relocated true frames r a.discard).resyncStep := by
            simp [parseStep, relocated, hdiscard, hpending, hsynced]
          rw [ha, hb]
          exact same_progress_resync hkeep hsame frames
      | false =>
          cases hpreface : a.expectPreface with
          | true =>
              refine .of_same_progress ?_
              have ha : a.parseStep = a.prefaceStep := by
                simp [parseStep, hdiscard, hpending, hsynced, hpreface]
              have hb : (a.relocated true frames r a.discard).parseStep =
                  (a.relocated true frames r a.discard).prefaceStep := by
                simp [parseStep, relocated, hdiscard, hpending, hsynced, hpreface]
              rw [ha, hb]
              exact same_progress_preface hkeep hsame frames
          | false =>
              exact turns_match_frame hkeep hsame frames (Nat.eq_zero_of_not_pos hdiscard) hpending
                hsynced hpreface

end

/-! ### Inside a payload -/

section

variable {a : Direction} {r : Reassembler} {seen : Bytes} {hdr : FrameHeader}

omit [HuffmanDecoding] in
/-- All that is there is dropped, and the payload still goes on. -/
theorem SteppedInto.drop_all (h : SteppedInto a r seen hdr)
    (hpart : a.reasm.available.length < a.discard) :
    SteppedInto { a with
      reasm := a.reasm.consume a.reasm.available.length
      discard := a.discard - a.reasm.available.length } r (seen ++ a.reasm.available) hdr := by
  have hremaining := h.remaining
  exact {
    outside_eq := by simp only [Reassembler.outside_consume, h.outside_eq]
    header := FrameHeader.parse_append h.header _
    available_eq := by
      simp only [Reassembler.available_consume, List.drop_length, List.append_nil, h.available_eq]
    bufOff_eq := by
      simp only [Reassembler.bufOff_consume, h.bufOff_eq, min_self, List.length_append]
      omega
    remaining := by
      simp only [List.length_append]
      omega
    dropping := by
      show 0 < a.discard - a.reasm.available.length
      omega
    other := h.other
    not_settings := h.not_settings
    small := h.small
    at_frame := h.at_frame }

omit [HuffmanDecoding] in
/-- The rest of the payload is dropped by the one and taken with the frame by the other. -/
theorem SteppedInto.drop_rest (h : SteppedInto a r seen hdr) :
    SameStream (a.reasm.consume a.discard) (r.consume (frameHeaderLen + hdr.len)) := by
  have hremaining := h.remaining
  refine ⟨?_, ?_, ?_⟩
  · simp only [Reassembler.outside_consume, h.outside_eq]
  · simp only [Reassembler.available_consume, h.available_eq, ← hremaining,
      List.drop_length_add_append]
  · simp only [Reassembler.bufOff_consume, h.available_eq, h.bufOff_eq, List.length_append]
    omega

/-- The direction that keeps takes the frame once all of it is there. -/
theorem SteppedInto.parse_step_kept (h : SteppedInto a r seen hdr) (frames : Nat) :
    (a.relocated true frames r 0).parseStep =
      if a.reasm.available.length < a.discard then .stop (a.relocated true frames r 0)
      else .more ((a.relocated true frames r 0).takeFrame hdr).1
        (some ((a.relocated true frames r 0).takeFrame hdr).2) := by
  obtain ⟨hpending, hsynced, hpreface⟩ := h.at_frame
  have hremaining := h.remaining
  have hstep : (a.relocated true frames r 0).parseStep =
      (a.relocated true frames r 0).frameStep := by
    simp [parseStep, relocated, hpending, hsynced, hpreface]
  have havailable : (a.relocated true frames r 0).reasm.available = seen ++ a.reasm.available :=
    h.available_eq
  have hwant : (a.relocated true frames r 0).wantPayload hdr = true := by
    simp [wantPayload, relocated, h.small]
  have hshort : (seen ++ a.reasm.available).length < frameHeaderLen + hdr.len ↔
      a.reasm.available.length < a.discard := by
    rw [List.length_append]
    omega
  rw [hstep, frameStep, havailable, FrameHeader.parse_append h.header _]
  simp only [hwant, hshort, if_true]

/-- While the first drops a payload, the other waits for the rest of it. -/
theorem turns_match_ahead {b : Direction} (hkeep : a.keepPayloads = false) (h : Ahead a b) :
    TurnsMatch a b := by
  obtain ⟨frames, r, seen, hdr, rfl, hinto⟩ := h
  have hdropping := hinto.dropping
  have ha : a.parseStep = a.discardStep := by simp only [parseStep, hdropping, if_true]
  have hb := hinto.parse_step_kept frames
  simp only [discardStep] at ha
  by_cases hnone : min a.discard a.reasm.available.length = 0
  · rw [if_pos hnone] at ha
    rw [if_pos (by omega)] at hb
    exact .bothStop _ _ ha hb ⟨hkeep, Or.inr ⟨frames, r, seen, hdr, rfl, hinto⟩⟩
  rw [if_neg hnone] at ha
  by_cases hpart : a.reasm.available.length < a.discard
  · -- the rest of the payload is still to come
    rw [min_eq_right hpart.le] at ha
    exact .leftMore _ _ ha
      ⟨hkeep, Or.inr ⟨frames, r, seen ++ a.reasm.available, hdr, rfl, hinto.drop_all hpart⟩⟩
      (same_output_refl [])
  · -- the payload ends here
    rw [min_eq_left (not_lt.mp hpart)] at ha
    rw [if_neg hpart] at hb
    obtain ⟨hstate, hdecoded, hsize⟩ := take_other_frame hinto.other hinto.not_settings
      (a.relocated true frames r 0)
    refine .bothMore _ _ _ _ ha hb ⟨hkeep, Or.inl ⟨frames + 1,
      r.consume (frameHeaderLen + hdr.len), ?_, hinto.drop_rest⟩⟩ ?_
    · rw [hstate]
      simp only [relocated, Nat.sub_self]
    · simp [SameOutput, decodedBlocks, settingsSizes, hdecoded, hsize]

end

/-- The parse loops of the two directions stay in tandem and return the same. -/
theorem tandem_parse {a b : Direction} (h : Tandem a b) :
    Tandem a.parse.1 b.parse.1 ∧ SameOutput a.parse.2 b.parse.2 := by
  induction hwork : a.work using Nat.strongRecOn generalizing a b with
  | ind n ih =>
      subst hwork
      have hturns : TurnsMatch a b := by
        rcases h with ⟨hkeep, hlevel | hahead⟩
        · exact turns_match_level hkeep hlevel
        · exact turns_match_ahead hkeep hahead
      cases hturns with
      | bothStop a' b' ha hb h =>
          rw [parse_of_stop ha, parse_of_stop hb]
          exact ⟨h, same_output_refl []⟩
      | bothMore a' b' f g ha hb h hout =>
          obtain ⟨hfinal, hlater⟩ := ih _ (work_parse_step ha) h rfl
          rw [parse_of_more ha, parse_of_more hb]
          exact ⟨hfinal, hout.append hlater⟩
      | leftMore a' f ha h hout =>
          obtain ⟨hfinal, hlater⟩ := ih _ (work_parse_step ha) h rfl
          rw [parse_of_more ha]
          exact ⟨hfinal, hout.append hlater⟩

/-! ## Whole histories -/

omit [HuffmanDecoding] in
theorem outside_eq_of_tandem {a b : Direction} (h : Tandem a b) :
    a.reasm.outside = b.reasm.outside := by
  rcases h with ⟨-, ⟨frames, r, rfl, hsame⟩ | ⟨frames, r, seen, hdr, rfl, hinto⟩⟩
  · exact hsame.outside_eq
  · exact hinto.outside_eq

omit [HuffmanDecoding] in
/-- Reassembly keeps two directions in tandem: both receive the same bytes, or both lose their
place. -/
theorem tandem_reassembled {a b : Direction} (h : Tandem a b) {pushed pushed' : Reassembler × Bool}
    (hboth : (∃ received, Reassembler.BothReceived a.reasm b.reasm pushed.1 pushed'.1 received ∧
        pushed.2 = false ∧ pushed'.2 = false) ∨ (pushed = pushed' ∧ pushed'.2 = true)) :
    Tandem (a.withReassembled pushed) (b.withReassembled pushed') := by
  obtain ⟨hkeep, hplace⟩ := h
  rcases hboth with ⟨received, hreceived, hgap, hgap'⟩ | ⟨rfl, hgap⟩
  · simp only [withReassembled, hgap, hgap', Bool.false_eq_true, if_false]
    refine ⟨hkeep, ?_⟩
    rcases hplace with ⟨frames, r, rfl, hsame⟩ | ⟨frames, r, seen, hdr, rfl, hinto⟩
    · refine Or.inl ⟨frames, pushed'.1, rfl, hreceived.outside_eq, ?_, ?_⟩
      · rw [hreceived.left.available_eq, hreceived.right.available_eq, hsame.available_eq]
        rfl
      · rw [hreceived.left.bufOff_eq, hreceived.right.bufOff_eq, hsame.bufOff_eq]
        rfl
    · refine Or.inr ⟨frames, pushed'.1, seen, hdr, rfl, hreceived.outside_eq, hinto.header, ?_, ?_,
        hinto.remaining, hinto.dropping, hinto.other, hinto.not_settings, hinto.small,
        hinto.at_frame⟩
      · rw [hreceived.left.available_eq, hreceived.right.available_eq, ← List.append_assoc,
          ← hinto.available_eq]
        rfl
      · rw [hreceived.left.bufOff_eq, hreceived.right.bufOff_eq, hinto.bufOff_eq]
        rfl
  · simp only [withReassembled, hgap, if_true]
    refine ⟨hkeep, ?_⟩
    rcases hplace with ⟨frames, r, rfl, hsame⟩ | ⟨frames, r, seen, hdr, rfl, hinto⟩
    · exact Or.inl ⟨frames, pushed.1, rfl, rfl, rfl, rfl⟩
    · exact Or.inl ⟨frames, pushed.1, rfl, rfl, rfl, rfl⟩

theorem tandem_tick {a b : Direction} (h : Tandem a b) (nowUs : Nat) :
    Tandem (a.tick nowUs).1 (b.tick nowUs).1 ∧
      SameOutput (a.tick nowUs).2 (b.tick nowUs).2 := by
  have hboth := Reassembler.check_timeout_both (outside_eq_of_tandem h) nowUs
  rcases hboth with ⟨ha, hb⟩ | ⟨heq, hgap⟩
  · simp only [tick, ha, hb, Bool.false_eq_true, if_false]
    exact ⟨h, same_output_refl []⟩
  · simp only [tick, heq, hgap, if_true]
    exact tandem_parse (tandem_reassembled h (Or.inr ⟨rfl, hgap⟩))

theorem tandem_perform {a b : Direction} (h : Tandem a b) (op : DirOp) :
    Tandem (a.perform op).1 (b.perform op).1 ∧
      SameOutput (a.perform op).2 (b.perform op).2 := by
  cases op with
  | feed seq data nowUs =>
      exact tandem_parse (tandem_reassembled h
        (Reassembler.push_both (outside_eq_of_tandem h) seq data nowUs))
  | tick nowUs => exact tandem_tick h nowUs
  | applyPeerCapacity n =>
      refine ⟨⟨h.1, ?_⟩, same_output_refl []⟩
      rcases h with ⟨hkeep, ⟨frames, r, rfl, hsame⟩ | ⟨frames, r, seen, hdr, rfl, hinto⟩⟩
      · exact Or.inl ⟨frames, r, rfl, hsame⟩
      · exact Or.inr ⟨frames, r, seen, hdr, rfl, hinto.outside_eq, hinto.header,
          hinto.available_eq, hinto.bufOff_eq, hinto.remaining, hinto.dropping, hinto.other,
          hinto.not_settings, hinto.small, hinto.at_frame⟩

/-- `a` stands inside the payload of the frame at `b`'s place, all of which so far `b` buffers. -/
def AheadInPayload (a b : Direction) : Prop :=
  ∃ hdr, FrameHeader.parse b.reasm.available = some hdr ∧
    b.reasm.offset + frameHeaderLen ≤ a.reasm.offset ∧
    a.reasm.offset ≤ b.reasm.offset + b.reasm.available.length ∧
    a.reasm.offset < b.reasm.offset + frameHeaderLen + hdr.len

omit [HuffmanDecoding] in
theorem SteppedInto.ahead_in_payload {a : Direction} {r : Reassembler} {seen : Bytes}
    {hdr : FrameHeader} (h : SteppedInto a r seen hdr) (frames : Nat) :
    AheadInPayload a (a.relocated true frames r 0) := by
  have hlength := FrameHeader.length_of_parse h.header
  have hoff := h.bufOff_eq
  have hremaining := h.remaining
  have hdropping := h.dropping
  have havailable := congrArg List.length h.available_eq
  rw [List.length_append] at havailable
  refine ⟨hdr, ?_, ?_, ?_, ?_⟩
  · show FrameHeader.parse r.available = some hdr
    rw [h.available_eq]
    exact FrameHeader.parse_append h.header _
  all_goals
    simp only [Reassembler.offset, relocated]
    omega

/-- Two directions that start in the same state, one dropping and one keeping payloads, through any
history of segments, timeouts and announced table sizes: every call returns the same decoded blocks
and table sizes, all that a snapshot or a later decode depends on agrees, and so does the place in
the stream, except while the first is inside a payload that the second still buffers. -/
theorem keep_payloads_decodes_identically (d : Direction) (ops : List DirOp) :
    let a := run perform { d with keepPayloads := false } ops
    let b := run perform { d with keepPayloads := true } ops
    List.Forall₂ SameOutput a.2 b.2 ∧
      a.1.dec = b.1.dec ∧ a.1.block = b.1.block ∧ a.1.blockHdr = b.1.blockHdr ∧
      a.1.blockPromised = b.1.blockPromised ∧ a.1.openStreams = b.1.openStreams ∧
      a.1.poisoned = b.1.poisoned ∧ a.1.desynced = b.1.desynced ∧
      a.1.decodeErrors = b.1.decodeErrors ∧ a.1.resyncs = b.1.resyncs ∧
      a.1.isSnapshottable = b.1.isSnapshottable ∧
      (a.1.reasm.offset = b.1.reasm.offset ∧ a.1.nextFrameSeq = b.1.nextFrameSeq ∨
        AheadInPayload a.1 b.1) := by
  intro a b
  have hinit : Tandem { d with keepPayloads := false } { d with keepPayloads := true } :=
    ⟨rfl, Or.inl ⟨d.frames, d.reasm, rfl, rfl, rfl, rfl⟩⟩
  obtain ⟨⟨-, hplace⟩, houts⟩ := run_simulation perform perform (R := Tandem)
    (Q := SameOutput) (fun a b op h => tandem_perform h op) ops hinit
  refine ⟨houts, ?_⟩
  rcases hplace with ⟨frames, r, heq, hsame⟩ | ⟨frames, r, seen, hdr, heq, hinto⟩
  · have hplace : a.1.reasm.offset = b.1.reasm.offset ∧ a.1.nextFrameSeq = b.1.nextFrameSeq := by
      simp only [b, heq]
      exact ⟨hsame.bufOff_eq, hsame.next_unparsed_seq⟩
    simp only [hplace, true_or, and_true]
    simp only [b, heq]
    exact ⟨rfl, rfl, rfl, rfl, rfl, rfl, rfl, rfl, rfl, rfl⟩
  · have hahead : AheadInPayload a.1 b.1 := by
      simp only [b, heq]
      exact hinto.ahead_in_payload frames
    simp only [hahead, or_true, and_true]
    simp only [b, heq]
    exact ⟨rfl, rfl, rfl, rfl, rfl, rfl, rfl, rfl, rfl, rfl⟩

end

end H2Tap.Direction
