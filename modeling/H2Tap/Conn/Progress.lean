import H2Tap.Conn.Bounds

/-!
# What every iteration of the parse loop gets done

A turn that goes on takes bytes of the buffer or leaves one of the modes of the loop, and a mode is
only entered by a turn that takes bytes or by the seek step. `parse_terminates` is the main result:
from any direction that callers produce and any buffer, the loop as it stands in the source ends
without a panic, and each of its turns gets this done.
-/

namespace H2Tap.Direction

/-! ## The modes of the loop -/

/-- The modes, in the order in which a turn looks at them. -/
inductive Mode where
  | discard
  | seek
  | resync
  | preface
  deriving DecidableEq, Repr

/-- The direction is in the mode. -/
def Pending (d : Direction) : Mode → Prop
  | .discard => 0 < d.discard
  | .seek => d.pendingStartSeq.isSome = true
  | .resync => d.desynced = true
  | .preface => d.expectPreface = true

instance (d : Direction) (mode : Mode) : Decidable (d.Pending mode) :=
  match mode with
  | .discard => inferInstanceAs (Decidable (0 < d.discard))
  | .seek => inferInstanceAs (Decidable (d.pendingStartSeq.isSome = true))
  | .resync => inferInstanceAs (Decidable (d.desynced = true))
  | .preface => inferInstanceAs (Decidable (d.expectPreface = true))

/-- Bytes of the buffer were taken between the two. -/
def Took (d d' : Direction) : Prop := d'.reasm.available.length < d.reasm.available.length

/-- The next turn is the seek step. -/
def AtSeekStep (d : Direction) : Prop := d.discard = 0 ∧ d.Pending .seek

/-- What a turn that goes on gets done. -/
structure Advances (d d' : Direction) : Prop where
  progress : Took d d' ∨ ∃ mode, d.Pending mode ∧ ¬ d'.Pending mode
  entered : ∀ mode, ¬ d.Pending mode → d'.Pending mode → Took d d' ∨ d.AtSeekStep

theorem Took.advances {d d' : Direction} (h : Took d d') : Advances d d' :=
  ⟨Or.inl h, fun _ _ _ => Or.inl h⟩

/-- Leaving one mode and entering none. -/
theorem Advances.of_left {d d' : Direction} (mode : Mode) (hpending : d.Pending mode)
    (hleft : ¬ d'.Pending mode) (hsame : ∀ other, d'.Pending other → d.Pending other) :
    Advances d d' :=
  ⟨Or.inr ⟨mode, hpending, hleft⟩, fun other hnot hentered => absurd (hsame other hentered) hnot⟩

/-- Consuming takes bytes if there are any. -/
theorem took_of_consume {d d' : Direction} {n : Nat} (hreasm : d'.reasm = d.reasm.consume n)
    (hn : 0 < n) (hbytes : 0 < d.reasm.available.length) : Took d d' := by
  show d'.reasm.available.length < d.reasm.available.length
  rw [hreasm, Reassembler.available_consume, List.length_drop]
  omega

/-! ## One turn -/

theorem advances_discard_step {d d' : Direction} {frame : Option ProcessedFrame}
    (h : d.discardStep = .more d' frame) : Advances d d' := by
  simp only [discardStep] at h
  split at h
  · cases h
  · cases h
    exact (took_of_consume rfl (by omega) (by omega)).advances

/-- The only turn that enters a mode without taking bytes: it gives up the seek and hunts for a
boundary. -/
theorem advances_seek_step {d d' : Direction} {frame : Option ProcessedFrame} {target : Seq}
    (hdiscard : d.discard = 0) (hpending : d.pendingStartSeq = some target)
    (h : d.seekStep target = .more d' frame) : Advances d d' := by
  have hseek : d.Pending .seek := by
    show d.pendingStartSeq.isSome = true
    rw [hpending]
    rfl
  simp only [seekStep] at h
  split at h
  · split at h
    · cases h
    · cases h
      exact (took_of_consume rfl (by omega) (by omega)).advances
  · split at h <;>
    · cases h
      refine ⟨Or.inr ⟨.seek, hseek, ?_⟩, fun _ _ _ => Or.inr ⟨hdiscard, hseek⟩⟩
      exact Bool.false_ne_true

theorem advances_resync_step {d d' : Direction} {frame : Option ProcessedFrame}
    (hdesynced : d.desynced = true) (h : d.resyncStep = .more d' frame) : Advances d d' := by
  simp only [resyncStep] at h
  split at h
  · next hresync =>
      cases h
      obtain ⟨off, -, rfl⟩ := try_resync_true hresync
      -- the boundary may be the first byte, so nothing need have been taken
      refine Advances.of_left .resync hdesynced Bool.false_ne_true fun other hother => ?_
      cases other with
      | resync => exact absurd hother Bool.false_ne_true
      | _ => exact hother
  · cases h

theorem advances_preface_step {d d' : Direction} {frame : Option ProcessedFrame}
    (hpreface : d.expectPreface = true) (h : d.prefaceStep = .more d' frame) : Advances d d' := by
  simp only [prefaceStep] at h
  split at h
  · cases h
  · split at h <;>
    · cases h
      refine Advances.of_left .preface hpreface Bool.false_ne_true fun other hother => ?_
      cases other with
      | preface => exact absurd hother Bool.false_ne_true
      | _ => exact hother

section

variable [HuffmanDecoding]

/-- A frame takes its header at least, whatever handling it does to the modes. -/
theorem advances_frame_step {d d' : Direction} {frame : Option ProcessedFrame}
    (h : d.frameStep = .more d' frame) : Advances d d' := by
  unfold frameStep at h
  split at h
  · cases h
  · next hdr hparse =>
      have hlength := FrameHeader.length_of_parse hparse
      simp only [frameHeaderLen] at hlength
      split at h
      · split at h
        · cases h
        · cases h
          have hreasm : (d.takeFrame hdr).1.reasm = d.reasm.consume (frameHeaderLen + hdr.len) :=
            (same_position_handle_frame _ _ _ _ _).reasm
          exact (took_of_consume hreasm (by simp only [frameHeaderLen]; omega)
            (by omega)).advances
      · cases h
        exact (took_of_consume rfl (by decide) (by omega)).advances

/-- Every turn that goes on, in the order in which the loop looks at its modes. -/
theorem advances_parse_step {d d' : Direction} {frame : Option ProcessedFrame}
    (h : d.parseStep = .more d' frame) : Advances d d' := by
  unfold parseStep at h
  split at h
  · exact advances_discard_step h
  · next hdiscard =>
      split at h
      · next target hpending => exact advances_seek_step (by omega) hpending h
      · split at h
        · next hdesynced => exact advances_resync_step hdesynced h
        · split at h
          · next hpreface => exact advances_preface_step hpreface h
          · exact advances_frame_step h

/-! ## The loop -/

/-- From any direction that callers produce, with whatever buffer a segment or a timeout leaves it,
the loop ends within `work` turns without a panic, and each turn that goes on takes bytes or leaves
a mode that only such a turn or the seek step enters. -/
theorem parse_terminates {d : Direction} (h : d.Reachable) (pushed : Reassembler × Bool) :
    (∀ turns, (d.withReassembled pushed).work < turns →
      Raw.parse turns (d.withReassembled pushed) = .some (d.withReassembled pushed).parse) ∧
    ∀ t ∈ (d.withReassembled pushed).turns, ∃ progress, Raw.parseStep t = .some progress ∧
      ∀ t' frame, progress = .more t' frame → Advances t t' := by
  have hstart := counted_with_reassembled h.counted pushed
  refine ⟨fun turns hturns => raw_parse hstart hturns, fun t ht => ?_⟩
  have hcounted : t.dec.Counted :=
    turns_keep (P := fun t => t.dec.Counted) (fun _ ht => counted_parse_step ht) hstart t ht
  exact ⟨t.parseStep, raw_parse_step hcounted, fun t' frame hmore => advances_parse_step hmore⟩

end

/-- A direction that joined in the middle of a frame and hunts for a boundary. -/
theorem parse_terminates_joined :
    let _ := noHuffman.toHuffmanDecoding
    let start := (joinedMidstream true).withReassembled
      (Reassembler.new.push 7 (List.replicate 40 0) 0)
    Raw.parse 200 start = .some start.parse ∧
      ∃ progress, Raw.parseStep start = .some progress ∧
        ∀ t' frame, progress = .more t' frame → Advances start t' := by
  intro _ start
  have h := parse_terminates (.joined true) (Reassembler.new.push 7 (List.replicate 40 0) 0)
  exact ⟨h.1 200 (by decide +kernel), h.2 start (mem_turns_self start)⟩

end H2Tap.Direction
