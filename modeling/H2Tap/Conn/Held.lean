import H2Tap.Conn.ResyncBuffer
import H2Tap.Reassembly.Twice

/-!
# What the parser does not see

`conn.rs`. The parser reads the buffer and consumes it, and never looks at what the reassembler
holds (`parse_with_held`). It stops only when it can do no more with the bytes it has: once it has
stopped, running it again does nothing (`awaiting_parse`).
-/

namespace H2Tap

namespace Reassembler

theorem consume_with_held (r : Reassembler) (held : List (Seq × Bytes)) (n : Nat)
    (since : Option Nat) (k : Nat) :
    (r.withHeld held n since).consume k = (r.consume k).withHeld held n since := by
  have hbound : r.pos + min k (r.buf.length - r.pos) ≤ r.buf.length := by
    have hpos := r.pos_le
    omega
  by_cases hlarge : (r.advance (min k (r.buf.length - r.pos)) hbound).pos ≥ compactThreshold
  · have hlarge' : ((r.withHeld held n since).advance (min k (r.buf.length - r.pos)) hbound).pos ≥
        compactThreshold := hlarge
    unfold Reassembler.consume compact
    rw [if_pos hlarge]
    exact if_pos hlarge'
  · have hsmall : ¬((r.withHeld held n since).advance (min k (r.buf.length - r.pos)) hbound).pos ≥
        compactThreshold := hlarge
    unfold Reassembler.consume compact
    rw [if_neg hlarge]
    exact if_neg hsmall

end Reassembler

namespace Direction

/-- The same direction with other held segments. -/
def withHeld (d : Direction) (held : List (Seq × Bytes)) (n : Nat) (since : Option Nat) :
    Direction :=
  { d with reasm := d.reasm.withHeld held n since }

section

variable (d : Direction) (held : List (Seq × Bytes)) (n : Nat) (since : Option Nat)

/-- The same turn, but for what is held. -/
def Progress.withHeld : Progress → Progress
  | .stop d => .stop (d.withHeld held n since)
  | .more d frame => .more (d.withHeld held n since) frame

theorem consume_reasm_with_held (k : Nat) :
    (d.withHeld held n since).reasm.consume k = (d.reasm.consume k).withHeld held n since :=
  Reassembler.consume_with_held d.reasm held n since k

theorem discard_step_with_held : (d.withHeld held n since).discardStep =
    d.discardStep.withHeld held n since := by
  have hcount : min (d.withHeld held n since).discard
      (d.withHeld held n since).reasm.available.length =
        min d.discard d.reasm.available.length := rfl
  unfold discardStep
  dsimp only
  rw [hcount]
  split
  · rfl
  · rw [consume_reasm_with_held]
    rfl

theorem seek_step_with_held (target : Seq) : (d.withHeld held n since).seekStep target =
    (d.seekStep target).withHeld held n since := by
  have hnext : (d.withHeld held n since).reasm.nextUnparsedSeq = d.reasm.nextUnparsedSeq := rfl
  have havailable : (d.withHeld held n since).reasm.available = d.reasm.available := rfl
  unfold seekStep
  dsimp only
  rw [hnext, havailable]
  split
  · split
    · rfl
    · rw [consume_reasm_with_held]
      rfl
  · split <;> rfl

theorem preface_step_with_held : (d.withHeld held n since).prefaceStep =
    d.prefaceStep.withHeld held n since := by
  have havailable : (d.withHeld held n since).reasm.available = d.reasm.available := rfl
  unfold prefaceStep
  dsimp only
  rw [havailable]
  split
  · rfl
  · split
    · rw [consume_reasm_with_held]
      rfl
    · rfl

theorem resync_step_with_held : (d.withHeld held n since).resyncStep =
    d.resyncStep.withHeld held n since := by
  have havailable : (d.withHeld held n since).reasm.available = d.reasm.available := rfl
  rw [resync_step_eq, resync_step_eq, havailable]
  split
  · rfl
  · split
    · rw [consume_reasm_with_held]
      rfl
    · rfl
    · by_cases hlarge : d.reasm.available.length > resyncWindow
      · rw [if_pos hlarge, if_pos hlarge, consume_reasm_with_held]
        generalize d.reasm.consume (d.reasm.available.length - resyncWindow) = r
        rfl
      · rw [if_neg hlarge, if_neg hlarge]
        rfl

variable [HuffmanDecoding]

theorem frame_step_with_held : (d.withHeld held n since).frameStep =
    d.frameStep.withHeld held n since := by
  have havailable : (d.withHeld held n since).reasm.available = d.reasm.available := rfl
  have hwant (hdr : FrameHeader) : (d.withHeld held n since).wantPayload hdr =
      d.wantPayload hdr := rfl
  unfold frameStep
  rw [havailable]
  split
  · rfl
  · next hdr hparse =>
      rw [hwant]
      split
      · split
        · rfl
        · -- the frame is handled as if it came from elsewhere in the stream
          have hhandled : (d.withHeld held n since).handleFrame hdr
              ((d.reasm.available.drop frameHeaderLen).take hdr.len) d.reasm.offset
              d.reasm.nextUnparsedSeq = _ :=
            handle_frame_relocated d d.keepPayloads d.frames (d.reasm.withHeld held n since)
              d.discard hdr _ _ _
          have hoff : (d.withHeld held n since).reasm.offset = d.reasm.offset := rfl
          have hseq : (d.withHeld held n since).reasm.nextUnparsedSeq =
              d.reasm.nextUnparsedSeq := rfl
          rw [take_frame_eq, take_frame_eq, consume_reasm_with_held, havailable, hoff, hseq,
            hhandled]
          rfl
      · unfold skipFrame
        rw [consume_reasm_with_held]
        rfl

theorem parse_step_with_held : (d.withHeld held n since).parseStep =
    d.parseStep.withHeld held n since := by
  have hdiscard : (d.withHeld held n since).discard = d.discard := rfl
  have hpending : (d.withHeld held n since).pendingStartSeq = d.pendingStartSeq := rfl
  have hdesynced : (d.withHeld held n since).desynced = d.desynced := rfl
  have hpreface : (d.withHeld held n since).expectPreface = d.expectPreface := rfl
  unfold parseStep
  rw [hdiscard, hpending, hdesynced, hpreface, discard_step_with_held, resync_step_with_held,
    preface_step_with_held, frame_step_with_held]
  split
  · rfl
  · split
    · exact seek_step_with_held d held n since _
    · split
      · rfl
      · split <;> rfl

/-- The parser does not see what is held. -/
theorem parse_with_held : (d.withHeld held n since).parse =
    (d.parse.1.withHeld held n since, d.parse.2) := by
  induction hwork : d.work using Nat.strongRecOn generalizing d with
  | ind m ih =>
      subst hwork
      have hstep := parse_step_with_held d held n since
      cases hturn : d.parseStep with
      | stop d' =>
          rw [hturn] at hstep
          rw [parse_of_stop hturn, parse_of_stop hstep]
      | more d' frame =>
          rw [hturn] at hstep
          rw [parse_of_more hturn, parse_of_more hstep, ih _ (work_parse_step hturn) d' rfl]

end

/-! ## Where the parser stops -/

/-- No boundary is found in the rest of a buffer in which none was found. -/
theorem scan_boundary_drop {a : Bytes} (h : scanBoundary a = none) {n : Nat}
    (hlong : n + frameHeaderLen ≤ a.length) : scanBoundary (a.drop n) = none := by
  by_contra hnot
  obtain ⟨⟨off, found⟩, hscan⟩ := Option.ne_none_iff_exists'.mp hnot
  obtain ⟨hoff, hchain, -⟩ := scan_boundary_some hscan
  rw [List.length_drop] at hoff
  rw [List.drop_drop, scan_boundary_none h (by omega)] at hchain
  cases found <;> cases hchain

section

variable [HuffmanDecoding] {d d' : Direction}

/-- The parser can do no more with the bytes it has. -/
def Awaiting (d : Direction) : Prop := d.pendingStartSeq = none ∧ d.parseStep = .stop d

theorem Awaiting.parse_eq (h : d.Awaiting) : d.parse = (d, []) := parse_of_stop h.2

/-- A turn that stops is followed by none that does more. -/
theorem awaiting_of_stop (hpending : d.pendingStartSeq = none) (h : d.parseStep = .stop d') :
    d'.Awaiting := by
  by_cases hsame : d' = d
  · exact ⟨hsame ▸ hpending, by rw [hsame] at h ⊢; exact h⟩
  -- only a hunt that has found no boundary drops bytes before it stops
  have hhunt : d.discard = 0 ∧ d.desynced = true ∧ frameHeaderLen ≤ d.reasm.available.length ∧
      scanBoundary d.reasm.available = none ∧ resyncWindow < d.reasm.available.length ∧
      d' = { d with reasm := d.reasm.consume (d.reasm.available.length - resyncWindow) } := by
    simp only [parseStep, hpending] at h
    split at h
    · simp only [discardStep] at h
      split at h
      · cases h
        exact absurd rfl hsame
      · cases h
    · next hdiscard =>
        split at h
        · next hdesynced =>
            rw [resync_step_eq] at h
            split at h
            · cases h
              exact absurd rfl hsame
            · next hlong =>
                split at h
                · cases h
                · cases h
                  exact absurd rfl hsame
                · next hscan =>
                    split at h
                    · next hlarge =>
                        exact ⟨by omega, hdesynced, by omega, hscan, hlarge,
                          (Progress.stop.inj h).symm⟩
                    · cases h
                      exact absurd rfl hsame
        · split at h
          · simp only [prefaceStep] at h
            split at h
            · cases h
              exact absurd rfl hsame
            · split at h <;> cases h
          · unfold frameStep at h
            split at h
            · cases h
              exact absurd rfl hsame
            · split at h
              · split at h
                · cases h
                  exact absurd rfl hsame
                · cases h
              · cases h
  obtain ⟨hdiscard, hdesynced, hlong, hscan, hlarge, heq⟩ := hhunt
  have hwindow : frameHeaderLen ≤ resyncWindow := by decide
  have hrest : d'.reasm.available = d.reasm.available.drop
      (d.reasm.available.length - resyncWindow) := by
    rw [heq, Reassembler.available_consume]
  have hlength : d'.reasm.available.length = resyncWindow := by
    rw [hrest, List.length_drop]
    omega
  have hnone : scanBoundary d'.reasm.available = none := by
    rw [hrest]
    exact scan_boundary_drop hscan (by omega)
  have hmode : d'.discard = 0 ∧ d'.pendingStartSeq = none ∧ d'.desynced = true := by
    rw [heq]
    exact ⟨hdiscard, hpending, hdesynced⟩
  obtain ⟨hdiscard', hpending', hdesynced'⟩ := hmode
  refine ⟨hpending', ?_⟩
  rw [parseStep, if_neg (by omega)]
  simp only [hpending', hdesynced', if_true]
  rw [resync_step_eq, if_neg (by omega), hnone]
  dsimp only
  rw [if_neg (by omega)]

/-- Once the parser has stopped it has done what it can. -/
theorem awaiting_parse (hpending : d.pendingStartSeq = none) : d.parse.1.Awaiting := by
  induction hwork : d.work using Nat.strongRecOn generalizing d with
  | ind n ih =>
      subst hwork
      cases hturn : d.parseStep with
      | stop d' =>
          rw [parse_of_stop hturn]
          exact awaiting_of_stop hpending hturn
      | more d' frame =>
          obtain ⟨-, hpending', -⟩ := parse_step_moves hpending hturn
          rw [parse_of_more hturn]
          exact ih _ (work_parse_step hturn) hpending' rfl

/-- Where the parser stops does not depend on the decoder, nor on more of the reassembler than its
buffer. -/
theorem Awaiting.congr (h : d.Awaiting) (dec : Decoder) {r : Reassembler}
    (havailable : r.available = d.reasm.available) :
    ({ d with dec := dec, reasm := r } : Direction).Awaiting := by
  obtain ⟨hpending, hstop⟩ := h
  refine ⟨hpending, ?_⟩
  simp only [parseStep, hpending] at hstop ⊢
  by_cases hdiscard : d.discard > 0
  · simp only [if_pos hdiscard, discardStep, havailable] at hstop ⊢
    split at hstop
    · next hnone => rw [if_pos hnone]
    · cases hstop
  simp only [if_neg hdiscard] at hstop ⊢
  by_cases hdesynced : d.desynced = true
  · simp only [if_pos hdesynced, resync_step_eq, havailable] at hstop ⊢
    split at hstop
    · next hshort => rw [if_pos hshort]
    · next hlong =>
        rw [if_neg hlong]
        split at hstop
        · cases hstop
        · rfl
        · by_cases hlarge : d.reasm.available.length > resyncWindow
          · -- such a turn drops bytes
            rw [if_pos hlarge] at hstop
            have hdropped := congrArg (fun t => t.reasm.available.length) (Progress.stop.inj hstop)
            simp only [Reassembler.available_consume, List.length_drop] at hdropped
            omega
          · rw [if_neg hlarge]
  simp only [if_neg hdesynced] at hstop ⊢
  by_cases hpreface : d.expectPreface = true
  · simp only [if_pos hpreface, prefaceStep, havailable] at hstop ⊢
    split at hstop
    · next hshort => rw [if_pos hshort]
    · split at hstop <;> cases hstop
  simp only [if_neg hpreface, frameStep, havailable] at hstop ⊢
  split at hstop
  · rfl
  · next hdr hparse =>
      split at hstop
      · next hwant =>
          split at hstop
          · next hshort =>
              have hwant' : ({ d with dec := dec, reasm := r } : Direction).wantPayload hdr =
                  true := hwant
              simp only [hpending] at hwant'
              rw [if_pos hwant', if_pos hshort]
          · cases hstop
      · cases hstop

end

end Direction

end H2Tap
