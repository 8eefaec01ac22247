import H2Tap.Conn.Arrival
import H2Tap.Conn.Messages

/-!
# A direction that observes an endpoint

`arrived` are the messages of a stream that are received in full. `Observed` is what holds of a
direction between two arrivals: it follows the messages still to come, the last one that arrived has
left it with a copy of the sender's table, and of the next one it has at most a part, which has not
touched the table (`Quiet`). Therefore the table may be changed in between, as the sizes that the
opposite direction announces do (`Observed.lower`). `observed_segment` is what a segment does.
-/

namespace H2Tap

open Lib

namespace Direction

variable [HuffmanCoding]

/-! ## Messages received in full -/

/-- The messages that are received in full, when `left` bytes are still to come. -/
def arrived (left : Nat) : List Message → List Message
  | [] => []
  | m :: messages =>
      if left ≤ (framesWire (messageFrames messages)).length then m :: arrived left messages else []

/-- The messages after those that have arrived. -/
def stillComing (left : Nat) (coming : List Message) : List Message :=
  coming.drop (arrived left coming).length

theorem arrived_append (left : Nat) (coming : List Message) :
    arrived left coming ++ stillComing left coming = coming := by
  unfold stillComing
  induction coming with
  | nil => rfl
  | cons m messages ih =>
      simp only [arrived]
      split
      · simpa using ih
      · rfl

theorem still_coming_cons {left : Nat} {m : Message} {messages : List Message}
    (h : left ≤ (framesWire (messageFrames messages)).length) :
    stillComing left (m :: messages) = stillComing left messages := by
  simp only [stillComing, arrived, h, if_true, List.length_cons, List.drop_succ_cons]

/-- What has arrived is followed by the bytes to come. -/
theorem left_le_still_coming {left : Nat} {coming : List Message}
    (h : left ≤ (framesWire (messageFrames coming)).length) :
    left ≤ (framesWire (messageFrames (stillComing left coming))).length := by
  induction coming with
  | nil => exact h
  | cons m messages ih =>
      by_cases hleft : left ≤ (framesWire (messageFrames messages)).length
      · rw [still_coming_cons hleft]
        exact ih hleft
      · simp only [stillComing, arrived, hleft, if_false, List.length_nil, List.drop_zero]
        exact h

/-- The next message has not arrived. -/
theorem next_not_arrived {left : Nat} {coming later : List Message} {m : Message}
    (h : stillComing left coming = m :: later) :
    (framesWire (messageFrames later)).length < left := by
  induction coming with
  | nil => cases h
  | cons m' messages ih =>
      by_cases hleft : left ≤ (framesWire (messageFrames messages)).length
      · rw [still_coming_cons hleft] at h
        exact ih h
      · simp only [stillComing, arrived, hleft, if_false, List.length_nil, List.drop_zero] at h
        obtain ⟨rfl, rfl⟩ := List.cons.inj h
        exact Nat.lt_of_not_le hleft

theorem arrived_still_coming (left : Nat) (coming : List Message) :
    arrived left (stillComing left coming) = [] := by
  cases hcoming : stillComing left coming with
  | nil => rfl
  | cons m later =>
      have hnot := next_not_arrived hcoming
      simp only [arrived, Nat.not_le.mpr hnot, if_false]

/-! ## Part of a message -/

/-- The frames return nothing and touch the buffer for header blocks only. -/
structure Quiet (d : Direction) (frames : List Frame) : Prop where
  state : ∃ block hdr promised, ∀ dec, ({ d with dec := dec } : Direction).absorbed frames =
    { d with dec := dec, block := block, blockHdr := hdr, blockPromised := promised }
  outs : ∀ out ∈ d.absorbOutput frames, out = (none, none)

theorem quiet_nil (d : Direction) : d.Quiet [] :=
  ⟨⟨d.block, d.blockHdr, d.blockPromised, fun _ => rfl⟩, by simp [absorbOutput]⟩

/-- `p` frames are part of the next message, or all of one whose payload is dropped. -/
def InNext (d : Direction) (p : Nat) : List Message → Prop
  | [] => p = 0
  | m :: _ => p < m.frames.length ∨
      p = m.frames.length ∧ ∀ f ∈ m.frames, d.wantPayload f.hdr = false

/-- Part of the next message does nothing. -/
theorem quiet_in_next {limit : Nat} {d : Direction} {coming : List Message} {p : Nat}
    (hidle : d.block = [] ∧ d.blockHdr = none ∧ d.blockPromised = none)
    (hreadable : ∀ m ∈ coming, m.Readable limit) (h : d.InNext p coming) :
    d.Quiet ((messageFrames coming).take p) := by
  cases coming with
  | nil =>
      rw [message_frames_nil, List.take_nil]
      exact quiet_nil d
  | cons m later =>
      have hm := hreadable m List.mem_cons_self
      have hle : p ≤ m.frames.length := by
        rcases h with hlt | ⟨rfl, -⟩ <;> omega
      rw [message_frames_cons, List.take_append_of_le_length hle]
      cases m with
      | block b =>
          have hb := hm b rfl
          rcases h with hlt | ⟨-, hunwanted⟩
          · obtain ⟨hstate, houts⟩ := absorbed_part b hidle hb.1 hlt
            exact ⟨hstate, houts⟩
          · have hfirst : b.first ∈ b.frames := List.mem_cons_self
            have hwant := want_header_frame d b.first_is_header.1 (hb.1 _ hfirst)
            rw [hunwanted _ hfirst] at hwant
            cases hwant
      | other f hother =>
          rcases h with hlt | ⟨rfl, hunwanted⟩
          · obtain rfl : p = 0 := Nat.lt_one_iff.mp hlt
            exact quiet_nil d
          · have hwant : ∀ dec, ({ d with dec := dec } : Direction).absorb f =
                ({ d with dec := dec }, (none, none)) :=
              fun dec => absorb_of_unwanted (hunwanted f List.mem_cons_self)
            refine ⟨⟨d.block, d.blockHdr, d.blockPromised, fun dec => ?_⟩, ?_⟩
            · simp only [Message.frames, List.length_singleton, List.take_one, List.head?_cons,
                Option.toList_some, absorbed_singleton, hwant]
            · have hout : d.absorb f = (d, (none, none)) := hwant d.dec
              simp [Message.frames, absorbOutput, run, hout]

/-! ## Following the messages to come -/

section

variable {limit k j : Nat} {rest : Bytes} {start d : Direction} {coming : List Message}
  {delivery : Delivery}

/-- The frames of the messages that arrived come first. -/
theorem frames_of_arrived (left : Nat) (coming : List Message) :
    messageFrames coming =
      messageFrames (arrived left coming) ++ messageFrames (stillComing left coming) := by
  conv_lhs => rw [← arrived_append left coming]
  exact List.flatMap_append

/-- A settled direction has absorbed the messages that arrived and is in the next one. -/
theorem reads_in_next (hreadable : ∀ m ∈ coming, m.Readable limit)
    (h : Reads ⟨start, messageFrames coming, delivery⟩ k rest j d)
    (hsettled : Settled ⟨start, messageFrames coming, delivery⟩ j d) :
    let c := (messageFrames (arrived rest.length coming)).length
    c ≤ j ∧ (0 < d.discard → c < j) ∧ start.InNext (j - c) (stillComing rest.length coming) := by
  intro c
  have hframes := frames_of_arrived rest.length coming
  have hlength : (messageFrames coming).length =
      c + (messageFrames (stillComing rest.length coming)).length := by
    rw [hframes, List.length_append]
  obtain ⟨i, hfull, hcases⟩ := reads_in_full h hsettled
  simp only at hfull hcases
  have hdrop : ∀ n, (messageFrames coming).drop (c + n) =
      (messageFrames (stillComing rest.length coming)).drop n := by
    intro n
    rw [hframes, List.drop_append, List.drop_eq_nil_of_le (Nat.le_add_right _ _), List.nil_append,
      Nat.add_sub_cancel_left]
  have hci : c ≤ i := by
    refine (hfull.2 c (by omega)).mp ?_
    have hall : rest.length ≤ (framesWire (messageFrames coming)).length := by
      simpa using (hfull.2 0 (Nat.zero_le _)).mpr (Nat.zero_le _)
    have hle := left_le_still_coming hall
    rw [← List.drop_zero (l := messageFrames (stillComing rest.length coming)), ← hdrop] at hle
    exact hle
  refine ⟨?_, ?_, ?_⟩
  · rcases hcases with ⟨-, rfl⟩ | ⟨rfl, -⟩ <;> omega
  · intro hdiscard
    rcases hcases with ⟨hzero, -⟩ | ⟨rfl, -⟩ <;> omega
  · cases hcoming : stillComing rest.length coming with
    | nil =>
        rw [hcoming, message_frames_nil, List.length_nil] at hlength
        have hcount : j ≤ (messageFrames coming).length := h.count
        show j - c = 0
        omega
    | cons m later =>
        -- the next message is not received in full
        have hnext := next_not_arrived hcoming
        rw [hcoming, message_frames_cons] at hdrop
        have hlt : i < c + m.frames.length := by
          by_contra hge
          have hle := (hfull.2 i hfull.1).mpr (le_refl i)
          have hanti := frames_left_antitone (messageFrames coming)
            (show c + m.frames.length ≤ i by omega)
          rw [hdrop, List.drop_left] at hanti
          omega
        rcases hcases with ⟨-, rfl⟩ | ⟨rfl, f, hf, hwant, -⟩
        · exact Or.inl (by omega)
        · have hmem : f ∈ m.frames := by
            have hall := hdrop 0
            rw [Nat.add_zero, List.drop_zero] at hall
            have hget : (m.frames ++ messageFrames later)[i - c]? = m.frames[i - c]? :=
              List.getElem?_append_left (by omega)
            rw [← hall, List.getElem?_drop, Nat.add_sub_of_le hci, hf] at hget
            exact List.mem_of_getElem? hget.symm
          cases m with
          | block b =>
              have hm : (Message.block b).Readable limit := by
                refine hreadable _ ?_
                rw [← arrived_append rest.length coming, hcoming]
                exact List.mem_append_right _ List.mem_cons_self
              have hheader : f.hdr.isHeaderFrame = true := by
                rcases List.mem_cons.mp hmem with rfl | hmore
                · exact b.first_is_header.1
                · exact continuation_is_header (b.continues f hmore)
              rw [want_header_frame start hheader ((hm b rfl).1 f hmem)] at hwant
              cases hwant
          | other f' hother =>
              obtain rfl := List.mem_singleton.mp hmem
              have hone : (Message.other f hother).frames.length = 1 := rfl
              rw [hone] at hlt
              refine Or.inr ⟨by rw [hone]; omega, ?_⟩
              intro g hg
              obtain rfl := List.mem_singleton.mp hg
              exact hwant

/-- The direction after the messages that arrived goes on with those still to come. -/
theorem reads_still_coming (hreadable : ∀ m ∈ coming, m.Readable limit)
    (h : Reads ⟨start, messageFrames coming, delivery⟩ k rest j d)
    (hsettled : Settled ⟨start, messageFrames coming, delivery⟩ j d) :
    let seen := messageFrames (arrived rest.length coming)
    let src : Source := ⟨start.absorbed seen,
      messageFrames (stillComing rest.length coming), delivery⟩
    Reads src k rest (j - seen.length) d ∧ Settled src (j - seen.length) d ∧
      start.absorbOutput ((messageFrames coming).take j) = start.absorbOutput seen ++
        src.start.absorbOutput (src.frames.take (j - seen.length)) := by
  intro seen src
  obtain ⟨hle, hlt, -⟩ : seen.length ≤ j ∧ (0 < d.discard → seen.length < j) ∧ _ :=
    reads_in_next hreadable h hsettled
  have hframes : messageFrames coming = seen ++ src.frames := frames_of_arrived _ _
  have htake : (messageFrames coming).take j = seen ++ src.frames.take (j - seen.length) := by
    rw [hframes, List.take_append, List.take_of_length_le hle]
  have hget : ∀ n, (messageFrames coming)[seen.length + n]? = src.frames[n]? := by
    intro n
    rw [hframes, List.getElem?_append_right (Nat.le_add_right _ _), Nat.add_sub_cancel_left]
  have hdrop : (messageFrames coming).drop j = src.frames.drop (j - seen.length) := by
    rw [hframes, List.drop_append, List.drop_eq_nil_of_le hle, List.nil_append]
  have hcount : j ≤ (messageFrames coming).length := h.count
  have hwant : ∀ hdr, src.start.wantPayload hdr = start.wantPayload hdr :=
    fun hdr => want_payload_absorbed start seen hdr
  refine ⟨?_, ?_, ?_⟩
  · exact {
      count := by
        rw [hframes, List.length_append] at hcount
        omega
      handled := by
        obtain ⟨n, hhandled⟩ := h.handled
        refine ⟨n, ?_⟩
        have hkeep : src.start.keepPayloads = start.keepPayloads :=
          (same_position_absorbed start seen).keepPayloads
        rw [hkeep, ← absorbed_append, ← htake]
        exact hhandled
      bytes := by
        rw [← hdrop]
        exact h.bytes
      dropping := by
        intro hdiscard
        have hpast := hlt hdiscard
        obtain ⟨i, f, rfl, hf, hunwanted, hlen⟩ := h.dropping hdiscard
        refine ⟨i - seen.length, f, by omega, ?_, (hwant _).trans hunwanted, hlen⟩
        rw [← hget, Nat.add_sub_of_le (by omega)]
        exact hf
      synced := h.synced
      order := h.order }
  · have hnext := hget (j - seen.length)
    rw [Nat.add_sub_of_le hle] at hnext
    simp only [Settled, hnext, hwant] at hsettled ⊢
    exact hsettled
  · rw [htake, absorb_output_append]

/-- A direction that has decoded the messages that arrived has not lost its place. -/
theorem not_lost {v : Encoder} (hreadable : ∀ m ∈ coming, m.Readable limit)
    (hready : (start.absorbed (messageFrames (arrived rest.length coming))).Ready limit v) :
    ¬ Lost ⟨start, messageFrames coming, delivery⟩ rest d := by
  intro hlost
  obtain ⟨j, hj, hdesynced, hleft⟩ := hlost.frame
  simp only at hj hdesynced hleft
  have hframes := frames_of_arrived rest.length coming
  generalize hseen : messageFrames (arrived rest.length coming) = seen at hready hframes
  rw [hframes] at hj hdesynced hleft
  rcases Nat.le_total j seen.length with hle | hle
  · -- at a message that arrived
    rw [List.take_append_of_le_length hle] at hdesynced
    have hsplit : start.absorbed seen =
        (start.absorbed (seen.take j)).absorbed (seen.drop j) := by
      rw [← absorbed_append, List.take_append_drop]
    have hsticky := (absorbed_sticky (start.absorbed (seen.take j)) (seen.drop j)).1
      (Or.inl hdesynced)
    rw [← hsplit] at hsticky
    exact hready.has_place hsticky
  · -- in the next message
    rw [List.take_append, List.take_of_length_le hle, absorbed_append] at hdesynced
    rw [List.drop_append, List.drop_eq_nil_of_le hle, List.nil_append] at hleft
    rw [List.length_append] at hj
    have hin : (start.absorbed seen).InNext (j - seen.length)
        (stillComing rest.length coming) := by
      cases hcoming : stillComing rest.length coming with
      | nil =>
          rw [hcoming, message_frames_nil, List.length_nil] at hj
          show j - seen.length = 0
          omega
      | cons m later =>
          have hnext := next_not_arrived hcoming
          refine Or.inl ?_
          by_contra hge
          have hanti := frames_left_antitone (m.frames ++ messageFrames later)
            (Nat.le_of_not_lt hge)
          rw [hcoming, message_frames_cons] at hleft
          rw [List.drop_left] at hanti
          omega
    have hlater : ∀ m ∈ stillComing rest.length coming, m.Readable limit :=
      fun m hm => hreadable m (List.mem_of_mem_drop hm)
    obtain ⟨block, hdr, promised, hstate⟩ := (quiet_in_next hready.idle hlater hin).state
    have hend := hstate (start.absorbed seen).dec
    rw [hend] at hdesynced
    rw [hready.place.1] at hdesynced
    cases hdesynced

end

/-! ## Between two arrivals -/

/-- Where the direction is: at the preface, or in the messages still to come, of which none has
arrived. -/
structure ObservedFrom (limit : Nat) (base : Seq) (stream : Bytes) (v : Encoder)
    (coming : List Message) (start : Direction) (k : Nat) (d : Direction) : Prop where
  received : k ≤ stream.length
  ready : start.Ready limit v
  at_frame : start.atFrame = true
  follows : AwaitsPreface ⟨start, messageFrames coming, .anyOrder base stream⟩ k (stream.drop k) d ∨
    ∃ j, Reads ⟨start, messageFrames coming, .anyOrder base stream⟩ k (stream.drop k) j d ∧
      Settled ⟨start, messageFrames coming, .anyOrder base stream⟩ j d
  none_arrived : arrived (stream.drop k).length coming = []

/-- The direction observes an endpoint whose table holds `v` and which has the messages `coming` to
send. -/
structure Observed (limit : Nat) (base : Seq) (stream : Bytes) (v : Encoder)
    (coming : List Message) (d : Direction) : Prop where
  sender : ∃ e, v.Within e ∧ e.Sends coming
  readable : ∀ m ∈ coming, m.Readable limit
  place : ∃ start k, ObservedFrom limit base stream v coming start k d

section

variable {limit k : Nat} {base : Seq} {stream : Bytes} {v : Encoder} {coming : List Message}
  {start d : Direction}

theorem ObservedFrom.holds (h : ObservedFrom limit base stream v coming start k d) :
    d.reasm.Collected base stream k := by
  rcases h.follows with hawaits | ⟨j, hreads, -⟩
  · exact hawaits.order
  · exact hreads.order

/-- With nothing arrived, the direction is in the next message. -/
theorem in_next_of_none_arrived {j : Nat} {rest : Bytes} {delivery : Delivery}
    (hreadable : ∀ m ∈ coming, m.Readable limit) (hnone : arrived rest.length coming = [])
    (h : Reads ⟨start, messageFrames coming, delivery⟩ k rest j d)
    (hsettled : Settled ⟨start, messageFrames coming, delivery⟩ j d) : start.InNext j coming := by
  have hnext := (reads_in_next hreadable h hsettled).2.2
  simpa only [stillComing, hnone, message_frames_nil, List.length_nil, List.drop_zero,
    Nat.sub_zero] using hnext

/-- Where nothing has arrived nothing was returned. -/
theorem ObservedFrom.outs (h : ObservedFrom limit base stream v coming start k d)
    (hreadable : ∀ m ∈ coming, m.Readable limit) :
    ∃ outs, blocksOf outs = [] ∧ sizesOf outs = [] ∧
      Follows ⟨start, messageFrames coming, .anyOrder base stream⟩
        (AwaitsPreface ⟨start, messageFrames coming, .anyOrder base stream⟩) k (stream.drop k)
        outs d := by
  rcases h.follows with hawaits | ⟨j, hreads, hsettled⟩
  · exact ⟨[], rfl, rfl, Or.inr (Or.inl ⟨hawaits, rfl⟩)⟩
  · have hquiet := quiet_in_next h.ready.idle hreadable
      (in_next_of_none_arrived hreadable h.none_arrived hreads hsettled)
    obtain ⟨hblocks, hsizes⟩ := nothing_returned _ hquiet.outs
    exact ⟨_, hblocks, hsizes, Or.inr (Or.inr ⟨j, hreads, hsettled, rfl⟩)⟩

/-- No message has arrived while the bytes to come are those of all of them. -/
theorem arrived_nil {left : Nat} (h : (framesWire (messageFrames coming)).length ≤ left) :
    arrived left coming = [] := by
  cases coming with
  | nil => rfl
  | cons m later =>
      have hnot : ¬ left ≤ (framesWire (messageFrames later)).length := by
        have hpos := m.wire_length_pos
        rw [message_frames_cons, framesWire, List.flatMap_append, List.length_append] at h
        simp only [framesWire] at hpos ⊢
        omega
      simp only [arrived, hnot, if_false]

/-- The sizes that the opposite direction announces change the table between two arrivals. -/
theorem Observed.lower (h : Observed limit base stream v coming d) (n : Nat) :
    Observed limit base stream (v.lower n) coming (d.applyPeerCapacity n) := by
  obtain ⟨⟨e, hwithin, hsends⟩, hreadable, start, k, hfrom⟩ := h
  refine ⟨⟨e, hwithin.lower n, hsends⟩, hreadable,
    { start with dec := start.dec.applyPeerCapacity n }, k, ?_⟩
  have hready := hfrom.ready
  refine ⟨hfrom.received, ⟨hready.dec.apply_peer_capacity n, ?_, hready.idle, hready.place⟩,
    hfrom.at_frame, ?_, hfrom.none_arrived⟩
  · have hcapacity := hready.capacity
    unfold Encoder.lower
    split
    · next hlower => exact hlower.trans hcapacity
    · exact hcapacity
  · rcases hfrom.follows with hawaits | ⟨j, hreads, hsettled⟩
    · left
      refine ⟨?_, hawaits.bytes, hawaits.short, hawaits.order⟩
      have hwaiting := hawaits.waiting
      simp only [Direction.applyPeerCapacity] at hwaiting ⊢
      rw [hwaiting]
    · right
      have hin := in_next_of_none_arrived hreadable hfrom.none_arrived hreads hsettled
      obtain ⟨block, hdr, promised, hstate⟩ := (quiet_in_next hready.idle hreadable hin).state
      obtain ⟨n', hhandled⟩ := hreads.handled
      have hbefore := hstate start.dec
      simp only at hhandled hbefore
      rw [hbefore] at hhandled
      refine ⟨j, ⟨hreads.count, ⟨n', ?_⟩, hreads.bytes, hreads.dropping, hreads.synced,
        hreads.order⟩, hsettled⟩
      simp only [hstate, Direction.applyPeerCapacity]
      rw [hhandled]
      rfl

/-- After a segment, when the messages that have arrived are valid for the table: they are decoded
to what the sender means, and the direction goes on with those still to come. -/
theorem observed_follows {v' : Encoder} {outs : List (Option DecodedBlock × Option Nat)}
    (hsender : ∃ e, v.Within e ∧ e.Sends coming) (hreadable : ∀ m ∈ coming, m.Readable limit)
    (hk : k ≤ stream.length) (hready : start.Ready limit v) (hat : start.atFrame = true)
    (hfollows : Follows ⟨start, messageFrames coming, .anyOrder base stream⟩
      (AwaitsPreface ⟨start, messageFrames coming, .anyOrder base stream⟩) k (stream.drop k) outs d)
    (hvalid : v.sendAll (arrived (stream.drop k).length coming) = some v') :
    Observed limit base stream v' (stillComing (stream.drop k).length coming) d ∧
      List.Forall₂ DecodedBlock.Conveys (blocksOf outs)
        ((arrived (stream.drop k).length coming).filterMap Message.headerBlock) ∧
      sizesOf outs = (arrived (stream.drop k).length coming).filterMap Message.tableSize := by
  obtain ⟨e, hwithin, hsends⟩ := hsender
  have hreadable' : ∀ m ∈ stillComing (stream.drop k).length coming, m.Readable limit :=
    fun m hm => hreadable m (List.mem_of_mem_drop hm)
  rw [← arrived_append (stream.drop k).length coming] at hsends
  obtain ⟨hready', hblocks, hsizes, e', hwithin', hsends'⟩ := absorbed_messages hready hwithin
    hsends (fun m hm => hreadable m (by
      rw [← arrived_append (stream.drop k).length coming]
      exact List.mem_append_left _ hm)) hvalid
  rcases hfollows with hlost | ⟨hawaits, rfl⟩ | ⟨j, hreads, hsettled, rfl⟩
  · exact absurd hlost (not_lost hreadable hready')
  · have hnone : arrived (stream.drop k).length coming = [] := by
      refine arrived_nil ?_
      have hbytes := congrArg List.length hawaits.bytes
      have hshort := hawaits.short
      simp only [List.length_append] at hbytes
      omega
    rw [hnone] at hvalid
    obtain rfl := Option.some.inj hvalid
    rw [stillComing, hnone] at hsends' ⊢
    exact ⟨⟨⟨e', hwithin', hsends'⟩, hreadable, start, k, hk, hready, hat, Or.inl hawaits, hnone⟩,
      .nil, rfl⟩
  · obtain ⟨hreads', hsettled', houts⟩ := reads_still_coming hreadable hreads hsettled
    have hposition := same_position_absorbed start
      (messageFrames (arrived (stream.drop k).length coming))
    have hat' : (start.absorbed (messageFrames (arrived (stream.drop k).length coming))).atFrame =
        true := by
      simp only [atFrame, Bool.and_eq_true, beq_iff_eq, Bool.not_eq_true'] at hat ⊢
      rw [hposition.discard, hposition.pendingStartSeq, hposition.expectPreface]
      exact ⟨⟨hat.1.1, hready'.place.1⟩, hat.2⟩
    have hnone := arrived_still_coming (stream.drop k).length coming
    have hquiet := quiet_in_next hready'.idle hreadable'
      (in_next_of_none_arrived hreadable' hnone hreads' hsettled')
    obtain ⟨hnoBlocks, hnoSizes⟩ := nothing_returned _ hquiet.outs
    simp only at houts
    rw [houts, blocks_of_append, sizes_of_append, hnoBlocks, hnoSizes, List.append_nil,
      List.append_nil]
    exact ⟨⟨⟨e', hwithin', hsends'⟩, hreadable', _, k, hk, hready', hat',
      Or.inr ⟨_, hreads', hsettled'⟩, hnone⟩, hblocks, hsizes⟩

/-- The number of bytes still to come after a segment. -/
def bytesLeft (base : Seq) (stream : Bytes) (d : Direction) (start len nowUs : Nat) : Nat :=
  stream.length - (d.reasm.push (base + BitVec.ofNat 32 start) ((stream.drop start).take len)
    nowUs).1.deliveredOff

/-- A segment of the stream. -/
theorem observed_segment {v' : Encoder} {from' len nowUs : Nat}
    (h : Observed limit base stream v coming d)
    (hwindow : d.arrivesInWindow base stream (.segment from' len nowUs))
    (hvalid : v.sendAll (arrived (d.bytesLeft base stream from' len nowUs) coming) = some v') :
    let fed := d.arrive base stream (.segment from' len nowUs)
    let seen := arrived (d.bytesLeft base stream from' len nowUs) coming
    fed.1.Observed limit base stream v' (coming.drop seen.length) ∧
      List.Forall₂ DecodedBlock.Conveys (decodedBlocks fed.2) (seen.filterMap Message.headerBlock) ∧
      settingsSizes fed.2 = seen.filterMap Message.tableSize := by
  obtain ⟨start, k, hfrom⟩ := h.place
  obtain ⟨outs, hnoBlocks, hnoSizes, hfollows⟩ := hfrom.outs h.readable
  have hholds := hfrom.holds
  obtain ⟨hlen, hlow, hhigh, hgap⟩ := hwindow
  rw [hholds.collecting.deliveredOff] at hlow hhigh
  have hshort : ((stream.drop from').take len).length < 2 ^ 30 :=
    (List.length_take_le _ _).trans_lt hlen
  obtain ⟨more, ⟨rest, hrest⟩, hadds⟩ :=
    adds_slice hholds (List.take_prefix len (stream.drop from')) hlow hhigh hshort nowUs hgap
  have hlengths := congrArg List.length hrest
  rw [List.length_append, List.length_drop] at hlengths
  have hreceived := hfrom.received
  have hdrop : stream.drop (k + more.length) = rest := by
    rw [← List.drop_drop, ← hrest, List.drop_left]
  have hleft : d.bytesLeft base stream from' len nowUs =
      (stream.drop (k + more.length)).length := by
    have hdelivered := (Reassembler.Collected.collecting hadds.holds).deliveredOff
    simp only [bytesLeft, hdelivered, List.length_drop]
  rw [← hrest] at hfollows
  have hnext := follows_received (fun hawaits =>
    awaits_preface_received hfrom.at_frame hawaits hadds) (fun _ => hadds) hfollows
  rw [← hdrop] at hnext
  rw [hleft] at hvalid ⊢
  have hobserved := observed_follows h.sender h.readable (by omega) hfrom.ready hfrom.at_frame
    hnext hvalid
  simp only [blocks_of_append, sizes_of_append, hnoBlocks, hnoSizes, List.nil_append,
    blocks_of_frame_outputs, sizes_of_frame_outputs] at hobserved
  exact hobserved

end

end Direction

end H2Tap
