import H2Tap.Conn.Held
import H2Tap.Tracker.Delivered

/-!
# Duplicates

A segment of a connection is delivered once more, at some later point. `Twins` relates the two runs
from then on: the directions of one side differ in what they hold. As long as nothing else sets the
copy apart, both runs end with the same tables at the same place (`duplicate_harmless`). What does
set it apart is a bare SYN: the tracker takes it for a new connection (`repeated_syn_resets`).
-/

namespace H2Tap

namespace Reassembler

variable {segment : Seq × Bytes} {r twin : Reassembler}

theorem Twin.note_syn (h : Twin segment r twin) (seq : Seq) :
    Twin segment (r.noteSyn seq) (twin.noteSyn seq) := by
  have hnoted := h.accounted_twin.note_syn seq
  obtain ⟨held, m, since, rfl, hrepeated⟩ := h.exists_held
  have hsame : (r.noteSyn seq).ooo = r.ooo ∧
      (r.withHeld held m since).noteSyn seq = (r.noteSyn seq).withHeld held m since := by
    have hinit : (r.withHeld held m since).initialized = r.initialized := rfl
    unfold noteSyn
    rw [hinit]
    split <;> exact ⟨rfl, rfl⟩
  obtain ⟨hooo, hwith⟩ := hsame
  rw [hwith] at hnoted ⊢
  exact ⟨h.accounted.note_syn seq, hnoted, held, m, since, rfl, by rw [hooo]; exact hrepeated⟩

end Reassembler

/-! ## Directions -/

namespace Direction

/-- A direction, and the same one after a second copy of a segment. -/
def Twins (segment : Seq × Bytes) (d twin : Direction) : Prop :=
  ∃ r, twin = { d with reasm := r } ∧ d.reasm.Twin segment r

variable {segment : Seq × Bytes} {d twin : Direction} {seg : TcpSegment}

theorem Twins.noted (h : Twins segment d twin) (seg : TcpSegment) :
    Twins segment (d.noted seg) (twin.noted seg) := by
  obtain ⟨r, rfl, htwin⟩ := h
  unfold Direction.noted
  split
  · exact ⟨_, rfl, htwin.note_syn seg.seq⟩
  · exact ⟨_, rfl, htwin⟩

/-- A table size changes the decoders alike. -/
theorem Twins.peer_capacities (h : Twins segment d twin) (sizes : List Nat) :
    Twins segment (sizes.foldl applyPeerCapacity d) (sizes.foldl applyPeerCapacity twin) := by
  induction sizes generalizing d twin with
  | nil => exact h
  | cons n sizes ih =>
      obtain ⟨r, rfl, htwin⟩ := h
      exact ih ⟨r, rfl, htwin⟩

variable [HuffmanDecoding]

/-- Both parsers read the same bytes, and do not see what is held. -/
theorem Twins.parse (h : Twins segment d twin) :
    Twins segment d.parse.1 twin.parse.1 ∧ twin.parse.2 = d.parse.2 := by
  obtain ⟨r, rfl, htwin⟩ := h
  have hparsed : d.parse.1.reasm.Accounted ∧ d.parse.1.reasm.ooo = d.reasm.ooo := by
    obtain ⟨-, -, hooo, -⟩ := Reassembler.reads_of_outside_eq (outside_parse d)
    exact ⟨reasm_parse (fun _ n hr => hr.consume n) htwin.accounted, hooo⟩
  have hparsed' : ({ d with reasm := r } : Direction).parse.1.reasm.Accounted :=
    reasm_parse (fun _ n hr => hr.consume n) htwin.accounted_twin
  obtain ⟨held, n, since, rfl, hrepeated⟩ := htwin.exists_held
  have hwith : ({ d with reasm := d.reasm.withHeld held n since } : Direction).parse =
      (d.parse.1.withHeld held n since, d.parse.2) := parse_with_held d held n since
  rw [hwith] at hparsed' ⊢
  exact ⟨⟨_, rfl, hparsed.1, hparsed', held, n, since, rfl, by rw [hparsed.2]; exact hrepeated⟩,
    rfl⟩

/-- Both directions treat a segment alike. -/
theorem Twins.feed (h : Twins segment d twin) {seq : Seq} {data : Bytes}
    (hbudget : d.reasm.heldBytes + data.length ≤ 2 ^ 31)
    (hroom : d.reasm.RoomForBoth segment seq data) (nowUs : Nat) :
    Twins segment (d.feed seq data nowUs).1 (twin.feed seq data nowUs).1 ∧
      (twin.feed seq data nowUs).2 = (d.feed seq data nowUs).2 := by
  obtain ⟨r, rfl, htwin⟩ := h
  obtain ⟨hpushed, hgap⟩ := htwin.push hbudget hroom nowUs
  refine Twins.parse ?_
  dsimp only
  unfold withReassembled
  rw [hgap]
  split
  · exact ⟨_, rfl, hpushed⟩
  · exact ⟨_, rfl, hpushed⟩

omit [HuffmanDecoding] in
/-- A SYN changes nothing once something is held. -/
theorem reasm_noted (h : d.reasm.Accounted) (seg : TcpSegment) :
    (d.noted seg).reasm.ooo = d.reasm.ooo ∧ (d.noted seg).reasm.oooBytes = d.reasm.oooBytes ∧
      (d.reasm.ooo ≠ [] → d.noted seg = d) := by
  unfold Direction.noted
  split
  · unfold Reassembler.noteSyn
    split
    · exact ⟨rfl, rfl, fun _ => rfl⟩
    · next hinit =>
        obtain ⟨-, hnone⟩ := h.unstarted (by simpa using hinit)
        exact ⟨rfl, rfl, fun hsome => absurd hnone hsome⟩
  · exact ⟨rfl, rfl, fun _ => rfl⟩

/-- What is held with a segment stays below half of the number space. -/
def WithinSpace (d : Direction) (seg : TcpSegment) : Prop :=
  d.reasm.oooBytes + seg.payload.length ≤ 2 ^ 31

omit [HuffmanDecoding] in
theorem held_noted (h : d.reasm.Accounted) (hspace : d.WithinSpace seg) :
    (d.noted seg).reasm.heldBytes + seg.payload.length ≤ 2 ^ 31 := by
  have hbytes := h.oooBytes
  have hsame : (d.noted seg).reasm.heldBytes = d.reasm.heldBytes := by
    rw [Reassembler.heldBytes, Reassembler.heldBytes, (reasm_noted h seg).1]
  rw [hsame, ← hbytes]
  exact hspace

/-- Both directions treat a segment alike. -/
theorem Twins.on_segment (h : Twins segment d twin) (hspace : d.WithinSpace seg)
    (hroom : d.reasm.RoomForBoth segment seg.seq seg.payload) (nowUs : Nat) :
    Twins segment (d.onSegment seg nowUs).1 (twin.onSegment seg nowUs).1 ∧
      (twin.onSegment seg nowUs).2 = (d.onSegment seg nowUs).2 := by
  have haccounted : d.reasm.Accounted := by
    obtain ⟨r, -, htwin⟩ := h
    exact htwin.accounted
  unfold Direction.onSegment
  split
  · exact ⟨h.noted seg, rfl⟩
  · refine (h.noted seg).feed (held_noted haccounted hspace) ?_ nowUs
    intro hmem
    rw [(reasm_noted haccounted seg).1] at hmem
    rw [(reasm_noted haccounted seg).2.2 (List.ne_nil_of_mem hmem)]
    exact hroom hmem

/-- What a direction keeps: its counters are right, and its parser awaits more bytes. -/
structure Tended (d : Direction) : Prop where
  accounted : d.reasm.Accounted
  awaiting : d.Awaiting

theorem Tended.noted (h : d.Tended) (seg : TcpSegment) : (d.noted seg).Tended := by
  unfold Direction.noted
  split
  · refine ⟨h.accounted.note_syn seg.seq, h.awaiting.congr d.dec ?_⟩
    unfold Reassembler.noteSyn
    split <;> rfl
  · exact h

theorem Tended.on_segment (h : d.Tended) (seg : TcpSegment) (nowUs : Nat) :
    (d.onSegment seg nowUs).1.Tended := by
  have hnoted := h.noted seg
  unfold Direction.onSegment
  split
  · exact hnoted
  · refine ⟨reasm_feed (fun _ n hr => hr.consume n) (hnoted.accounted.push _ _ _), ?_⟩
    refine awaiting_parse ?_
    unfold withReassembled
    split <;> exact hnoted.awaiting.1

theorem Tended.peer_capacities (h : d.Tended) (sizes : List Nat) :
    (sizes.foldl applyPeerCapacity d).Tended := by
  induction sizes generalizing d with
  | nil => exact h
  | cons n sizes ih => exact ih ⟨h.accounted, h.awaiting.congr _ rfl⟩

/-- What was had stays had when more segments arrive. -/
theorem had_on_segment {p : Int} (h : d.reasm.Had p segment) (hspace : d.WithinSpace seg)
    (nowUs : Nat) : (d.onSegment seg nowUs).1.reasm.Had p segment := by
  have hheld := held_noted h.accounted hspace
  have hnoted : (d.noted seg).reasm = d.reasm := by
    unfold Direction.noted
    split
    · show d.reasm.noteSyn seg.seq = d.reasm
      rw [Reassembler.noteSyn, if_pos h.initialized]
    · rfl
  refine reasm_on_segment (fun _ n hr => hr.consume n) ?_
  rw [reasm_received, hnoted]
  rw [hnoted] at hheld
  exact h.push hheld seg.seq nowUs

instance (d : Direction) (seg : TcpSegment) : Decidable (d.WithinSpace seg) :=
  inferInstanceAs (Decidable (_ ≤ _))

/-- Where a segment belongs, by the state in which it arrives. -/
def placeOf (d : Direction) (seg : TcpSegment) : Int :=
  ((d.noted seg).reasm.start seg.seq).placeOf seg.seq

/-- The segment itself is had after it. -/
theorem had_on_segment_self (h : d.Tended) (hdata : seg.payload ≠ []) (hspace : d.WithinSpace seg)
    (nowUs : Nat) :
    (d.onSegment seg nowUs).1.reasm.Had (d.placeOf seg) (seg.seq, seg.payload) := by
  refine reasm_on_segment (fun _ n hr => hr.consume n) ?_
  rw [reasm_received]
  exact Reassembler.had_push_self (h.noted seg).accounted hdata (held_noted h.accounted hspace)
    nowUs

/-- A segment that was received: its SYN was noted, and its payload is had. -/
structure Received (p : Int) (seg : TcpSegment) (d : Direction) : Prop where
  syn : seg.has TcpFlags.syn = true → d.reasm.initialized = true
  had : seg.payload ≠ [] → d.reasm.Had p (seg.seq, seg.payload)

omit [HuffmanDecoding] in
theorem initialized_noted (seg : TcpSegment)
    (h : seg.has TcpFlags.syn = true ∨ d.reasm.initialized = true) :
    (d.noted seg).reasm.initialized = true := by
  unfold Direction.noted
  split
  · show (d.reasm.noteSyn seg.seq).initialized = true
    unfold Reassembler.noteSyn
    split
    · assumption
    · rfl
  · next hsyn => exact h.resolve_left hsyn

/-- A direction starts with a SYN and stays started. -/
theorem initialized_on_segment {seg : TcpSegment}
    (h : seg.has TcpFlags.syn = true ∨ d.reasm.initialized = true) (nowUs : Nat) :
    (d.onSegment seg nowUs).1.reasm.initialized = true := by
  have hnoted := initialized_noted seg h
  refine reasm_on_segment (P := fun r => r.initialized = true) (fun r n hr => ?_) ?_
  · obtain ⟨-, -, -, -, -, -, -, hinit, -⟩ :=
      Reassembler.reads_of_outside_eq (Reassembler.outside_consume r n)
    exact hinit.trans hr
  · rw [reasm_received]
    by_cases hempty : seg.payload = []
    · rw [hempty]
      exact hnoted
    · exact (Reassembler.push_keeps _ _ _ _).2 hempty

/-- A segment is received when it arrives. -/
theorem received_on_segment (h : d.Tended) (hspace : d.WithinSpace seg) (nowUs : Nat) :
    (d.onSegment seg nowUs).1.Received (d.placeOf seg) seg :=
  ⟨fun hsyn => initialized_on_segment (Or.inl hsyn) nowUs,
    fun hdata => had_on_segment_self h hdata hspace nowUs⟩

theorem Received.on_segment {p : Int} {orig : TcpSegment} (h : d.Received p orig)
    (hspace : d.WithinSpace seg) (nowUs : Nat) : (d.onSegment seg nowUs).1.Received p orig :=
  ⟨fun hsyn => initialized_on_segment (Or.inr (h.syn hsyn)) nowUs,
    fun hdata => had_on_segment (h.had hdata) hspace nowUs⟩

omit [HuffmanDecoding] in
theorem Received.peer_capacities {p : Int} (h : d.Received p seg) (sizes : List Nat) :
    (sizes.foldl applyPeerCapacity d).Received p seg := by
  obtain ⟨hsyn, hhad⟩ := h
  rw [← reasm_peer_capacities sizes d] at hsyn hhad
  exact ⟨hsyn, hhad⟩

/-- The second copy of a received segment leaves the direction as it is, or is held beside the
first. -/
theorem Received.on_segment_again {p : Int} (h : d.Received p seg) (htended : d.Tended)
    (hrecent : seg.payload ≠ [] → (d.reasm.deliveredOff : Int) ≤ p + 2 ^ 31)
    (hroom : (seg.seq, seg.payload) ∈ d.reasm.ooo →
      d.reasm.oooBytes + seg.payload.length ≤ d.reasm.oooLimit) (nowUs : Nat) :
    Twins (seg.seq, seg.payload) d (d.onSegment seg nowUs).1 ∧ (d.onSegment seg nowUs).2 = [] := by
  have hsame : d.noted seg = d := by
    unfold Direction.noted
    split
    · next hsyn =>
        rw [Reassembler.noteSyn, if_pos (h.syn hsyn)]
    · rfl
  unfold Direction.onSegment
  rw [hsame]
  split
  · exact ⟨⟨d.reasm, rfl, htended.accounted, htended.accounted, _, _, _, rfl, Or.inl rfl⟩, rfl⟩
  · next hempty =>
      have hdata : seg.payload ≠ [] := by rwa [List.isEmpty_iff] at hempty
      obtain ⟨htwin, hgap⟩ := (h.had hdata).push_again hdata (hrecent hdata) hroom nowUs
      have hpushed : Twins (seg.seq, seg.payload) d
          (d.withReassembled (d.reasm.push seg.seq seg.payload nowUs)) := by
        unfold withReassembled
        rw [hgap]
        exact ⟨_, rfl, htwin⟩
      -- the parser has done what it can already
      obtain ⟨hparsed, hframes⟩ := hpushed.parse
      rw [htended.awaiting.parse_eq] at hparsed hframes
      exact ⟨hparsed, hframes⟩

/-! ## Both directions -/

/-- The directions of a connection, and the same ones after a second copy of a segment. -/
structure BothTwins (segment : Seq × Bytes) (isC2s : Bool) (dirs twin : Bool → Direction) :
    Prop where
  copied : Twins segment (dirs isC2s) (twin isC2s)
  other : twin (!isC2s) = dirs (!isC2s)

variable {dirs twins : Bool → Direction} {isC2s : Bool}

/-- Both runs treat a segment alike. -/
theorem BothTwins.on_segment (h : BothTwins segment isC2s dirs twins) {side : Bool}
    (hspace : side = isC2s → (dirs isC2s).WithinSpace seg)
    (hroom : side = isC2s → (dirs isC2s).reasm.RoomForBoth segment seg.seq seg.payload)
    (nowUs : Nat) :
    BothTwins segment isC2s (bothOnSegment dirs side seg nowUs)
      (bothOnSegment twins side seg nowUs) := by
  have hne : (!isC2s) ≠ isC2s := by simp
  rcases Bool.eq_or_eq_not side isC2s with rfl | rfl
  · obtain ⟨hcopied, hframes⟩ := h.copied.on_segment (hspace rfl) (hroom rfl) nowUs
    constructor
    · simp only [bothOnSegment, if_true]
      exact hcopied
    · simp only [bothOnSegment, if_neg hne, hframes, h.other]
  · constructor
    · simp only [bothOnSegment, if_neg hne.symm, h.other]
      exact h.copied.peer_capacities _
    · simp only [bothOnSegment, if_true, h.other]

theorem tended_both (h : ∀ side, (dirs side).Tended) (isC2s : Bool) (seg : TcpSegment)
    (nowUs : Nat) (side : Bool) : (bothOnSegment dirs isC2s seg nowUs side).Tended := by
  unfold bothOnSegment
  split
  · exact (h isC2s).on_segment seg nowUs
  · exact (h side).peer_capacities _

theorem received_both {p : Int} {orig : TcpSegment} (h : (dirs isC2s).Received p orig)
    {side : Bool} (hspace : side = isC2s → (dirs isC2s).WithinSpace seg) (nowUs : Nat) :
    (bothOnSegment dirs side seg nowUs isC2s).Received p orig := by
  unfold bothOnSegment
  split
  · next hside =>
      rw [← hside]
      exact h.on_segment (hspace hside.symm) nowUs
  · exact h.peer_capacities _

/-- The second copy of a received segment. -/
theorem both_twins_again {p : Int} (h : (dirs isC2s).Received p seg)
    (htended : (dirs isC2s).Tended)
    (hrecent : seg.payload ≠ [] → ((dirs isC2s).reasm.deliveredOff : Int) ≤ p + 2 ^ 31)
    (hroom : (seg.seq, seg.payload) ∈ (dirs isC2s).reasm.ooo →
      (dirs isC2s).reasm.oooBytes + seg.payload.length ≤ (dirs isC2s).reasm.oooLimit)
    (nowUs : Nat) :
    BothTwins (seg.seq, seg.payload) isC2s dirs (bothOnSegment dirs isC2s seg nowUs) := by
  obtain ⟨hcopied, hframes⟩ := h.on_segment_again htended hrecent hroom nowUs
  have hne : (!isC2s) ≠ isC2s := by simp
  constructor
  · simp only [bothOnSegment, if_true]
    exact hcopied
  · simp only [bothOnSegment, if_neg hne, hframes]
    rfl

end Direction

/-! ## Runs of a connection -/

open Lib Direction

/-- What is compared of a direction: its table, where its next frame starts, and in what state it
is. -/
structure DirView where
  table : List Field
  nextFrameSeq : Seq
  poisoned : Bool
  desynced : Bool
  snapshottable : Bool
  deriving DecidableEq

def Direction.view (d : Direction) : DirView where
  table := d.dec.table
  nextFrameSeq := d.nextFrameSeq
  poisoned := d.poisoned
  desynced := d.desynced
  snapshottable := d.isSnapshottable

namespace TrackedConn

/-- The side that sent a segment: the client is `true`. -/
def sender (c : TrackedConn) (seg : EthSegment) : Bool := seg.src == c.client

/-- What is compared of both directions. -/
def view (c : TrackedConn) : DirView × DirView := (c.c2s.dir.view, c.s2c.dir.view)

section

variable [HuffmanDecoding]

/-- A connection gets a segment. -/
def accept (c : TrackedConn) (arrival : EthSegment × Nat) : TrackedConn × Unit :=
  let (seg, ts) := arrival
  ({ c with toConn := (c.toConn.onSegment (c.sender seg) seg.toTcpSegment ts).1 }, ())

end

/-- Where the payload of a segment belongs in the stream of its sender. -/
def placeOf (c : TrackedConn) (seg : EthSegment) : Int :=
  (c.dirs (c.sender seg)).placeOf seg.toTcpSegment

/-- What is held with a segment of one side stays below half of the number space. -/
def HasSpace (isC2s : Bool) (c : TrackedConn) (arrival : EthSegment × Nat) : Prop :=
  c.sender arrival.1 = isC2s → (c.dirs isC2s).WithinSpace arrival.1.toTcpSegment

/-- Also, the limit would not be exceeded only because `copied` is held twice. -/
def HasRoom (isC2s : Bool) (copied : TcpSegment) (c : TrackedConn)
    (arrival : EthSegment × Nat) : Prop :=
  c.HasSpace isC2s arrival ∧ (c.sender arrival.1 = isC2s →
    (c.dirs isC2s).reasm.RoomForBoth (copied.seq, copied.payload) arrival.1.seq arrival.1.payload)

instance (isC2s : Bool) (c : TrackedConn) (arrival : EthSegment × Nat) :
    Decidable (c.HasSpace isC2s arrival) := inferInstanceAs (Decidable (_ → _))

instance (isC2s : Bool) (copied : TcpSegment) (c : TrackedConn) (arrival : EthSegment × Nat) :
    Decidable (c.HasRoom isC2s copied arrival) :=
  inferInstanceAs (Decidable (_ ∧ (_ → _ ∈ _ → _ < _ → _ ≤ _ → _ ≤ _)))

/-- A segment arrives at a connection, and a second copy of it later: when the copy arrives, its
place is not half of the number space behind, and it may be held beside the first. -/
structure CopyFits [HuffmanDecoding] (c : TrackedConn) (orig : EthSegment × Nat)
    (between after : List (EthSegment × Nat)) : Prop where
  space : Guarded accept (HasSpace (c.sender orig.1)) c (orig :: between)
  recent : orig.1.payload ≠ [] →
    (((run accept c (orig :: between)).1.dirs (c.sender orig.1)).reasm.deliveredOff : Int) ≤
      c.placeOf orig.1 + 2 ^ 31
  room : (orig.1.seq, orig.1.payload) ∈
      ((run accept c (orig :: between)).1.dirs (c.sender orig.1)).reasm.ooo →
    ((run accept c (orig :: between)).1.dirs (c.sender orig.1)).reasm.oooBytes +
        orig.1.payload.length ≤
      ((run accept c (orig :: between)).1.dirs (c.sender orig.1)).reasm.oooLimit
  later : Guarded accept (HasRoom (c.sender orig.1) orig.1.toTcpSegment)
    (run accept c (orig :: between)).1 after

instance [HuffmanDecoding] (c : TrackedConn) (orig : EthSegment × Nat)
    (between after : List (EthSegment × Nat)) : Decidable (c.CopyFits orig between after) :=
  decidable_of_iff (Guarded accept (HasSpace (c.sender orig.1)) c (orig :: between) ∧
      (orig.1.payload ≠ [] → _ ≤ _) ∧ (_ ∈ _ → _ ≤ _) ∧
      Guarded accept (HasRoom (c.sender orig.1) orig.1.toTcpSegment)
        (run accept c (orig :: between)).1 after)
    ⟨fun h => ⟨h.1, h.2.1, h.2.2.1, h.2.2.2⟩, fun h => ⟨h.space, h.recent, h.room, h.later⟩⟩

variable [HuffmanDecoding] {c : TrackedConn} {arrival : EthSegment × Nat}
  {arrivals between after : List (EthSegment × Nat)}

theorem dirs_accept (c : TrackedConn) (arrival : EthSegment × Nat) :
    (c.accept arrival).1.dirs =
      bothOnSegment c.dirs (c.sender arrival.1) arrival.1.toTcpSegment arrival.2 :=
  Conn.dirs_on_segment _ _ _ _

/-- What every direction of a run keeps. -/
theorem tended_run (h : ∀ side, (c.dirs side).Tended) (arrivals : List (EthSegment × Nat)) :
    ∀ side, ((run accept c arrivals).1.dirs side).Tended := by
  have hstep (c : TrackedConn) (arrival : EthSegment × Nat) (h : ∀ side, (c.dirs side).Tended) :
      ∀ side, ((c.accept arrival).1.dirs side).Tended := by
    rw [dirs_accept]
    exact tended_both h _ _ _
  exact (Guarded.always (fun c arrival h _ => hstep c arrival h) h
    (guarded_true c arrivals)).final

/-- A segment that was received stays received. -/
theorem received_run {p : Int} {orig : TcpSegment} {isC2s : Bool}
    (h : (c.dirs isC2s).Received p orig) (hspace : Guarded accept (HasSpace isC2s) c arrivals) :
    ((run accept c arrivals).1.dirs isC2s).Received p orig := by
  refine (Guarded.always (P := fun c => (c.dirs isC2s).Received p orig)
    (fun c arrival h hspace => ?_) h hspace).final
  rw [dirs_accept]
  exact received_both h hspace arrival.2

/-- A connection, and the same one after a second copy of a segment. -/
structure Doubles (isC2s : Bool) (copied : TcpSegment) (c twin : TrackedConn) : Prop where
  client : twin.client = c.client
  twins : BothTwins (copied.seq, copied.payload) isC2s c.dirs twin.dirs

/-- Both connections treat a segment alike. -/
theorem Doubles.accept {isC2s : Bool} {copied : TcpSegment} {twin : TrackedConn}
    (h : Doubles isC2s copied c twin) (hroom : c.HasRoom isC2s copied arrival) :
    Doubles isC2s copied (c.accept arrival).1 (twin.accept arrival).1 := by
  obtain ⟨hclient, htwins⟩ := h
  obtain ⟨hspace, hroom⟩ := hroom
  have hsender : twin.sender arrival.1 = c.sender arrival.1 := by rw [sender, hclient]; rfl
  constructor
  · exact hclient
  · rw [dirs_accept, dirs_accept, hsender]
    exact htwins.on_segment hspace hroom arrival.2

omit [HuffmanDecoding] in
/-- They look alike. -/
theorem Doubles.view_eq {isC2s : Bool} {copied : TcpSegment} {twin : TrackedConn}
    (h : Doubles isC2s copied c twin) : twin.view = c.view := by
  obtain ⟨⟨r, hcopied, htwin⟩, hother⟩ := h.twins
  obtain ⟨held, n, since, rfl, -⟩ := htwin.exists_held
  cases isC2s with
  | true =>
      have hc2s : twin.c2s.dir = _ := hcopied
      have hs2c : twin.s2c.dir = c.s2c.dir := hother
      rw [view, view, hc2s, hs2c]
      rfl
  | false =>
      have hs2c : twin.s2c.dir = _ := hcopied
      have hc2s : twin.c2s.dir = c.c2s.dir := hother
      rw [view, view, hc2s, hs2c]
      rfl

theorem client_run (c : TrackedConn) (arrivals : List (EthSegment × Nat)) :
    (run TrackedConn.accept c arrivals).1.client = c.client :=
  (Guarded.always (P := fun c' => c'.client = c.client) (fun _ _ h _ => h) rfl
    (guarded_true c arrivals)).final

/-- The second copy makes no difference. -/
theorem CopyFits.view_eq {orig : EthSegment × Nat} (h : c.CopyFits orig between after)
    (htended : ∀ side, (c.dirs side).Tended) (copyUs : Nat) :
    (run TrackedConn.accept c (orig :: between ++ (orig.1, copyUs) :: after)).1.view =
      (run TrackedConn.accept c (orig :: between ++ after)).1.view := by
  obtain ⟨⟨hspace, hspaces⟩, hrecent, hroom, hlater⟩ := h
  -- the first copy is received, and stays received until the second one arrives
  have hfirst : ((c.accept orig).1.dirs (c.sender orig.1)).Received (c.placeOf orig.1)
      orig.1.toTcpSegment := by
    rw [dirs_accept, bothOnSegment, if_pos rfl]
    exact received_on_segment (htended _) (hspace rfl) orig.2
  have hreceived := received_run hfirst hspaces
  have hsender : (run TrackedConn.accept c (orig :: between)).1.sender orig.1 =
      c.sender orig.1 := by
    rw [sender, client_run]
    rfl
  have hdoubles : Doubles (c.sender orig.1) orig.1.toTcpSegment
      (run TrackedConn.accept c (orig :: between)).1
      ((run TrackedConn.accept c (orig :: between)).1.accept (orig.1, copyUs)).1 := by
    constructor
    · rfl
    · rw [dirs_accept, hsender]
      exact both_twins_again hreceived (tended_run htended (orig :: between) _) hrecent hroom copyUs
  have hend := hlater.simulation (fun _ _ _ => Doubles.accept) hdoubles
  rw [run_append, run_append, run_cons_fst]
  exact hend.view_eq

end TrackedConn

/-! ## The tracker -/

namespace Tracker

/-- What is compared of a connection, if the tracker has it. -/
def view (t : Tracker) (k : Key) : Option (DirView × DirView) :=
  (t.conns.lookup k).map TrackedConn.view

/-- A connection that is missing stays missing, as there is no room for it. -/
def Settled (t : Tracker) (k : Key) : Prop :=
  t.conns.lookup k = none → t.conns.entries.length ≥ t.maxConns

variable [HuffmanDecoding] {t : Tracker} {k : Key}

/-- The tracker gets segments. -/
def receive (t : Tracker) (arrivals : List (EthSegment × Nat)) : Tracker :=
  arrivals.foldl (fun t arrival => t.onSegment arrival.1 arrival.2) t

theorem receive_append (t : Tracker) (arrivals later : List (EthSegment × Nat)) :
    t.receive (arrivals ++ later) = (t.receive arrivals).receive later := List.foldl_append

/-- A segment other than a bare SYN goes to the connection that there is. -/
theorem on_segment_settled (h : t.Settled k) {arrival : EthSegment × Nat}
    (hkey : keyOf arrival.1.src arrival.1.dst = k) (hsyn : arrival.1.freshSyn = false) :
    (t.onSegment arrival.1 arrival.2).Settled k ∧
      (t.onSegment arrival.1 arrival.2).conns.lookup k =
        (t.conns.lookup k).map fun c => (c.accept arrival).1 := by
  subst hkey
  cases hfound : t.conns.lookup (keyOf arrival.1.src arrival.1.dst) with
  | some c =>
      have hafter := lookup_on_segment (target_of_lookup hsyn hfound arrival.2)
      exact ⟨fun hnone => (nomatch hafter.symm.trans hnone), hafter⟩
  | none =>
      have hfull := h hfound
      have hsame : t.onSegment arrival.1 arrival.2 =
          { t with segments := t.segments + 1, rejectedFull := t.rejectedFull + 1 } := by
        simp only [onSegment, hsyn, Bool.false_eq_true, if_false, hfound, if_pos hfull]
      rw [hsame]
      exact ⟨h, hfound⟩

/-- The connection after more segments, none of them a bare SYN. -/
theorem receive_settled (h : t.Settled k) {arrivals : List (EthSegment × Nat)}
    (harrivals : ∀ arrival ∈ arrivals,
      keyOf arrival.1.src arrival.1.dst = k ∧ arrival.1.freshSyn = false) :
    (t.receive arrivals).Settled k ∧ (t.receive arrivals).conns.lookup k =
      (t.conns.lookup k).map fun c => (run TrackedConn.accept c arrivals).1 := by
  induction arrivals generalizing t with
  | nil => exact ⟨h, Option.map_id'.symm⟩
  | cons arrival arrivals ih =>
      rw [List.forall_mem_cons] at harrivals
      obtain ⟨⟨hkey, hsyn⟩, hrest⟩ := harrivals
      obtain ⟨hsettled, hlookup⟩ := on_segment_settled h hkey hsyn
      obtain ⟨hsettled', hlookup'⟩ := ih hsettled hrest
      refine ⟨hsettled', hlookup'.trans ?_⟩
      rw [hlookup, Option.map_map]
      rfl

/-- A new connection holds nothing, and its parsers await the first bytes. -/
theorem tended_opened (t : Tracker) {seg : EthSegment} (hsyn : seg.freshSyn = true) (nowUs : Nat)
    (side : Bool) : ((t.openConn seg nowUs).dirs side).Tended := by
  rw [Conn.dirs, dir_open_conn, hsyn]
  cases side <;> exact ⟨Reassembler.accounted_new, rfl, rfl⟩

/-- A bare SYN leaves a new connection, or none if there is no room for it. -/
theorem on_segment_fresh_syn (t : Tracker) {arrival : EthSegment × Nat}
    (hsyn : arrival.1.freshSyn = true) :
    (t.onSegment arrival.1 arrival.2).Settled (keyOf arrival.1.src arrival.1.dst) ∧
      ∀ c ∈ (t.onSegment arrival.1 arrival.2).conns.lookup (keyOf arrival.1.src arrival.1.dst),
        ∀ side, (c.dirs side).Tended := by
  by_cases hfull : (t.conns.erase (keyOf arrival.1.src arrival.1.dst)).entries.length ≥ t.maxConns
  · have hgone : (t.conns.erase (keyOf arrival.1.src arrival.1.dst)).lookup
        (keyOf arrival.1.src arrival.1.dst) = none := AList.lookup_erase _ _
    have hconns : (t.onSegment arrival.1 arrival.2).conns =
          t.conns.erase (keyOf arrival.1.src arrival.1.dst) ∧
        (t.onSegment arrival.1 arrival.2).maxConns = t.maxConns := by
      simp only [onSegment, hsyn, if_true, hgone, if_pos hfull, and_self]
    obtain ⟨hconns, hmax⟩ := hconns
    rw [Settled, hconns, hmax, hgone]
    exact ⟨fun _ => hfull, fun c hc => nomatch hc⟩
  · have hopen := lookup_on_segment
      ((target_of_fresh_syn hsyn arrival.2).trans (if_pos (not_le.mp hfull)))
    rw [Settled, hopen]
    refine ⟨(fun hnone => nomatch hnone), fun c hc => ?_⟩
    obtain rfl := Option.some.inj hc
    show ∀ side, (((t.openConn arrival.1 arrival.2).accept arrival).1.dirs side).Tended
    rw [TrackedConn.dirs_accept]
    exact tended_both (tended_opened t hsyn arrival.2) _ _ _

/-- The connection some time after a bare SYN. -/
theorem receive_opened (t : Tracker) {syn : EthSegment × Nat} (hsyn : syn.1.freshSyn = true)
    {arrivals : List (EthSegment × Nat)} (harrivals : ∀ arrival ∈ arrivals,
      keyOf arrival.1.src arrival.1.dst = keyOf syn.1.src syn.1.dst ∧ arrival.1.freshSyn = false) :
    (t.receive (syn :: arrivals)).Settled (keyOf syn.1.src syn.1.dst) ∧
      ∀ c ∈ (t.receive (syn :: arrivals)).conns.lookup (keyOf syn.1.src syn.1.dst),
        ∀ side, (c.dirs side).Tended := by
  obtain ⟨hopened, htended⟩ := on_segment_fresh_syn t hsyn
  obtain ⟨hsettled, hlookup⟩ := receive_settled hopened harrivals
  refine ⟨hsettled, fun c hc => ?_⟩
  rw [receive, List.foldl_cons, ← receive, hlookup] at hc
  obtain ⟨first, hfirst, rfl⟩ := Option.mem_map.mp hc
  exact TrackedConn.tended_run (htended first hfirst) arrivals

end Tracker

/-- The tracker gets the segments of one connection from a bare SYN on, and a second copy of one of
them. If no later segment is a bare SYN and the copy fits, both directions end as they do without
it. -/
theorem duplicate_harmless [HuffmanDecoding] (t : Tracker) (syn orig : EthSegment × Nat)
    (before between after : List (EthSegment × Nat)) (copyUs : Nat) (hsyn : syn.1.freshSyn = true)
    (hkey : ∀ arrival ∈ before ++ (orig :: between ++ after),
      keyOf arrival.1.src arrival.1.dst = keyOf syn.1.src syn.1.dst)
    (hbare : ∀ arrival ∈ before ++ (orig :: between ++ after), arrival.1.freshSyn = false)
    (hfits : ∀ c ∈ (t.receive (syn :: before)).conns.lookup (keyOf syn.1.src syn.1.dst),
      c.CopyFits orig between after) :
    (t.receive (syn :: before ++ (orig :: between ++ (orig.1, copyUs) :: after))).view
        (keyOf syn.1.src syn.1.dst) =
      (t.receive (syn :: before ++ (orig :: between ++ after))).view
        (keyOf syn.1.src syn.1.dst) := by
  have hall := fun arrival h => And.intro (hkey arrival h) (hbare arrival h)
  have hbefore := fun arrival h => hall arrival (List.mem_append_left _ h)
  have hlater := fun arrival h => hall arrival (List.mem_append_right _ h)
  have hcopied : ∀ arrival ∈ orig :: between ++ (orig.1, copyUs) :: after,
      keyOf arrival.1.src arrival.1.dst = keyOf syn.1.src syn.1.dst ∧
        arrival.1.freshSyn = false := by
    intro arrival harrival
    rcases List.mem_append.mp harrival with hfirst | hrest
    · exact hlater arrival (List.mem_append_left _ hfirst)
    · rcases List.mem_cons.mp hrest with rfl | hrest
      · exact hlater orig List.mem_cons_self
      · exact hlater arrival (List.mem_append_right _ hrest)
  obtain ⟨hsettled, htended⟩ := t.receive_opened hsyn hbefore
  obtain ⟨-, hwith⟩ := Tracker.receive_settled hsettled hcopied
  obtain ⟨-, hwithout⟩ := Tracker.receive_settled hsettled hlater
  rw [Tracker.receive_append t (syn :: before), Tracker.receive_append t (syn :: before),
    Tracker.view, Tracker.view, hwith, hwithout]
  cases hfound : (t.receive (syn :: before)).conns.lookup (keyOf syn.1.src syn.1.dst) with
  | none => rfl
  | some c => exact congrArg some ((hfits c hfound).view_eq (htended c hfound) copyUs)

/-- A segment that is held is sent again, before the bytes that were missing arrive. -/
theorem duplicate_harmless_held :
    let _ := noHuffman.toHuffmanDecoding
    ((Tracker.new [7777] 100 300 65536).receive
      [(referenceSegment true 99 TcpFlags.syn [], 1),
        (referenceSegment false 199 (TcpFlags.syn ||| TcpFlags.ack) [], 2),
        (referenceSegment true 110 TcpFlags.ack (preface.drop 10), 3),
        (referenceSegment true 110 TcpFlags.ack (preface.drop 10), 4),
        (referenceSegment true 100 TcpFlags.ack (preface.take 10), 5)]).view
          (keyOf Pkt.clientAddr Pkt.serverAddr) =
    ((Tracker.new [7777] 100 300 65536).receive
      [(referenceSegment true 99 TcpFlags.syn [], 1),
        (referenceSegment false 199 (TcpFlags.syn ||| TcpFlags.ack) [], 2),
        (referenceSegment true 110 TcpFlags.ack (preface.drop 10), 3),
        (referenceSegment true 100 TcpFlags.ack (preface.take 10), 5)]).view
          (keyOf Pkt.clientAddr Pkt.serverAddr) := by
  exact @duplicate_harmless noHuffman.toHuffmanDecoding (.new [7777] 100 300 65536)
    (referenceSegment true 99 TcpFlags.syn [], 1)
    (referenceSegment true 110 TcpFlags.ack (preface.drop 10), 3)
    [(referenceSegment false 199 (TcpFlags.syn ||| TcpFlags.ack) [], 2)] []
    [(referenceSegment true 100 TcpFlags.ack (preface.take 10), 5)] 4 (by decide) (by decide)
    (by decide) (by decide +kernel)

/-- The SYN is sent again after the client's preface and a header: both directions start anew. -/
theorem repeated_syn_resets :
    let _ := noHuffman.toHuffmanDecoding
    ¬∀ (t : Tracker) (syn orig : EthSegment × Nat)
      (later before between after : List (EthSegment × Nat)) (copyUs : Nat),
      syn.1.freshSyn = true →
        (∀ arrival ∈ later, keyOf arrival.1.src arrival.1.dst = keyOf syn.1.src syn.1.dst) →
          syn :: later = before ++ (orig :: between ++ after) →
            (t.receive (before ++ (orig :: between ++ (orig.1, copyUs) :: after))).view
                (keyOf syn.1.src syn.1.dst) =
              (t.receive (syn :: later)).view (keyOf syn.1.src syn.1.dst) := by
  intro _ hclaim
  have hsame := hclaim (.new [7777] 100 300 65536) (referenceSegment true 99 TcpFlags.syn [], 1)
    (referenceSegment true 99 TcpFlags.syn [], 1)
    [(referenceSegment false 199 (TcpFlags.syn ||| TcpFlags.ack) [], 2),
      (referenceSegment true 100 TcpFlags.ack
        (preface ++ [0, 0, 5, FrameType.headers, 4, 0, 0, 0, 1, 0x40, 1, 0x61, 1, 0x62]), 3)] []
    [(referenceSegment false 199 (TcpFlags.syn ||| TcpFlags.ack) [], 2),
      (referenceSegment true 100 TcpFlags.ack
        (preface ++ [0, 0, 5, FrameType.headers, 4, 0, 0, 0, 1, 0x40, 1, 0x61, 1, 0x62]), 3)] [] 4
    (by decide) (by decide) rfl
  revert hsame
  decide +kernel

end H2Tap
