import H2Tap.Conn.Observed
import H2Tap.Tracker.Conn

/-!
# Two endpoints and their observer

Two conformant endpoints talk to each other, and the tracker sees the segments of both in some
order. A SETTINGS_HEADER_TABLE_SIZE reaches the tracker before the endpoint that it is meant for,
and that endpoint may go on using its old table until it has processed it. The tracker applies the
size when it sees it. `observe` runs the tracker beside what it ought to know: the messages still to
come of either endpoint, and the table of either endpoint as it would be, had the endpoint applied
the sizes when they were seen. `header_blocks_agree`: as long as every header block is valid for
that table, it is decoded to what its sender means. `lowered_while_in_flight` is a run in which one
is not.
-/

namespace H2Tap

open Lib Direction

section

variable [HuffmanCoding]

/-! ## Endpoints -/

/-- What an endpoint does: it sends a message, or processes a table size that its peer announced. -/
inductive Action where
  | send (m : Message)
  | process (n : Nat)

/-- The messages among some actions. -/
def sentMessages (actions : List Action) : List Message :=
  actions.filterMap fun
    | .send m => some m
    | .process _ => none

/-- The size updates at the start of a block. -/
def leadingSizes : List Rep → List Nat
  | .sizeUpdate n :: rs => n :: leadingSizes rs
  | _ => []

/-- An endpoint's table, the capacity its peer allows, as far as it has processed that, and the
smallest size that it has processed since its last header block. -/
structure Endpoint where
  table : Encoder
  allowed : Nat
  owed : Option Nat

namespace Endpoint

/-- An endpoint at the start of a connection. -/
def initial : Endpoint := ⟨.initial, defaultTableSize, none⟩

/-- A block starts with what it has to say about the capacity (RFC 7541 section 4.2): no update is
above what is allowed, and one goes down to the smallest size processed since the last block. -/
def signals (p : Endpoint) (rs : List Rep) : Bool :=
  (leadingSizes rs).all (fun n => decide (n ≤ p.allowed)) &&
    p.owed.all fun n =>
      decide (p.table.capacity ≤ n) || (leadingSizes rs).any fun m => decide (m ≤ n)

/-- The endpoint after an action, `none` for one that is not conformant. -/
def act (p : Endpoint) : Action → Option Endpoint
  | .process n => some { p with allowed := n, owed := some (min n (p.owed.getD n)) }
  | .send (.other _ _) => some p
  | .send (.block b) =>
      (p.table.emitAll b.reps).bind fun sent =>
        if sent.2 = b.headers ∧ p.signals b.reps = true then some ⟨sent.1, p.allowed, none⟩
        else none

/-- All of its actions are conformant. -/
def conforms (p : Endpoint) : List Action → Bool
  | [] => true
  | action :: actions =>
      match p.act action with
      | none => false
      | some p => p.conforms actions

/-- Its header blocks are valid for its table. -/
theorem sends_of_conforms {p : Endpoint} {actions : List Action} (h : p.conforms actions = true) :
    p.table.Sends (sentMessages actions) := by
  induction actions generalizing p with
  | nil => trivial
  | cons action actions ih =>
      simp only [conforms] at h
      split at h
      · cases h
      · next p' hact =>
          have hrest := ih h
          cases action with
          | process n =>
              cases hact
              exact hrest
          | send m =>
              cases m with
              | other f hother =>
                  cases hact
                  exact hrest
              | block b =>
                  obtain ⟨⟨table, headers⟩, hemit, hsignals⟩ := Option.bind_eq_some_iff.mp hact
                  split at hsignals
                  · next hheaders =>
                      cases hsignals
                      obtain ⟨rfl, -⟩ := hheaders
                      exact ⟨table, hemit, hrest⟩
                  · cases hsignals

end Endpoint

/-! ## The observer -/

/-- Two endpoints, the client at `true`. -/
structure Exchange where
  isn : Bool → Seq
  actions : Bool → List Action

namespace Exchange

def messages (x : Exchange) (side : Bool) : List Message := sentMessages (x.actions side)

/-- The sequence number of an endpoint's first byte. -/
def base (x : Exchange) (side : Bool) : Seq := x.isn side + 1

/-- The bytes that an endpoint sends. Only a client starts with a preface. -/
def stream (x : Exchange) (side : Bool) : Bytes :=
  leadBytes side ++ framesWire (messageFrames (x.messages side))

end Exchange

/-- What the tracker sees next: part of an endpoint's stream in a segment, or a tick. -/
inductive ConnEvent where
  | segment (isC2s : Bool) (flags : UInt8) (start len nowUs : Nat)
  | tick (nowUs : Nat)
  deriving DecidableEq

/-- The tracked connection, each endpoint's table as it would be, had it applied the sizes of its
peer when they were seen, and the messages that are still to come. -/
structure Observation where
  conn : Conn
  table : Bool → Encoder
  coming : Bool → List Message

namespace Exchange

/-- A segment with part of an endpoint's stream. -/
def segment (x : Exchange) (isC2s : Bool) (flags : UInt8) (start len : Nat) : TcpSegment :=
  ⟨x.base isC2s + BitVec.ofNat 32 start, flags, ((x.stream isC2s).drop start).take len⟩

/-- The messages that a segment completes. -/
def completes (x : Exchange) (o : Observation) (isC2s : Bool) (start len nowUs : Nat) :
    List Message :=
  arrived ((o.conn.dir isC2s).dir.bytesLeft (x.base isC2s) (x.stream isC2s) start len nowUs)
    (o.coming isC2s)

/-- The tracker sees an event. The blocks it decodes are returned with those it has received. -/
def observe (x : Exchange) (o : Observation) :
    ConnEvent → Observation × (List DecodedBlock × List HeaderBlock)
  | .segment isC2s flags start len nowUs =>
      let fed := o.conn.onSegment isC2s (x.segment isC2s flags start len) nowUs
      let seen := x.completes o isC2s start len nowUs
      ({ conn := fed.1
         table := fun side =>
           if side = isC2s then ((o.table side).sendAll seen).getD (o.table side)
           else (seen.filterMap Message.tableSize).foldl Encoder.lower (o.table side)
         coming := fun side =>
           if side = isC2s then (o.coming side).drop seen.length else o.coming side },
        (decodedBlocks fed.2, seen.filterMap Message.headerBlock))
  | .tick nowUs => ({ o with conn := o.conn.tick nowUs }, ([], []))

/-- Both SYNs have been seen, and nothing else. -/
def start (x : Exchange) (limit nowUs : Nat) : Observation where
  conn := .handshake limit (x.isn true) (x.isn false) nowUs
  table _ := .initial
  coming := x.messages

/-- Nothing is lost: no event makes the tracker declare a gap, and the SYNs are not repeated. -/
def withoutLoss (x : Exchange) (o : Observation) : ConnEvent → Prop
  | .segment isC2s flags start len nowUs =>
      (x.segment isC2s flags start len).has TcpFlags.syn = false ∧
        (o.conn.dir isC2s).dir.arrivesInWindow (x.base isC2s) (x.stream isC2s)
          (.segment start len nowUs)
  | .tick nowUs => ∀ side, ((o.conn.dir side).dir.reasm.checkTimeout nowUs).2 = false

/-- The header blocks that are completed are valid for their sender's table as it would be, had the
sender applied every size of its peer when it was seen. -/
def validWhenSeen (x : Exchange) (o : Observation) : ConnEvent → Prop
  | .segment isC2s _ start len nowUs =>
      ((o.table isC2s).sendAll (x.completes o isC2s start len nowUs)).isSome = true
  | .tick _ => True

instance (x : Exchange) (o : Observation) (event : ConnEvent) :
    Decidable (x.withoutLoss o event) := by
  cases event <;> unfold withoutLoss <;> infer_instance

instance (x : Exchange) (o : Observation) (event : ConnEvent) :
    Decidable (x.validWhenSeen o event) := by
  cases event <;> unfold validWhenSeen <;> infer_instance

/-! ## Agreement -/

variable {x : Exchange} {limit : Nat} {o : Observation}

/-- Both directions follow their endpoints. -/
def FollowsBoth (x : Exchange) (limit : Nat) (o : Observation) : Prop :=
  ∀ side, (o.conn.dir side).dir.Observed limit (x.base side) (x.stream side) (o.table side)
    (o.coming side)

/-- Table sizes of the opposite direction, one after the other. -/
theorem observed_sizes {base : Seq} {stream : Bytes} {v : Encoder} {coming : List Message}
    {t : DirTrack} (h : t.dir.Observed limit base stream v coming) (sizes : List Nat) :
    (sizes.foldl DirTrack.applyPeerCapacity t).dir.Observed limit base stream
      (sizes.foldl Encoder.lower v) coming := by
  induction sizes generalizing t v with
  | nil => exact h
  | cons n sizes ih => exact ih (t := t.applyPeerCapacity n) (h.lower n)

/-- A segment without bytes completes no message. -/
theorem completes_empty (h : x.FollowsBoth limit o) {isC2s : Bool} {flags : UInt8}
    {start len : Nat} (nowUs : Nat)
    (hempty : (x.segment isC2s flags start len).payload.isEmpty = true) :
    x.completes o isC2s start len nowUs = [] := by
  obtain ⟨first, k, hfrom⟩ := (h isC2s).place
  have hpush : ((o.conn.dir isC2s).dir.reasm.push (x.base isC2s + BitVec.ofNat 32 start)
      (((x.stream isC2s).drop start).take len) nowUs).1 = (o.conn.dir isC2s).dir.reasm := by
    have hnil : (((x.stream isC2s).drop start).take len).isEmpty = true := hempty
    simp only [Reassembler.push, hnil, if_true]
  have hnone := hfrom.none_arrived
  rw [List.length_drop] at hnone
  rw [completes, bytesLeft, hpush, hfrom.holds.collecting.deliveredOff, hnone]

/-- A segment whose header blocks are valid is decoded to what its sender means. -/
theorem agree_segment (h : x.FollowsBoth limit o) {isC2s : Bool} {flags : UInt8}
    {start len nowUs : Nat} (hloss : x.withoutLoss o (.segment isC2s flags start len nowUs))
    (hvalid : x.validWhenSeen o (.segment isC2s flags start len nowUs)) :
    x.FollowsBoth limit (x.observe o (.segment isC2s flags start len nowUs)).1 ∧
      List.Forall₂ DecodedBlock.Conveys
        (x.observe o (.segment isC2s flags start len nowUs)).2.1
        (x.observe o (.segment isC2s flags start len nowUs)).2.2 := by
  obtain ⟨hsyn, hwindow⟩ := hloss
  obtain ⟨v, hv⟩ := Option.isSome_iff_exists.mp hvalid
  have hother : ∀ {side}, side ≠ isC2s → side = !isC2s := by
    intro side hside
    cases side <;> cases isC2s <;> first | rfl | exact absurd rfl hside
  cases hempty : (x.segment isC2s flags start len).payload.isEmpty with
  | true =>
      have hnone := completes_empty h nowUs hempty
      rw [hnone] at hv
      obtain rfl := Option.some.inj hv
      have hdir := fun side => Conn.on_segment_empty o.conn isC2s side nowUs hsyn hempty
      refine ⟨fun side => ?_, ?_⟩
      · simp only [observe, hnone, (hdir side).1, Encoder.sendAll, Option.getD_some,
          List.filterMap_nil, List.foldl_nil, List.length_nil, List.drop_zero, ite_self]
        exact h side
      · simp only [observe, hnone, (hdir isC2s).2]
        exact .nil
  | false =>
      obtain ⟨hfed, hpeer, hout⟩ := Conn.on_segment_dir o.conn isC2s nowUs hsyn hempty
      obtain ⟨hobserved, hblocks, hsizes⟩ := observed_segment (h isC2s) hwindow hv
      refine ⟨fun side => ?_, ?_⟩
      · by_cases hside : side = isC2s
        · subst hside
          simp only [observe, if_true, hfed]
          rw [hv]
          exact hobserved
        · obtain rfl := hother hside
          simp only [observe, hside, if_false, hpeer]
          have hsizes' : settingsSizes ((o.conn.dir isC2s).dir.feed
              (x.segment isC2s flags start len).seq (x.segment isC2s flags start len).payload
              nowUs).2 = (x.completes o isC2s start len nowUs).filterMap Message.tableSize := hsizes
          rw [hsizes']
          exact observed_sizes (h _) _
      · simp only [observe, hout]
        exact hblocks

/-- A tick. -/
theorem agree_tick (h : x.FollowsBoth limit o) {nowUs : Nat}
    (hloss : x.withoutLoss o (.tick nowUs)) :
    x.FollowsBoth limit (x.observe o (.tick nowUs)).1 := by
  intro side
  have hside := h side
  have hsame := congrArg Prod.fst (tick_same (hloss side))
  cases side with
  | true =>
      simp only [observe, Conn.tick, Conn.dir, if_true] at hside hsame ⊢
      rw [hsame]
      exact hside
  | false =>
      simp only [observe, Conn.tick, Conn.dir, Bool.false_eq_true, if_false] at hside hsame ⊢
      rw [hsame]
      exact hside

omit [HuffmanCoding] in
/-- The directions after both SYNs. -/
theorem handshake_dir [HuffmanDecoding] (limit : Nat) (clientIsn serverIsn : Seq) (nowUs : Nat)
    (side : Bool) : ((Conn.handshake limit clientIsn serverIsn nowUs).dir side).dir =
      watchedFrom false side limit (if side then clientIsn else serverIsn) := by
  have hsyn : TcpFlags.syn ≠ 0 ∧
      (TcpFlags.syn ||| TcpFlags.ack) &&& TcpFlags.syn ≠ 0 := by decide
  have hclosed : TcpFlags.syn &&& TcpFlags.rst = 0 ∧ TcpFlags.syn &&& TcpFlags.fin = 0 ∧
      (TcpFlags.syn ||| TcpFlags.ack) &&& TcpFlags.rst = 0 ∧
      (TcpFlags.syn ||| TcpFlags.ack) &&& TcpFlags.fin = 0 := by decide
  cases side <;>
    simp [Conn.handshake, Conn.onSegment, Conn.noteFlags, TcpSegment.has, hsyn, hclosed, Conn.dir,
      Conn.setDir, Conn.new, DirTrack.new, watchedFrom, setTableTrackLimit, fromConnectionStart,
      joinedMidstream]

/-- With both SYNs seen, the directions are at the start of the streams. -/
theorem follows_both_start (hlimit : defaultTableSize ≤ limit)
    (hconforms : ∀ side, Endpoint.initial.conforms (x.actions side) = true)
    (hreadable : ∀ side, ∀ m ∈ x.messages side, m.Readable limit) (nowUs : Nat) :
    x.FollowsBoth limit (x.start limit nowUs) := by
  intro side
  rw [show ((x.start limit nowUs).conn.dir side).dir = watchedFrom false side limit (x.isn side) by
    rw [start, handshake_dir]
    cases side <;> rfl]
  refine ⟨⟨.initial, Encoder.within_refl _, Endpoint.sends_of_conforms (hconforms side)⟩,
    hreadable side, watchedFrom false false limit (x.isn side), 0, ?_⟩
  have hstart := watched_start false side limit (x.isn side) (messageFrames (x.messages side))
    (show (Delivery.anyOrder (x.base side) (x.stream side)).Holds
        (Reassembler.new.noteSyn (x.isn side)) 0 from
      Reassembler.collected_note_syn (x.isn side) (x.stream side))
  have hsmall : Encoder.initial.capacity < 2 ^ 32 := by decide
  refine ⟨Nat.zero_le _, ⟨Decoder.copies_initial hlimit, hsmall, ⟨rfl, rfl, rfl⟩, rfl, rfl⟩, rfl,
    ?_, arrived_nil ?_⟩
  · rcases hstart with hlost | ⟨⟨-, hawaits⟩, -⟩ | ⟨j, hreads, hsettled, -⟩
    · have hpoisoned := hlost.sync.1
      cases hpoisoned
    · exact Or.inl hawaits
    · exact Or.inr ⟨j, hreads, hsettled⟩
  · simp only [stream, List.drop_zero, List.length_append]
    exact Nat.le_add_left _ _

/-- Two conformant endpoints whose segments are seen in any order: every header block that is
received is decoded, to the headers that its sender means and known to be exact, as long as the
header blocks are valid for the sender's table with every announced size applied when it was seen.
-/
theorem header_blocks_agree (x : Exchange) (limit nowUs : Nat) (events : List ConnEvent)
    (hlimit : defaultTableSize ≤ limit)
    (hconforms : ∀ side, Endpoint.initial.conforms (x.actions side) = true)
    (hreadable : ∀ side, ∀ m ∈ x.messages side, m.Readable limit)
    (hloss : Guarded x.observe x.withoutLoss (x.start limit nowUs) events)
    (hvalid : Guarded x.observe x.validWhenSeen (x.start limit nowUs) events) :
    ∀ o ∈ (run x.observe (x.start limit nowUs) events).2,
      List.Forall₂ DecodedBlock.Conveys o.1 o.2 := by
  have hall := run_invariant x.observe (P := x.FollowsBoth limit)
    (G := fun o event => x.withoutLoss o event ∧ x.validWhenSeen o event)
    (Q := fun o => List.Forall₂ DecodedBlock.Conveys o.1 o.2)
    (by
      rintro o event hboth ⟨hloss, hvalid⟩
      cases event with
      | segment isC2s flags start len nowUs => exact agree_segment hboth hloss hvalid
      | tick nowUs => exact ⟨agree_tick hboth hloss, .nil⟩)
    (follows_both_start hlimit hconforms hreadable nowUs) (hloss.and hvalid)
  exact hall.2

end Exchange

end

/-! ## A size that is announced while a block is in flight -/

/-- A header block in one frame. -/
@[reducible] def singleFrameBlock (reps : List Rep) (headers : List Header) (f : Frame)
    (hconformant : conformantBlock reps = true) (hstarts : f.hdr.typ = FrameType.headers)
    (hfragment : headerBlockFragment f.hdr f.payload = some f.payload)
    (hwire : f.payload = @blockWire noHuffman reps) (hends : f.hdr.has Flags.endHeaders = true) :
    @HeaderBlock noHuffman :=
  let _ := noHuffman
  { reps := reps
    headers := headers
    first := f
    more := []
    fragment := f.payload
    conformant := hconformant
    starts := Or.inl hstarts
    continues := fun _ h => nomatch h
    fragment_eq := hfragment
    wire_eq := by rw [List.flatMap_nil, List.append_nil, hwire]
    ends := by simp [hends] }

/-- A block that inserts an entry. -/
@[reducible] def insertingBlock : @HeaderBlock noHuffman :=
  singleFrameBlock
    [.literal .incremental (.fresh ⟨asciiBytes "foo", false⟩) ⟨asciiBytes "bar", false⟩]
    [⟨asciiBytes "foo", asciiBytes "bar"⟩] insertingFrame rfl rfl (by decide +kernel)
    (by decide +kernel) (by decide)

/-- A block that refers to it. -/
@[reducible] def referringBlock : @HeaderBlock noHuffman :=
  singleFrameBlock [.indexed 62] [⟨asciiBytes "foo", asciiBytes "bar"⟩] referringFrame rfl rfl
    (by decide +kernel) (by decide +kernel) (by decide)

/-- A HEADERS frame whose block empties the table and refers to a static entry. -/
def emptyingFrame : Frame where
  head := [0, 0, 2, FrameType.headers, Flags.endHeaders, 0, 0, 0, 3]
  hdr := ⟨2, FrameType.headers, Flags.endHeaders, 3⟩
  payload := [0x20, 0x82]
  head_length := rfl
  parse_eq := rfl
  payload_length := rfl

/-- A block that signals the capacity 0. -/
@[reducible] def emptyingBlock : @HeaderBlock noHuffman :=
  singleFrameBlock [.sizeUpdate 0, .indexed 2] [⟨asciiBytes ":method", asciiBytes "GET"⟩]
    emptyingFrame rfl rfl (by decide +kernel) (by decide +kernel) (by decide)

/-- A SETTINGS frame that lowers the table size to 0. -/
def loweringFrame : Frame where
  head := [0, 0, 6, FrameType.settings, 0, 0, 0, 0, 0]
  hdr := ⟨6, FrameType.settings, 0, 0⟩
  payload := [0, 1, 0, 0, 0, 0]
  head_length := rfl
  parse_eq := rfl
  payload_length := rfl

namespace Exchange

/-- The client sends two header blocks, the server lowers the table size in between. -/
@[reducible] def lowering (between : List (@Action noHuffman)) (second : @HeaderBlock noHuffman) :
    @Exchange noHuffman :=
  let _ := noHuffman
  { isn := fun side => if side then 4294967280 else 7
    actions := fun side =>
      if side then .send (.block insertingBlock) :: between ++ [.send (.block second)]
      else [.send (.other loweringFrame rfl)] }

/-- The second block of the client is seen after the server's SETTINGS, in two segments of which the
later one comes first. -/
def loweringEvents : List ConnEvent :=
  [.segment true TcpFlags.ack 0 42 1, .segment false TcpFlags.ack 0 15 2,
    .segment true TcpFlags.ack 47 20 3, .tick 4, .segment true TcpFlags.ack 42 5 5]

/-- The client has processed the SETTINGS before it sends the second block. -/
theorem header_blocks_agree_processed :
    let _ := noHuffman
    let x := lowering [.process 0] emptyingBlock
    ∀ o ∈ (run x.observe (x.start 4096 0) loweringEvents).2,
      List.Forall₂ DecodedBlock.Conveys o.1 o.2 :=
  @header_blocks_agree noHuffman (lowering [@Action.process noHuffman 0] emptyingBlock) 4096 0
    loweringEvents
    (by decide) (by decide +kernel) (by decide +kernel) (by decide +kernel) (by decide +kernel)

/-- The client has not processed the SETTINGS when it sends the second block, which refers to an
entry that the tracker has evicted. Both endpoints are conformant, and nothing is lost. -/
theorem lowered_while_in_flight :
    let _ := noHuffman
    let x := lowering [] referringBlock
    (∀ side, Endpoint.initial.conforms (x.actions side) = true) ∧
      (∀ side, ∀ m ∈ x.messages side, m.Readable 4096) ∧
      Guarded x.observe x.withoutLoss (x.start 4096 0) loweringEvents ∧
      ¬ ∀ o ∈ (run x.observe (x.start 4096 0) loweringEvents).2,
        List.Forall₂ DecodedBlock.Conveys o.1 o.2 := by
  unfold DecodedBlock.Conveys
  decide +kernel

end Exchange

end H2Tap
