import H2Tap.Rebuild.Items
import H2Tap.Rebuild.Transmit

/-!
# Replaying a connection of the rebuilt capture

The packets of a rebuilt connection are a handshake, pieces and FINs. The replay opens the
connection with both directions known from their start (`receive_handshake`), takes in one piece
after the other (`receive_pieces`), and ends with a connection that has the endpoints and times of
the one that was written, and of every item one that is written the same (`retraced`).
-/

namespace H2Tap

open Lib

/-- The endpoints of a connection lie between its two different addresses. -/
structure Taken.Sound (t : Taken) : Prop where
  sends : ∀ isC2s, t.state.Sends isC2s (t.endpoint isC2s)
  differ : t.state.client ≠ t.state.server

/-- A replayed connection once both sides have sent something: it is that of `t`, it was opened with
its first packet, and `last` is the time of its last packet so far. -/
structure ConnState.Underway (t : Taken) (last : Nat) (cs : ConnState) : Prop where
  client : cs.client = t.state.client
  server : cs.server = t.state.server
  firstTs : cs.firstTs = t.state.firstTs
  lastTs : cs.lastTs = last
  sawSyn : cs.sawSyn = true
  ep : ∀ isC2s, (cs.dir isC2s).ep = some (t.endpoint isC2s)
  seeded : ∀ isC2s, (cs.dir isC2s).seeded = true

/-- A direction with what a list of items was written for it, each with its time. -/
abbrev WrittenAs (out again : List (Nat × Normalized)) : Prop :=
  List.Forall₂ (fun item read => read.1 = item.1 ∧ item.2.ReadAs read.2) out again

/-- A packet with data. -/
def OutPkt.data (ts ci : Nat) (isC2s : Bool) (bytes : Bytes) : OutPkt :=
  ⟨ts, 1, ci, 0, isC2s, TcpFlags.psh ||| TcpFlags.ack, bytes⟩

theorem OutPkt.consumed_data (ts ci : Nat) (isC2s : Bool) (bytes : Bytes) :
    (OutPkt.data ts ci isC2s bytes).consumed = bytes.length := by
  have hflags : (TcpFlags.psh ||| TcpFlags.ack) &&& (TcpFlags.syn ||| TcpFlags.fin) = 0 := by decide
  rw [consumed, data, hflags]
  rfl

/-- The first packet of a connection that has data to send. -/
theorem Taken.transmit_data (t : Taken) (next : Bool → Seq) (ts ci : Nat) (isC2s : Bool)
    (bytes : Bytes) (pkts : List OutPkt) :
    t.transmit next (OutPkt.data ts ci isC2s bytes :: pkts) =
      ((t.endpoint isC2s).segment (next isC2s) (next (!isC2s)) (TcpFlags.psh ||| TcpFlags.ack)
        bytes, ts) ::
      t.transmit (Function.update next isC2s (next isC2s + BitVec.ofNat 32 bytes.length)) pkts := by
  have hflags : (TcpFlags.psh ||| TcpFlags.ack) &&& TcpFlags.ack ≠ 0 := by decide
  have hack : (OutPkt.data ts ci isC2s bytes).flags &&& TcpFlags.ack ≠ 0 := hflags
  rw [transmit, OutPkt.consumed_data, if_pos hack]
  rfl

/-- A packet without the SYN flag has no SYN. -/
theorem Pkt.Endpoint.segment_plain (ep : Pkt.Endpoint) (seq ack : Seq) {flags : UInt8}
    (hsyn : flags &&& TcpFlags.syn = 0) (payload : Bytes) :
    (ep.segment seq ack flags payload).has TcpFlags.syn = false ∧
      (ep.segment seq ack flags payload).freshSyn = false := by
  have hhas : (ep.segment seq ack flags payload).has TcpFlags.syn = false := by
    show (flags &&& TcpFlags.syn != 0) = false
    rw [hsyn]
    decide
  exact ⟨hhas, by rw [TcpSegment.freshSyn, hhas, Bool.false_and]⟩

namespace ConnState

variable {t : Taken} {last : Nat} {cs : ConnState}

theorem dir_at (cs : ConnState) (ts : Nat) (isC2s : Bool) :
    ({ cs with lastTs := ts } : ConnState).dir isC2s = cs.dir isC2s := by
  cases isC2s <;> rfl

/-- The sender of a segment tells its direction. -/
theorem Underway.side (h : cs.Underway t last) (ht : t.Sound) (isC2s : Bool) (seq ack : Seq)
    (flags : UInt8) (payload : Bytes) :
    (((t.endpoint isC2s).segment seq ack flags payload).src == cs.client) = isC2s := by
  have hsrc : ((t.endpoint isC2s).segment seq ack flags payload).src = t.state.source isC2s :=
    (ht.sends isC2s).src
  rw [hsrc, h.client]
  cases isC2s with
  | true => exact beq_self_eq_true _
  | false => exact beq_false_of_ne ht.differ.symm

/-- A segment without a SYN changes only the time before its payload is looked at. -/
theorem Underway.touch (h : cs.Underway t last) {isC2s : Bool} {seg : EthSegment}
    (hsyn : seg.has TcpFlags.syn = false) (seed : Option Seed) (ts : Nat) :
    (cs.touch isC2s seed seg ts).1 = { cs with lastTs := ts } := by
  have hdir : cs.touchedDir isC2s seed seg = cs.dir isC2s := by
    have hep : (cs.dir isC2s).noteEndpoint seg = cs.dir isC2s := by
      have hknown := h.ep isC2s
      rw [DirState.noteEndpoint, hknown, Option.some_or, ← hknown]
    rw [touchedDir, hep, DirState.seed, if_pos (h.seeded isC2s), DirState.noteSyn,
      if_neg (by rw [hsyn]; exact Bool.false_ne_true)]
  rw [touch_eq, hdir]
  cases isC2s <;> rfl

variable [HuffmanDecoding] (seeds : Table (String × String) Seed)

/-- A segment without a SYN and a payload: a FIN, or the last packet of the handshake. -/
theorem Underway.receive_empty (h : cs.Underway t last) (ht : t.Sound) {isC2s : Bool}
    {seq ack : Seq} {flags : UInt8} (hsyn : flags &&& TcpFlags.syn = 0) (ts : Nat) :
    receive seeds (some cs) ((t.endpoint isC2s).segment seq ack flags [], ts) =
      { cs with lastTs := ts } := by
  obtain ⟨hhas, hfresh⟩ := (t.endpoint isC2s).segment_plain seq ack hsyn []
  rw [receive]
  simp only [hfresh, Bool.false_eq_true, if_false, Option.getD_some]
  rw [take_in_of_empty (h.side ht isC2s seq ack flags []) rfl, h.touch hhas]

/-- What a segment with a payload does to the two directions of a connection. -/
structure Fed (t : Taken) (ts : Nat) (isC2s : Bool) (cs : ConnState)
    (fed : Direction × List ProcessedFrame) (cs' : ConnState) : Prop where
  underway : cs'.Underway t ts
  dir : (cs'.dir isC2s).dir = fed.1
  out : (cs'.dir isC2s).out =
    (cs.dir isC2s).out ++ (fed.2.filterMap normalize).map fun item => (ts, item)
  other : ∃ sizes : List Nat, (cs'.dir (!isC2s)).dir =
    sizes.foldl Direction.applyPeerCapacity (cs.dir (!isC2s)).dir
  other_out : (cs'.dir (!isC2s)).out = (cs.dir (!isC2s)).out

/-- A segment with a payload and no SYN. -/
theorem Underway.receive_payload (h : cs.Underway t last) (ht : t.Sound) (isC2s : Bool)
    (seq ack : Seq) {flags : UInt8} (hsyn : flags &&& TcpFlags.syn = 0) {payload : Bytes}
    (hpayload : payload ≠ []) (ts : Nat) :
    Fed t ts isC2s cs ((cs.dir isC2s).dir.feed seq payload ts)
      (receive seeds (some cs) ((t.endpoint isC2s).segment seq ack flags payload, ts)) := by
  obtain ⟨hhas, hfresh⟩ := (t.endpoint isC2s).segment_plain seq ack hsyn payload
  have hempty : ((t.endpoint isC2s).segment seq ack flags payload).payload.isEmpty = false := by
    show payload.isEmpty = false
    simpa using hpayload
  rw [receive]
  simp only [hfresh, Bool.false_eq_true, if_false, Option.getD_some]
  rw [take_in_of_payload (h.side ht isC2s seq ack flags payload) (h.touch hhas _ ts) hempty,
    cs.dir_at ts]
  generalize hfed : (cs.dir isC2s).dir.feed
    ((t.endpoint isC2s).segment seq ack flags payload).seq
    ((t.endpoint isC2s).segment seq ack flags payload).payload ts = fed
  have hfeed : (cs.dir isC2s).dir.feed seq payload ts = fed := hfed
  rw [hfeed]
  refine ⟨⟨?_, ?_, ?_, ?_, ?_, fun side => ?_, fun side => ?_⟩, ?_, ?_, ?_, ?_⟩
  · rw [absorb_client]
    exact h.client
  · rw [absorb_server]
    exact h.server
  · rw [absorb_first_ts]
    exact h.firstTs
  · rw [absorb_last_ts]
  · simp only [absorb, set_dir_saw_syn]
    exact h.sawSyn
  · rw [absorb_ep, cs.dir_at ts]
    exact h.ep side
  · rcases Bool.eq_or_eq_not side isC2s with rfl | rfl
    · rw [absorb_dir, cs.dir_at ts]
      exact h.seeded _
    · rw [absorb_dir_not, cs.dir_at ts]
      exact h.seeded _
  · rw [absorb_dir]
  · rw [absorb_dir, cs.dir_at ts]
  · exact ⟨_, by rw [absorb_dir_not, cs.dir_at ts]⟩
  · rw [absorb_dir_not, cs.dir_at ts]

omit [HuffmanDecoding] in
/-- One payload after the other. -/
theorem Fed.trans {ts : Nat} {isC2s : Bool} {cs cs' cs'' : ConnState}
    {fed fed' : Direction × List ProcessedFrame} (h : Fed t ts isC2s cs fed cs')
    (h' : Fed t ts isC2s cs' fed' cs'') : Fed t ts isC2s cs (fed'.1, fed.2 ++ fed'.2) cs'' := by
  refine ⟨h'.underway, h'.dir, ?_, ?_, h'.other_out.trans h.other_out⟩
  · rw [h'.out, h.out, List.append_assoc, List.filterMap_append, List.map_append]
  · obtain ⟨sizes, hsizes⟩ := h.other
    obtain ⟨sizes', hsizes'⟩ := h'.other
    exact ⟨sizes ++ sizes', by rw [hsizes', hsizes, List.foldl_append]⟩

/-- Segments with data that follow each other feed the direction with their payloads. -/
theorem Underway.receive_data (ht : t.Sound) (isC2s : Bool) {bytes : Bytes} {rest : List Bytes}
    (hbytes : ∀ b ∈ bytes :: rest, b ≠ []) (ts ci : Nat) {last : Nat} {cs : ConnState}
    (h : cs.Underway t last) (next : Bool → Seq) :
    ∃ cs', receiveAll seeds (some cs)
        (t.transmit next ((bytes :: rest).map (OutPkt.data ts ci isC2s))) = some cs' ∧
      Fed t ts isC2s cs
        ((run Direction.feedNext ((cs.dir isC2s).dir, next isC2s)
            ((bytes :: rest).map fun b => (b, ts))).1.1,
          (run Direction.feedNext ((cs.dir isC2s).dir, next isC2s)
            ((bytes :: rest).map fun b => (b, ts))).2.flatten) cs' := by
  induction rest generalizing bytes last cs next with
  | nil =>
      have hfed := h.receive_payload seeds ht isC2s (next isC2s) (next (!isC2s))
        data_flags.1 (hbytes bytes List.mem_cons_self) ts
      refine ⟨_, by rw [List.map_cons, Taken.transmit_data]; rfl, ?_⟩
      simp only [List.map_cons, List.map_nil, run, Direction.feedNext, List.flatten_cons,
        List.flatten_nil, List.append_nil]
      exact hfed
  | cons b rest ih =>
      have hfed := h.receive_payload seeds ht isC2s (next isC2s) (next (!isC2s))
        data_flags.1 (hbytes bytes List.mem_cons_self) ts
      have hlater : ∀ b' ∈ b :: rest, b' ≠ [] :=
        fun b' hb' => hbytes b' (List.mem_cons_of_mem _ hb')
      obtain ⟨cs', hrest, hfed'⟩ := ih hlater hfed.underway
        (Function.update next isC2s (next isC2s + BitVec.ofNat 32 bytes.length))
      refine ⟨cs', ?_, ?_⟩
      · rw [List.map_cons, Taken.transmit_data, ← hrest]
        rfl
      · have hboth := hfed.trans hfed'
        rw [Function.update_self, hfed.dir] at hboth
        exact hboth

end ConnState

/-! ## Piece by piece -/

namespace Piece

/-- The segments of a piece carry its frames in chunks. -/
theorem segments_eq_data (mss ci : Nat) (p : Piece) :
    p.segments mss ci =
      (p.frames.flatMap (chunks mss)).map (OutPkt.data p.ts ci p.isC2s) := by
  rw [segments, List.map_flatMap]
  rfl

/-- A piece has frames, and none of them is empty. -/
theorem frames_nonempty (p : Piece) : p.frames ≠ [] ∧ ∀ frame ∈ p.frames, frame ≠ [] := by
  unfold frames
  cases p.item with
  | none => exact ⟨List.cons_ne_nil _ _, List.forall_mem_singleton.mpr (by decide)⟩
  | some item => exact frames_ne_nil item

/-- The chunks of a piece: there are some, none is empty, and together they are its frames. -/
theorem chunks_spec (mss : Nat) (p : Piece) :
    p.frames.flatMap (chunks mss) ≠ [] ∧ (∀ b ∈ p.frames.flatMap (chunks mss), b ≠ []) ∧
      (p.frames.flatMap (chunks mss)).flatten = p.frames.flatten := by
  have hchunk : ∀ frame b : Bytes, b ∈ chunks mss frame → b ≠ [] := by
    intro frame
    induction frame using chunks.induct mss with
    | case1 =>
        intro b hb
        rw [chunks] at hb
        simp at hb
    | case2 frame hne ih =>
        intro b hb
        rw [chunks, dif_neg hne] at hb
        rcases List.mem_cons.mp hb with rfl | hb
        · intro hnil
          rcases List.take_eq_nil_iff.mp hnil with hzero | hempty
          · omega
          · exact hne hempty
        · exact ih b hb
  obtain ⟨hsome, hframes⟩ := p.frames_nonempty
  refine ⟨?_, fun b hb => ?_, ?_⟩
  · obtain ⟨frame, hframe⟩ := List.exists_mem_of_ne_nil _ hsome
    obtain ⟨b, hb⟩ := List.exists_mem_of_ne_nil _ (chunks_ne_nil mss (hframes frame hframe))
    exact List.ne_nil_of_mem (List.mem_flatMap.mpr ⟨frame, hframe, hb⟩)
  · obtain ⟨frame, -, hb⟩ := List.mem_flatMap.mp hb
    exact hchunk frame b hb
  · generalize p.frames = frames
    induction frames with
    | nil => rfl
    | cons frame frames ih =>
        rw [List.flatMap_cons, List.flatten_append, ih, chunks_flatten, List.flatten_cons]

/-- A piece can be read: the client's preface while it is awaited, and then items. -/
def Plays (awaits : Bool) (p : Piece) : Prop :=
  match p.item with
  | none => p.isC2s = true ∧ awaits = true
  | some item => (p.isC2s && awaits) = false ∧ item.Readable

/-- Pieces that can be read one after the other. -/
def PlayAll (awaits : Bool) : List Piece → Prop
  | [] => True
  | p :: pieces => p.Plays awaits ∧ PlayAll (awaits && p.item.isSome) pieces

/-- The items of a direction among pieces, each with its time. -/
def itemsOf (pieces : List Piece) (isC2s : Bool) : List (Nat × Normalized) :=
  (pieces.filter fun p => p.isC2s == isC2s).filterMap fun p => p.item.map fun item => (p.ts, item)

theorem items_of_cons (p : Piece) (pieces : List Piece) (isC2s : Bool) :
    itemsOf (p :: pieces) isC2s = itemsOf [p] isC2s ++ itemsOf pieces isC2s := by
  simp only [itemsOf, ← List.filterMap_append, ← List.filter_append, List.singleton_append]

/-- A piece with an item has it in its own direction. -/
theorem items_of_piece (p : Piece) (isC2s : Bool) :
    itemsOf [p] isC2s =
      if isC2s = p.isC2s then (p.item.map fun item => (p.ts, item)).toList else [] := by
  rcases Bool.eq_or_eq_not isC2s p.isC2s with rfl | rfl
  · rw [if_pos rfl, itemsOf, List.filter_cons_of_pos (by simp), List.filter_nil]
    cases hitem : p.item <;> simp [hitem]
  · rw [if_neg (Bool.not_ne_self _), itemsOf, List.filter_cons_of_neg (by simp), List.filter_nil,
      List.filterMap_nil]

end Piece

/-- The next sequence numbers after data. -/
theorem Taken.advance_data (next : Bool → Seq) (ts ci : Nat) (isC2s : Bool) (bytes : List Bytes) :
    advance next (bytes.map (OutPkt.data ts ci isC2s)) =
      Function.update next isC2s (next isC2s + BitVec.ofNat 32 bytes.flatten.length) := by
  induction bytes generalizing next with
  | nil => simp [advance]
  | cons b bytes ih =>
      have hstep : advance next ((b :: bytes).map (OutPkt.data ts ci isC2s)) =
          advance (Function.update next isC2s (next isC2s +
            BitVec.ofNat 32 (OutPkt.data ts ci isC2s b).consumed))
            (bytes.map (OutPkt.data ts ci isC2s)) := rfl
      rw [hstep, ih, OutPkt.consumed_data, Function.update_self, Function.update_idem,
        List.flatten_cons, List.length_append, BitVec.ofNat_add, BitVec.add_assoc]

namespace ConnState

variable [HuffmanDecoding] (seeds : Table (String × String) Seed)

/-- The connection of `t` as far as it was replayed: both directions pause at the next sequence
numbers, and hold what `outs` was written for. -/
structure Retraced (t : Taken) (awaits : Bool) (next : Bool → Seq) (last : Nat)
    (outs : Bool → List (Nat × Normalized)) (cs : ConnState) : Prop where
  underway : cs.Underway t last
  paused : ∀ isC2s, (cs.dir isC2s).dir.Paused (isC2s && awaits) (next isC2s)
  out : ∀ isC2s, WrittenAs (outs isC2s) (cs.dir isC2s).out

variable {t : Taken} {awaits : Bool} {next : Bool → Seq} {last : Nat}
  {outs : Bool → List (Nat × Normalized)} {cs : ConnState}

/-- Feeding a direction until it pauses again. The other one learns table sizes at most. -/
theorem Retraced.fed (h : cs.Retraced t awaits next last outs) {isC2s awaits' : Bool} {ts : Nat}
    {result : Direction × List ProcessedFrame} {cs' : ConnState}
    (hfed : Fed t ts isC2s cs result cs') {n : Seq}
    (hpaused : result.1.Paused (isC2s && awaits') n)
    (hsame : (!isC2s && awaits') = (!isC2s && awaits)) {items : List (Nat × Normalized)}
    (hwritten : WrittenAs items ((result.2.filterMap normalize).map fun item => (ts, item))) :
    cs'.Retraced t awaits' (Function.update next isC2s n) ts
      (fun side => outs side ++ if side = isC2s then items else []) := by
  refine ⟨hfed.underway, fun side => ?_, fun side => ?_⟩
  · rcases Bool.eq_or_eq_not side isC2s with rfl | rfl
    · rw [hfed.dir, Function.update_self]
      exact hpaused
    · obtain ⟨sizes, hsizes⟩ := hfed.other
      rw [Function.update_of_ne (Bool.not_ne_self _), hsizes, hsame]
      exact (h.paused (!isC2s)).peer_capacities sizes
  · rcases Bool.eq_or_eq_not side isC2s with rfl | rfl
    · rw [if_pos rfl, hfed.out]
      exact List.rel_append (h.out _) hwritten
    · rw [if_neg (Bool.not_ne_self _), List.append_nil, hfed.other_out]
      exact h.out _

/-- Taking in a piece adds what was written for its item. -/
theorem Retraced.receive_piece (h : cs.Retraced t awaits next last outs) (ht : t.Sound) {p : Piece}
    (hp : p.Plays awaits) (mss ci : Nat) :
    ∃ cs', receiveAll seeds (some cs) (t.transmit next (p.segments mss ci)) = some cs' ∧
      cs'.Retraced t (awaits && p.item.isSome) (Taken.advance next (p.segments mss ci)) p.ts
        (fun isC2s => outs isC2s ++ Piece.itemsOf [p] isC2s) := by
  obtain ⟨hsome, hne, hbytes⟩ := p.chunks_spec mss
  obtain ⟨b, rest, hchunks⟩ := List.exists_cons_of_ne_nil hsome
  rw [p.segments_eq_data, Taken.advance_data, hbytes, hchunks]
  rw [hchunks] at hne hbytes
  obtain ⟨cs', hreceived, hfed⟩ :=
    Underway.receive_data seeds ht p.isC2s hne p.ts ci h.underway next
  generalize hsegments : ((b :: rest).map fun b => (b, p.ts)) = segments at hfed
  have hcarried : Direction.segmentBytes segments = p.frames.flatten := by
    rw [← hbytes, ← hsegments, Direction.segmentBytes, List.flatMap_map]
    exact List.flatMap_id
  have hown := h.paused p.isC2s
  refine ⟨cs', hreceived, ?_⟩
  simp only [Piece.items_of_piece]
  cases hitem : p.item with
  | none =>
      -- the client's preface, which writes nothing
      obtain ⟨hclient, hawaits⟩ : p.isC2s = true ∧ awaits = true := by
        simpa only [Piece.Plays, hitem] using hp
      have hframes : p.frames.flatten = preface := by
        rw [Piece.frames, hitem]
        exact List.append_nil preface
      rw [hclient, hawaits, Bool.true_and] at hown
      rw [hclient] at hfed ⊢
      obtain ⟨hnothing, hpaused⟩ := hown.feed_preface (hcarried.trans hframes)
      rw [hcarried] at hpaused
      rw [Option.isSome_none, Bool.and_false]
      refine h.fed hfed hpaused rfl ?_
      rw [hnothing]
      exact .nil
  | some item =>
      obtain ⟨hplaced, hreadable⟩ : (p.isC2s && awaits) = false ∧ item.Readable := by
        simpa only [Piece.Plays, hitem] using hp
      have hframes : p.frames = item.frames := by
        rw [Piece.frames, hitem]
        rfl
      rw [hplaced] at hown
      obtain ⟨again, hread, hreturns⟩ :=
        hown.feed_item hreadable (hcarried.trans (congrArg List.flatten hframes))
      have hpaused := hreturns.paused
      rw [hcarried] at hpaused
      rw [Option.isSome_some, Bool.and_true]
      refine h.fed hfed ?_ rfl ?_
      · rw [hplaced]
        exact hpaused
      · rw [hreturns.item]
        exact .cons ⟨rfl, hread⟩ .nil

/-- Taking in pieces adds what was written for their items. -/
theorem Retraced.receive_pieces (ht : t.Sound) (mss ci : Nat) {pieces : List Piece}
    {awaits : Bool} {next : Bool → Seq} {last : Nat} {outs : Bool → List (Nat × Normalized)}
    {cs : ConnState} (h : cs.Retraced t awaits next last outs)
    (hpieces : Piece.PlayAll awaits pieces) :
    ∃ cs' awaits' last',
      receiveAll seeds (some cs) (t.transmit next (pieces.flatMap (Piece.segments mss ci))) =
        some cs' ∧
      cs'.Retraced t awaits' (Taken.advance next (pieces.flatMap (Piece.segments mss ci))) last'
        (fun isC2s => outs isC2s ++ Piece.itemsOf pieces isC2s) := by
  induction pieces generalizing awaits next last outs cs with
  | nil =>
      refine ⟨cs, awaits, last, rfl, ?_⟩
      have hnothing : (fun isC2s => outs isC2s ++ Piece.itemsOf [] isC2s) = outs := by
        funext isC2s
        exact List.append_nil _
      rw [hnothing]
      exact h
  | cons p pieces ih =>
      obtain ⟨hp, hrest⟩ := hpieces
      obtain ⟨cs', hreceived, hretraced⟩ := h.receive_piece seeds ht hp mss ci
      obtain ⟨cs'', awaits', last', hreceived', hretraced'⟩ := ih hretraced hrest
      refine ⟨cs'', awaits', last', ?_, ?_⟩
      · rw [List.flatMap_cons, Taken.transmit_append, receive_all_append, hreceived, hreceived']
      · have hitems : (fun isC2s => (outs isC2s ++ Piece.itemsOf [p] isC2s) ++
            Piece.itemsOf pieces isC2s) =
            fun isC2s => outs isC2s ++ Piece.itemsOf (p :: pieces) isC2s := by
          funext isC2s
          rw [List.append_assoc, ← Piece.items_of_cons]
        have hnext : Taken.advance next ((p :: pieces).flatMap (Piece.segments mss ci)) =
            Taken.advance (Taken.advance next (p.segments mss ci))
              (pieces.flatMap (Piece.segments mss ci)) := by
          rw [List.flatMap_cons]
          exact List.foldl_append
        rw [hnext, ← hitems]
        exact hretraced'

/-! ## From the handshake to the FINs -/

omit [HuffmanDecoding] in
/-- The SYN and the SYN-ACK use up one sequence number each. -/
theorem advance_handshake (t : Taken) (ci : Nat) (next : Bool → Seq) (isC2s : Bool) :
    Taken.advance next (t.state.handshake ci) isC2s = next isC2s + 1 := by
  have hsyn : TcpFlags.syn &&& (TcpFlags.syn ||| TcpFlags.fin) ≠ 0 := by decide
  have hsynAck : (TcpFlags.syn ||| TcpFlags.ack) &&& (TcpFlags.syn ||| TcpFlags.fin) ≠ 0 := by
    decide
  have hack : TcpFlags.ack &&& (TcpFlags.syn ||| TcpFlags.fin) = 0 := by decide
  cases isC2s <;>
    simp [Taken.advance, handshake, OutPkt.consumed, hsyn, hsynAck, hack]

/-- The connection after its SYN. -/
def halfOpen (t : Taken) (isn : Seq) : ConnState where
  client := t.state.client
  server := t.state.server
  firstTs := t.state.firstTs
  lastTs := t.state.firstTs
  sawSyn := true
  c2s := ⟨.connected true true isn, some (t.endpoint true), [], true⟩
  s2c := { DirState.new with dir := .fromConnectionStart true false }

/-- The SYN opens the connection. -/
theorem receive_syn (ht : t.Sound) (isn ack : Seq) :
    receive seeds none ((t.endpoint true).segment isn ack TcpFlags.syn [], t.state.firstTs) =
      halfOpen t isn := by
  have hfresh : ((t.endpoint true).segment isn ack TcpFlags.syn []).freshSyn = true := by
    show (TcpFlags.syn &&& TcpFlags.syn != 0 && !(TcpFlags.syn &&& TcpFlags.ack != 0)) = true
    decide
  have hsyn : ((t.endpoint true).segment isn ack TcpFlags.syn []).has TcpFlags.syn = true := by
    show (TcpFlags.syn &&& TcpFlags.syn != 0) = true
    decide
  have hside : (((t.endpoint true).segment isn ack TcpFlags.syn []).src ==
      (opened ((t.endpoint true).segment isn ack TcpFlags.syn []) t.state.firstTs).client) = true :=
    beq_self_eq_true _
  have hclient : (t.endpoint true).src = t.state.client := (ht.sends true).src
  have hserver : (t.endpoint true).dst = t.state.server := (ht.sends true).dst
  rw [receive]
  simp only [hfresh, if_true]
  rw [take_in_of_empty hside rfl, touch_eq]
  simp only [touchedDir, opened, hfresh, if_true, dir, DirState.noteEndpoint, DirState.new,
    Option.none_or, DirState.seed, Bool.false_eq_true, if_false, DirState.noteSyn, hsyn, setDir]
  rw [halfOpen, ← hclient, ← hserver]
  rfl

/-- The SYN-ACK opens the other direction. -/
theorem receive_syn_ack (ht : t.Sound) (isn seq ack : Seq) :
    receive seeds (some (halfOpen t isn))
        ((t.endpoint false).segment seq ack (TcpFlags.syn ||| TcpFlags.ack) [], t.state.firstTs) =
      { halfOpen t isn with
        s2c := ⟨.connected true false seq, some (t.endpoint false), [], true⟩ } := by
  have hfresh : ((t.endpoint false).segment seq ack (TcpFlags.syn ||| TcpFlags.ack) []).freshSyn =
      false := by
    show ((TcpFlags.syn ||| TcpFlags.ack) &&& TcpFlags.syn != 0 &&
      !((TcpFlags.syn ||| TcpFlags.ack) &&& TcpFlags.ack != 0)) = false
    decide
  have hsyn : ((t.endpoint false).segment seq ack (TcpFlags.syn ||| TcpFlags.ack) []).has
      TcpFlags.syn = true := by
    show ((TcpFlags.syn ||| TcpFlags.ack) &&& TcpFlags.syn != 0) = true
    decide
  have hside : (((t.endpoint false).segment seq ack (TcpFlags.syn ||| TcpFlags.ack) []).src ==
      (halfOpen t isn).client) = false := by
    refine beq_false_of_ne fun hsame => ht.differ ?_
    exact (hsame.symm.trans (ht.sends false).src)
  rw [receive]
  simp only [hfresh, Bool.false_eq_true, if_false, Option.getD_some]
  rw [take_in_of_empty hside rfl, touch_eq]
  simp only [touchedDir, halfOpen, Bool.false_eq_true, if_true, dir, DirState.noteEndpoint,
    DirState.new, Option.none_or, DirState.seed, if_false, DirState.noteSyn, hsyn, setDir]
  rfl

/-- After the handshake both directions are known from their start. -/
theorem receive_handshake (ht : t.Sound) (ci : Nat) (next : Bool → Seq) :
    ∃ cs, receiveAll seeds none (t.transmit next (t.state.handshake ci)) = some cs ∧
      cs.Retraced t true (Taken.advance next (t.state.handshake ci)) t.state.firstTs
        (fun _ => []) := by
  let opened : ConnState := { halfOpen t (next true) with
    s2c := ⟨.connected true false (next false), some (t.endpoint false), [], true⟩ }
  have hunderway : opened.Underway t t.state.firstTs := by
    refine ⟨rfl, rfl, rfl, rfl, rfl, fun isC2s => ?_, fun isC2s => ?_⟩ <;> cases isC2s <;> rfl
  have hack : TcpFlags.ack &&& TcpFlags.syn = 0 := by decide
  have hreceived : receiveAll seeds none (t.transmit next (t.state.handshake ci)) =
      some { opened with lastTs := t.state.firstTs } := by
    simp only [handshake, Taken.transmit, receiveAll, List.foldl_cons, List.foldl_nil]
    rw [receive_syn seeds ht, Function.update_of_ne Bool.false_ne_true, receive_syn_ack seeds ht]
    exact congrArg some (hunderway.receive_empty seeds ht hack _)
  refine ⟨opened, hreceived, hunderway, fun isC2s => ?_, fun isC2s => ?_⟩
  · rw [advance_handshake]
    cases isC2s
    · exact Direction.paused_connected false (next false)
    · exact Direction.paused_connected true (next true)
  · cases isC2s <;> exact List.Forall₂.nil

/-- The FINs change only the time. -/
theorem Retraced.receive_closing (h : cs.Retraced t awaits next last outs) (ht : t.Sound)
    (ci : Nat) :
    ∃ cs', receiveAll seeds (some cs) (t.transmit next (t.state.closing ci)) = some cs' ∧
      cs'.Underway t (max t.state.lastTs t.state.firstTs) ∧
      (∀ isC2s, (cs'.dir isC2s).dir = (cs.dir isC2s).dir) ∧
      ∀ isC2s, WrittenAs (outs isC2s) (cs'.dir isC2s).out := by
  let ended := max t.state.lastTs t.state.firstTs
  have hunderway : ({ cs with lastTs := ended } : ConnState).Underway t ended :=
    { h.underway with lastTs := rfl }
  refine ⟨{ cs with lastTs := ended }, ?_, hunderway, fun isC2s => by rw [cs.dir_at],
    fun isC2s => ?_⟩
  · simp only [closing, Taken.transmit, receiveAll, List.foldl_cons, List.foldl_nil]
    rw [h.underway.receive_empty seeds ht fin_flags.1]
    exact congrArg some (hunderway.receive_empty seeds ht fin_flags.1 ended)
  · rw [cs.dir_at]
    exact h.out isC2s

end ConnState

/-! ## A whole connection -/

namespace Piece

/-- The pieces of the client: the preface if it is awaited, and then items. -/
def Led (awaits : Bool) (pieces : List Piece) : Prop :=
  if awaits then pieces = [] ∨ ∃ p rest, pieces = p :: rest ∧ p.item = none ∧
    ∀ q ∈ rest, q.item.isSome = true
  else ∀ p ∈ pieces, p.item.isSome = true

/-- Pieces can be read if those of the client are led by the preface, and all items are readable. -/
theorem play_all_of_led {awaits : Bool} {pieces : List Piece}
    (hclient : Led awaits (pieces.filter fun p => p.isC2s == true))
    (hserver : ∀ p ∈ pieces, p.isC2s = false → p.item.isSome = true)
    (hreadable : ∀ p ∈ pieces, ∀ item ∈ p.item, item.Readable) : PlayAll awaits pieces := by
  induction pieces generalizing awaits with
  | nil => trivial
  | cons p pieces ih =>
      obtain ⟨hp, hpieces⟩ := List.forall_mem_cons.mp hserver
      obtain ⟨hitem, hitems⟩ := List.forall_mem_cons.mp hreadable
      have hplays : ∀ item, p.item = some item → (p.isC2s && awaits) = false →
          p.Plays awaits := by
        intro item hsome hplaced
        unfold Plays
        rw [hsome]
        exact ⟨hplaced, hitem item hsome⟩
      cases hside : p.isC2s with
      | false =>
          obtain ⟨item, hsome⟩ := Option.isSome_iff_exists.mp (hp hside)
          rw [List.filter_cons_of_neg (by simp [hside])] at hclient
          refine ⟨hplays item hsome (by rw [hside, Bool.false_and]), ?_⟩
          rw [hsome, Option.isSome_some, Bool.and_true]
          exact ih hclient hpieces hitems
      | true =>
          rw [List.filter_cons_of_pos (by simp [hside])] at hclient
          cases awaits with
          | true =>
              rcases hclient with hnil | ⟨q, rest, heq, hnone, hrest⟩
              · cases hnil
              · cases heq
                refine ⟨?_, ?_⟩
                · unfold Plays
                  rw [hnone]
                  exact ⟨hside, rfl⟩
                · rw [hnone]
                  exact ih hrest hpieces hitems
          | false =>
              obtain ⟨hsome, hrest⟩ := List.forall_mem_cons.mp hclient
              obtain ⟨item, hsome⟩ := Option.isSome_iff_exists.mp hsome
              refine ⟨hplays item hsome (Bool.and_false _), ?_⟩
              rw [Bool.false_and]
              exact ih hrest hpieces hitems

end Piece

namespace ConnState

/-- All items that were written for a connection can be read back. -/
def Readable (cs : ConnState) : Prop := ∀ isC2s, ∀ item ∈ (cs.dir isC2s).out, item.2.Readable

/-- The items of the pieces of a direction are its output. -/
theorem items_of_pieces (cs : ConnState) (isC2s : Bool) :
    (cs.pieces isC2s).filterMap (fun p => p.item.map fun item => (p.ts, item)) =
      (cs.dir isC2s).out := by
  have hitems : ((cs.dir isC2s).out.map fun item =>
      (⟨isC2s, item.1, some item.2⟩ : Piece)).filterMap
        (fun p => p.item.map fun item => (p.ts, item)) = (cs.dir isC2s).out := by
    rw [List.filterMap_map]
    exact List.filterMap_some
  simp only [pieces]
  split
  · rw [List.filterMap_cons_none rfl, hitems]
  · exact hitems

/-- The pieces of a timely connection, sorted by time, can be read. -/
theorem play_all_by_time {cs : ConnState} {now : Nat} (h : cs.Timely now)
    (hreadable : cs.Readable) :
    Piece.PlayAll true (Piece.byTime cs.allPieces) := by
  have hfilter : ∀ isC2s, (Piece.byTime cs.allPieces).filter (fun p => p.isC2s == isC2s) =
      cs.pieces isC2s := fun isC2s => cs.filter_ordered_pieces (h.pieces isC2s).1
  have hmem : ∀ p ∈ Piece.byTime cs.allPieces, p ∈ cs.pieces p.isC2s := by
    intro p hp
    rw [← hfilter]
    exact List.mem_filter.mpr ⟨hp, beq_self_eq_true _⟩
  have hsome : ∀ isC2s, ∀ p ∈ (cs.dir isC2s).out.map (fun item =>
      (⟨isC2s, item.1, some item.2⟩ : Piece)), p.item.isSome = true := by
    intro isC2s
    exact List.forall_mem_map.mpr fun _ _ => rfl
  refine Piece.play_all_of_led ?_ (fun p hp hserver => ?_) fun p hp item hitem => ?_
  · rw [hfilter]
    unfold Piece.Led pieces
    rw [if_pos rfl]
    simp only [Bool.true_and]
    split
    · exact Or.inr ⟨_, _, rfl, rfl, hsome true⟩
    · next hempty => exact Or.inl (by simpa using hempty)
  · have hown := hmem p hp
    rw [hserver] at hown
    exact hsome false p hown
  · refine hreadable p.isC2s (p.ts, item) ?_
    rw [← cs.items_of_pieces]
    exact List.mem_filterMap.mpr ⟨p, hmem p hp, by rw [Option.mem_def.mp hitem]; rfl⟩

variable [HuffmanDecoding] (seeds : Table (String × String) Seed)

/-- A connection that was replayed from the packets of `t`. -/
structure ReadAgain (t : Taken) (cs : ConnState) : Prop where
  underway : cs.Underway t (max t.state.lastTs t.state.firstTs)
  decodeErrors : ∀ isC2s, (cs.dir isC2s).dir.decodeErrors = 0
  unseeded : ∀ isC2s, (cs.dir isC2s).dir.snapshotMisaligned = false ∧
    (cs.dir isC2s).dir.preSnapshotSkipped = 0
  out : ∀ isC2s, WrittenAs (t.state.dir isC2s).out (cs.dir isC2s).out

/-- What the replay makes of the packets of a connection. -/
theorem retraced {t : Taken} (ht : t.Sound) {now : Nat} (htimely : t.state.Timely now)
    (hreadable : t.state.Readable) (mss ci : Nat) (next : Bool → Seq) :
    ∃ cs, receiveAll seeds none (t.transmit next (t.state.handshake ci ++
        ((Piece.byTime t.state.allPieces).flatMap (Piece.segments mss ci) ++
          t.state.closing ci))) = some cs ∧
      cs.ReadAgain t := by
  obtain ⟨opened, hopened, hhandshake⟩ := receive_handshake seeds ht ci next
  obtain ⟨fed, awaits, last, hfed, hpieces⟩ := hhandshake.receive_pieces seeds ht mss ci
    (play_all_by_time htimely hreadable)
  obtain ⟨cs, hclosed, hunderway, hdir, hout⟩ := hpieces.receive_closing seeds ht ci
  refine ⟨cs, ?_, hunderway, fun isC2s => ?_, fun isC2s => ?_, fun isC2s => ?_⟩
  · rw [Taken.transmit_append, receive_all_append, hopened, Taken.transmit_append,
      receive_all_append, hfed, hclosed]
  · rw [hdir]
    exact (hpieces.paused isC2s).decodeErrors
  · rw [hdir]
    exact (hpieces.paused isC2s).unseeded
  · have hitems : Piece.itemsOf (Piece.byTime t.state.allPieces) isC2s =
        (t.state.dir isC2s).out := by
      rw [Piece.itemsOf, t.state.filter_ordered_pieces (htimely.pieces isC2s).1,
        items_of_pieces]
    have hwritten := hout isC2s
    rw [List.nil_append, hitems] at hwritten
    exact hwritten

end ConnState

end H2Tap
