import H2Tap.Lib.Takes
import H2Tap.Rebuild.Synthesis
import H2Tap.Rebuild.Turns

/-!
# Ports that are used again

Connection state is a table by addresses, next to a list of the addresses in the order in which
connections were opened. When a SYN comes for addresses that are in use, the state is replaced: what
was written for the earlier connection is gone, and the list has the addresses twice. `rebuilt_iff`
says when the rebuilt capture still has one connection for each connection of the input, with all of
its frames.
-/

namespace H2Tap

open Lib

/-! ## The frames of an output -/

/-- The frames of what was written. -/
def framesOf (out : List (Nat × Normalized)) : List Bytes := out.flatMap fun item => item.2.frames

theorem encode_chunks_ne_nil (streamId : Nat) (typ baseFlags : UInt8) (maxFrame : Nat)
    (first : Bool)
    (rest : Bytes) : encodeChunks streamId typ baseFlags maxFrame first rest ≠ [] ∧
      ∀ frame ∈ encodeChunks streamId typ baseFlags maxFrame first rest, frame ≠ [] := by
  have hframe : ∀ typ flags streamId payload, buildFrame typ flags streamId payload ≠ [] := by
    intro typ flags streamId payload
    simp [buildFrame, FrameHeader.write]
  fun_induction encodeChunks streamId typ baseFlags maxFrame first rest with
  | case1 => exact ⟨List.cons_ne_nil _ _, by simpa using hframe _ _ _ _⟩
  | case2 first rest _ _ _ _ _ ih =>
      exact ⟨List.cons_ne_nil _ _, List.forall_mem_cons.mpr ⟨hframe _ _ _ _, ih.2⟩⟩

/-- Everything that is written has frames, and none of them is empty. -/
theorem frames_ne_nil (item : Normalized) : item.frames ≠ [] ∧ ∀ frame ∈ item.frames,
    frame ≠ [] := by
  cases item with
  | block blk => exact encode_chunks_ne_nil _ _ _ _ _ _
  | failed => exact encode_chunks_ne_nil _ _ _ _ _ _
  | frame hdr payload =>
      simp [Normalized.frames, buildFrame, FrameHeader.write]

/-- The frames that a synthesized connection carries in a direction: the client's are led by the
preface. -/
def carriedFrames (isC2s : Bool) (out : List (Nat × Normalized)) : List Bytes :=
  if isC2s && !(framesOf out).isEmpty then preface :: framesOf out else framesOf out

theorem frames_of_ne_nil (out : List (Nat × Normalized)) : ∀ frame ∈ framesOf out, frame ≠ [] := by
  intro frame hframe
  obtain ⟨item, -, hitem⟩ := List.mem_flatMap.mp hframe
  exact (frames_ne_nil item.2).2 frame hitem

theorem carried_frames_ne_nil (isC2s : Bool) (out : List (Nat × Normalized)) :
    ∀ frame ∈ carriedFrames isC2s out, frame ≠ [] := by
  unfold carriedFrames
  split
  · exact List.forall_mem_cons.mpr ⟨by decide, frames_of_ne_nil out⟩
  · exact frames_of_ne_nil out

/-- How many bytes are carried. -/
def carriedBytes (isC2s : Bool) (out : List (Nat × Normalized)) : Nat :=
  (carriedFrames isC2s out).flatten.length

/-- Nothing is carried exactly if nothing was written. -/
theorem carried_bytes_eq_zero (isC2s : Bool) (out : List (Nat × Normalized)) :
    carriedBytes isC2s out = 0 ↔ out = [] := by
  constructor
  · intro hzero
    cases out with
    | nil => rfl
    | cons item out =>
        obtain ⟨frame, hframe⟩ := List.exists_mem_of_ne_nil _ (frames_ne_nil item.2).1
        have hmem : frame ∈ framesOf (item :: out) :=
          List.mem_flatMap.mpr ⟨item, List.mem_cons_self, hframe⟩
        have hcarried : frame ∈ carriedFrames isC2s (item :: out) := by
          unfold carriedFrames
          split
          · exact List.mem_cons_of_mem _ hmem
          · exact hmem
        have hempty := List.flatten_eq_nil_iff.mp (List.eq_nil_of_length_eq_zero hzero) _ hcarried
        exact absurd hempty (carried_frames_ne_nil isC2s _ frame hcarried)
  · rintro rfl
    cases isC2s <;> rfl

theorem frames_map_snd (ds : DirState) : ds.frames.map Prod.snd = framesOf ds.out := by
  unfold DirState.frames framesOf
  rw [List.map_flatMap]
  simp [Function.comp_def]

/-- The stream of a synthesized connection has these frames. -/
theorem stream_map_snd (cs : ConnState) (isC2s : Bool) :
    (cs.stream isC2s).map Prod.snd = carriedFrames isC2s (cs.dir isC2s).out := by
  have hempty : (cs.dir isC2s).frames.isEmpty = (framesOf (cs.dir isC2s).out).isEmpty := by
    rw [← frames_map_snd, List.isEmpty_map]
  simp only [ConnState.stream, carriedFrames, hempty]
  split
  · rw [List.map_cons, frames_map_snd]
  · exact frames_map_snd _

theorem stream_ne_nil (cs : ConnState) (isC2s : Bool) : ∀ f ∈ cs.stream isC2s, f.2 ≠ [] := by
  intro f hf
  refine carried_frames_ne_nil isC2s (cs.dir isC2s).out f.2 ?_
  rw [← stream_map_snd]
  exact List.mem_map_of_mem hf

/-! ## Taking the connections out of the table -/

/-- Connections that are numbered one after the other. -/
theorem numbered_of_conns {taken : List Taken} {n : Nat}
    (h : taken.map Taken.conn = List.range' 0 n) : Numbered taken := by
  refine ⟨by rw [h]; exact List.nodup_range', fun t ht => ?_⟩
  obtain ⟨i, hi, rfl⟩ := List.getElem_of_mem ht
  have hconn : (taken.map Taken.conn)[i]? = some i := by
    have hlength : i < n := by
      rw [← List.length_map (f := Taken.conn), h, List.length_range'] at hi
      exact hi
    rw [h, List.getElem?_range' hlength]
    simp
  rw [List.getElem?_map, List.getElem?_eq_getElem hi] at hconn
  rw [Option.some.inj hconn, List.getElem?_eq_getElem hi]

/-- The endpoints of a connection lie between its addresses, and one of them is known. -/
structure HasEndpoint (k : Key) (cs : ConnState) : Prop where
  known : ∃ isC2s, (cs.dir isC2s).ep.isSome = true
  key : ∀ isC2s, ∀ ep ∈ (cs.dir isC2s).ep, keyOf ep.src ep.dst = k

/-- The addresses of a connection and what was written to its two directions. -/
abbrev Contents := Key × (Bool → List (Nat × Normalized))

/-- What was written to both directions of the connection of some addresses. -/
def outputsAt (conns : Table Key ConnState) (k : Key) : Bool → List (Nat × Normalized) :=
  (conns.lookup k).elim (fun _ => []) fun cs isC2s => (cs.dir isC2s).out

/-- What a taken connection is known by: its addresses and its outputs. -/
def Taken.contents (t : Taken) : Contents :=
  (keyOf t.c2s.src t.c2s.dst, fun isC2s => (t.state.dir isC2s).out)

/-- Each address of the list is taken once, with all that was written since the last SYN, and comes
up empty when it is met again. -/
theorem take_conns_spec (ci : Nat) (keys : List Key) (conns : Table Key ConnState)
    (hready : ∀ k cs, conns.lookup k = some cs → HasEndpoint k cs)
    (hkeys : ∀ k ∈ keys, (conns.lookup k).isSome = true) :
    (takeConns ci keys conns).map Taken.conn = List.range' ci keys.length ∧
      (takeConns ci keys conns).map Taken.contents =
        takes (fun _ => []) (outputsAt conns) keys := by
  induction keys generalizing ci conns with
  | nil => exact ⟨rfl, rfl⟩
  | cons k ks ih =>
      obtain ⟨cs, hlookup⟩ := Option.isSome_iff_exists.mp (hkeys k List.mem_cons_self)
      obtain ⟨⟨side, hside⟩, hkey⟩ := hready k cs hlookup
      have hout : outputsAt conns k = fun isC2s => (cs.dir isC2s).out := by
        rw [outputsAt, hlookup]
        rfl
      -- the client's endpoint, its own or the mirrored one
      obtain ⟨a, ha, hakey⟩ : ∃ a, cs.c2s.ep.or (cs.s2c.ep.map Pkt.Endpoint.reversed) = some a ∧
          keyOf a.src a.dst = k := by
        cases hc2s : cs.c2s.ep with
        | some a => exact ⟨a, rfl, hkey true a hc2s⟩
        | none =>
            cases hs2c : cs.s2c.ep with
            | some b =>
                exact ⟨b.reversed, rfl, (key_of_comm _ _).trans (hkey false b hs2c)⟩
            | none => cases side <;> simp [ConnState.dir, hc2s, hs2c] at hside
      obtain ⟨b, hb⟩ : ∃ b, cs.s2c.ep.or (cs.c2s.ep.map Pkt.Endpoint.reversed) = some b := by
        cases hc2s : cs.c2s.ep <;> cases hs2c : cs.s2c.ep <;> simp [hc2s, hs2c] at ha ⊢
      have htakeOut : ∀ isC2s, (cs.takeOut.dir isC2s).ep = (cs.dir isC2s).ep := by
        intro isC2s
        cases isC2s <;> rfl
      have hrest := ih (ci + 1) (conns.insert k cs.takeOut) (by
        intro k' cs' hlookup'
        by_cases heq : k' = k
        · rw [heq, AList.lookup_insert] at hlookup'
          rw [← Option.some.inj hlookup', heq]
          exact ⟨⟨side, by rw [htakeOut, hside]⟩, fun isC2s ep hep =>
            hkey isC2s ep (htakeOut isC2s ▸ hep)⟩
        · rw [AList.lookup_insert_ne heq] at hlookup'
          exact hready k' cs' hlookup') (by
        intro k' hk'
        by_cases heq : k' = k
        · rw [heq, AList.lookup_insert]
          rfl
        · rw [AList.lookup_insert_ne heq]
          exact hkeys k' (List.mem_cons_of_mem _ hk'))
      have hafter : outputsAt (conns.insert k cs.takeOut) =
          Function.update (outputsAt conns) k fun _ => [] := by
        funext k'
        by_cases heq : k' = k
        · rw [heq, Function.update_self, outputsAt, AList.lookup_insert]
          funext isC2s
          cases isC2s <;> rfl
        · rw [Function.update_of_ne heq, outputsAt, AList.lookup_insert_ne heq, outputsAt]
      rw [takeConns, hlookup]
      simp only [ha, hb, List.map_cons, takes, hrest.1, hrest.2, hafter, hout]
      exact ⟨rfl, by rw [Taken.contents, hakey]⟩

/-! ## The connections of the input -/

/-- A connection of the input: its addresses, its SYN and what the replay wrote for it. -/
structure InputConn where
  key : Key
  syn : Option Seq
  written : Bool → List (Nat × Normalized)

/-- Its addresses and what was written for it. -/
def InputConn.contents (c : InputConn) : Contents := (c.key, c.written)

/-- Add what a packet wrote. -/
def InputConn.receive (c : InputConn) : Option Written → InputConn
  | none => c
  | some w => { c with
      written := Function.update c.written w.isC2s
        (c.written w.isC2s ++ w.items.map fun item => (w.ts, item)) }

/-- The connections of the input so far: those that a later SYN on their addresses ended, and the
current one of each address tuple. -/
structure Inputs where
  past : List InputConn
  current : Table Key InputConn

namespace Inputs

/-- Before the first packet. -/
def start : Inputs := ⟨[], ∅⟩

/-- All connections. -/
def all (inp : Inputs) : List InputConn := inp.past ++ inp.current.values

/-- How many connections there were so far. -/
def count (inp : Inputs) : Nat := inp.past.length + inp.current.keys.length

/-- A segment starts a new connection if it is the first one between its addresses, or a bare SYN
whose sequence number differs from that of the current connection. -/
def starts (inp : Inputs) (seg : EthSegment) : Bool :=
  match inp.current.lookup (keyOf seg.src seg.dst) with
  | none => true
  | some c => seg.freshSyn && c.syn != some seg.seq

/-- The connection of a segment. -/
def connOf (inp : Inputs) (seg : EthSegment) : InputConn :=
  let new : InputConn :=
    ⟨keyOf seg.src seg.dst, if seg.freshSyn then some seg.seq else none, fun _ => []⟩
  if inp.starts seg then new else (inp.current.lookup (keyOf seg.src seg.dst)).getD new

/-- One packet, with what the replay wrote for it. -/
def add (inp : Inputs) (packet : Packet) (written : Option Written) : Inputs :=
  match Pkt.parseEthernet packet.2 with
  | none => inp
  | some seg =>
      let k := keyOf seg.src seg.dst
      { past := if inp.starts seg then inp.past ++ (inp.current.lookup k).toList else inp.past
        current := inp.current.insert k ((inp.connOf seg).receive written) }

end Inputs

/-- A connection of the rebuilt capture lies between the addresses, and carries each of the frames
once. -/
structure Carries (s : Synthesized) (c : Contents) : Prop where
  key : s.key = c.1
  c2s : ContainsOnce s.c2s (carriedFrames true (c.2 true))
  s2c : ContainsOnce s.s2c (carriedFrames false (c.2 false))

/-- The rebuilt capture has exactly one connection for each connection of the input, with each of
its frames once. -/
def Rebuilt (mss : Nat) (r : Replay) (inp : Inputs) : Prop :=
  Relation.Comp (List.Forall₂ Carries) List.Perm (synthesized mss (takeConns 0 r.order r.conns))
    (inp.all.map InputConn.contents)

namespace Replay

variable [HuffmanDecoding] (seeds : Table (String × String) Seed)

/-- The replay next to the connections of the input. -/
def observe (s : Replay × Inputs) (packet : Packet) :
    (Replay × Inputs) × (Option Written × List JsonRecord) :=
  let turn := s.1.step seeds packet
  ((turn.1, s.2.add packet turn.2.1), turn.2)

/-- The connections of the input of a replay. -/
def inputConns (packets : List Packet) : Inputs := (run (observe seeds) (start, .start) packets).1.2

theorem observe_replay (s : Replay × Inputs) (packets : List Packet) :
    (run (observe seeds) s packets).1.1 = (run (step seeds) s.1 packets).1 := by
  induction packets generalizing s with
  | nil => rfl
  | cons packet packets ih => exact ih _

/-! ## One packet -/

omit [HuffmanDecoding] in
theorem touched_dir_ep (cs : ConnState) (isC2s : Bool) (seed : Option Seed) (seg : EthSegment) :
    (cs.touchedDir isC2s seed seg).ep =
      (cs.dir isC2s).ep.or (some ⟨seg.ethDst, seg.ethSrc, seg.src, seg.dst⟩) := by
  have hseeded : (((cs.dir isC2s).noteEndpoint seg).seed cs.sawSyn seed).1.ep =
      (cs.dir isC2s).ep.or (some ⟨seg.ethDst, seg.ethSrc, seg.src, seg.dst⟩) := by
    unfold DirState.seed
    split
    · rfl
    · dsimp only
      split
      · rfl
      · split
        · split <;> rfl
        · rfl
  unfold ConnState.touchedDir DirState.noteSyn
  split <;> exact hseeded

omit [HuffmanDecoding] in
/-- Touching a connection makes an endpoint known. -/
theorem has_endpoint_touched (r : Replay) (seg : EthSegment) (ts : Nat)
    (h : ∀ isC2s, ∀ ep ∈ ((r.found seg ts).dir isC2s).ep,
      keyOf ep.src ep.dst = keyOf seg.src seg.dst) :
    HasEndpoint (keyOf seg.src seg.dst) (r.touched seeds seg ts) := by
  have hep : ((r.touched seeds seg ts).dir (r.sentByClient seg ts)).ep =
      ((r.found seg ts).dir (r.sentByClient seg ts)).ep.or
        (some ⟨seg.ethDst, seg.ethSrc, seg.src, seg.dst⟩) := by
    rw [touched, ConnState.touch_dir, touched_dir_ep]
  refine ⟨⟨r.sentByClient seg ts, ?_⟩, ?_⟩
  · rw [hep]
    cases ((r.found seg ts).dir (r.sentByClient seg ts)).ep <;> rfl
  · intro isC2s ep hmem
    rcases Bool.eq_or_eq_not isC2s (r.sentByClient seg ts) with rfl | rfl
    · rw [hep] at hmem
      cases hfound : ((r.found seg ts).dir (r.sentByClient seg ts)).ep with
      | none =>
          rw [hfound] at hmem
          cases hmem
          rfl
      | some ep' =>
          rw [hfound] at hmem
          cases hmem
          exact h _ _ hfound
    · rw [touched, ConnState.touch_dir_not] at hmem
      exact h _ _ hmem

/-- What a segment does to the table, the list and the outputs. -/
theorem on_segment_outputs (r : Replay) (seg : EthSegment) (ts : Nat)
    (h : ∀ isC2s, ∀ ep ∈ ((r.found seg ts).dir isC2s).ep,
      keyOf ep.src ep.dst = keyOf seg.src seg.dst) :
    ∃ cs, (r.onSegment seeds seg ts).1.conns = r.conns.insert (keyOf seg.src seg.dst) cs ∧
      (r.onSegment seeds seg ts).1.order = r.orderAfter seg ∧
      HasEndpoint (keyOf seg.src seg.dst) cs ∧
      ∀ c : InputConn, (∀ isC2s, c.written isC2s = ((r.found seg ts).dir isC2s).out) →
        ∀ isC2s, (c.receive (r.onSegment seeds seg ts).2.1).written isC2s = (cs.dir isC2s).out := by
  have hendpoint := has_endpoint_touched seeds r seg ts h
  have hout : ∀ isC2s, ((r.touched seeds seg ts).dir isC2s).out =
      ((r.found seg ts).dir isC2s).out := by
    intro isC2s
    rcases Bool.eq_or_eq_not isC2s (r.sentByClient seg ts) with rfl | rfl
    · rw [touched, ConnState.touch_dir, ConnState.touched_dir_out]
    · rw [touched, ConnState.touch_dir_not]
  cases hpayload : seg.payload.isEmpty with
  | true =>
      rw [on_segment_of_empty seeds hpayload]
      exact ⟨_, rfl, rfl, hendpoint, fun c hc isC2s => (hc isC2s).trans (hout isC2s).symm⟩
  | false =>
      rw [on_segment_of_payload seeds hpayload]
      have hsame : ∀ isC2s, ((r.absorbed seeds seg ts).dir isC2s).ep =
          ((r.touched seeds seg ts).dir isC2s).ep :=
        fun isC2s => ConnState.absorb_ep _ _ _ _ _ _
      refine ⟨r.absorbed seeds seg ts, rfl, rfl, ⟨?_, ?_⟩, ?_⟩
      · obtain ⟨side, hside⟩ := hendpoint.known
        exact ⟨side, by rw [hsame, hside]⟩
      · intro isC2s ep hep
        exact hendpoint.key isC2s ep (hsame isC2s ▸ hep)
      · intro c hc isC2s
        rcases Bool.eq_or_eq_not isC2s (r.sentByClient seg ts) with rfl | rfl
        · rw [absorbed, ConnState.absorb_dir, hout]
          simp only [InputConn.receive, Function.update_self, hc]
        · rw [absorbed, ConnState.absorb_dir_not, hout]
          simp only [InputConn.receive]
          rw [Function.update_of_ne (Bool.not_ne_self _), hc]

/-! ## Every packet -/

/-- How the replay and the connections of the input stay related. The list has an entry for every
connection of the input, and more if a SYN was retransmitted; if it has no more, then what was
written for the current connections is what the table holds. -/
structure Tracks (r : Replay) (inp : Inputs) : Prop where
  opened : ∀ k, (inp.current.lookup k).isSome = (r.conns.lookup k).isSome
  endpoints : ∀ k cs, r.conns.lookup k = some cs → HasEndpoint k cs
  keyed : ∀ k c, inp.current.lookup k = some c → c.key = k
  order_opened : ∀ k ∈ r.order, (r.conns.lookup k).isSome = true
  count_le : inp.count ≤ r.order.length
  exact : inp.count = r.order.length →
    r.order.Perm (inp.current.keys ++ inp.past.map InputConn.key) ∧
      ∀ k c cs, inp.current.lookup k = some c → r.conns.lookup k = some cs →
        ∀ isC2s, c.written isC2s = (cs.dir isC2s).out

/-- No SYN was retransmitted, and nothing was written for a connection whose addresses were used
again. -/
def Distinct (r : Replay) (inp : Inputs) : Prop :=
  inp.count = r.order.length ∧ ∀ c ∈ inp.past, ∀ isC2s, c.written isC2s = []

/-- A bare SYN for addresses in use is not that of the current connection, and nothing was written
for that connection. -/
def ReusesIdle (s : Replay × Inputs) (packet : Packet) : Prop :=
  ∀ seg, Pkt.parseEthernet packet.2 = some seg → seg.freshSyn = true →
    ∀ c, s.2.current.lookup (keyOf seg.src seg.dst) = some c →
      c.syn ≠ some seg.seq ∧ ∀ isC2s, c.written isC2s = []

omit [HuffmanDecoding] in
theorem tracks_start : Tracks start .start where
  opened _ := rfl
  endpoints k cs hlookup := by simp [start] at hlookup
  keyed k c hlookup := by simp [Inputs.start] at hlookup
  order_opened k hk := by simp [start] at hk
  count_le := le_refl _
  exact _ := ⟨List.Perm.nil, fun k c cs hlookup => by simp [Inputs.start] at hlookup⟩

omit [HuffmanDecoding] in
/-- A connection of the input starts only where the replay opens one. -/
theorem Tracks.opens_of_starts {r : Replay} {inp : Inputs} (h : Tracks r inp) {seg : EthSegment}
    (hstarts : inp.starts seg = true) : r.opens seg = true := by
  unfold Inputs.starts at hstarts
  unfold opens
  have hopened := h.opened (keyOf seg.src seg.dst)
  cases hcurrent : inp.current.lookup (keyOf seg.src seg.dst) with
  | none =>
      rw [hcurrent] at hopened
      cases hlookup : r.conns.lookup (keyOf seg.src seg.dst) with
      | none => simp
      | some cs => simp [hlookup] at hopened
  | some c =>
      rw [hcurrent] at hstarts
      simp only [Bool.and_eq_true] at hstarts
      simp [hstarts.1]

omit [HuffmanDecoding] in
/-- The addresses of the connections, when a packet is added. -/
theorem add_keys_perm {inp : Inputs} (hkeyed : ∀ k c, inp.current.lookup k = some c → c.key = k)
    {packet : Packet} {seg : EthSegment} (hseg : Pkt.parseEthernet packet.2 = some seg)
    (written : Option Written) :
    ((inp.add packet written).current.keys ++
        (inp.add packet written).past.map InputConn.key).Perm
      ((inp.current.keys ++ inp.past.map InputConn.key) ++
        if inp.starts seg then [keyOf seg.src seg.dst] else []) := by
  cases hstarts : inp.starts seg with
  | true =>
      simp only [Inputs.add, hseg, hstarts, if_true]
      cases hlookup : inp.current.lookup (keyOf seg.src seg.dst) with
      | none =>
          rw [Table.keys_insert_of_none hlookup, Option.toList_none, List.append_nil]
          exact (List.perm_append_singleton _ _).symm
      | some c =>
          rw [Option.toList_some, List.map_append, List.map_singleton, hkeyed _ c hlookup,
            ← List.append_assoc]
          exact ((Table.keys_insert_of_some hlookup _).append_right _).append_right _
  | false =>
      simp only [Inputs.add, hseg, hstarts, Bool.false_eq_true, if_false, List.append_nil]
      cases hlookup : inp.current.lookup (keyOf seg.src seg.dst) with
      | none => simp [Inputs.starts, hlookup] at hstarts
      | some c => exact (Table.keys_insert_of_some hlookup _).append_right _

omit [HuffmanDecoding] in
theorem conn_of_key {inp : Inputs} (hkeyed : ∀ k c, inp.current.lookup k = some c → c.key = k)
    (seg : EthSegment) (written : Option Written) :
    ((inp.connOf seg).receive written).key = keyOf seg.src seg.dst := by
  have hreceive : ∀ c : InputConn, (c.receive written).key = c.key := by
    intro c
    cases written <;> rfl
  rw [hreceive, Inputs.connOf]
  split
  · rfl
  · cases hlookup : inp.current.lookup (keyOf seg.src seg.dst) with
    | none => rfl
    | some c => exact hkeyed _ c hlookup

omit [HuffmanDecoding] in
theorem add_count {inp : Inputs} (hkeyed : ∀ k c, inp.current.lookup k = some c → c.key = k)
    {packet : Packet} {seg : EthSegment} (hseg : Pkt.parseEthernet packet.2 = some seg)
    (written : Option Written) :
    (inp.add packet written).count = inp.count + (inp.starts seg).toNat := by
  have hlength := (add_keys_perm hkeyed hseg written).length_eq
  simp only [List.length_append, List.length_map] at hlength
  cases hstarts : inp.starts seg <;> simp [hstarts] at hlength ⊢ <;> unfold Inputs.count <;> omega

omit [HuffmanDecoding] in
theorem order_after_length (r : Replay) (seg : EthSegment) :
    (r.orderAfter seg).length = r.order.length + (r.opens seg).toNat := by
  unfold orderAfter
  cases r.opens seg <;> simp

omit [HuffmanDecoding] in
/-- The connection of the input has the outputs of the connection that the replay finds, as long as
both open and start alike. -/
theorem Tracks.written_found {r : Replay} {inp : Inputs} (h : Tracks r inp)
    (hexact : inp.count = r.order.length) {seg : EthSegment}
    (hsame : r.opens seg = inp.starts seg) (ts : Nat) (isC2s : Bool) :
    (inp.connOf seg).written isC2s = ((r.found seg ts).dir isC2s).out := by
  cases hstarts : inp.starts seg with
  | true =>
      rw [hstarts] at hsame
      have hopened : r.found seg ts = ConnState.opened seg ts := by
        rcases found_cases r seg ts with ⟨hopened, -⟩ | ⟨hsyn, hlookup⟩
        · exact hopened
        · simp [opens, hsyn, hlookup] at hsame
      rw [hopened, (ConnState.opened_dir seg ts isC2s).2]
      simp only [Inputs.connOf, hstarts, if_true]
  | false =>
      rw [hstarts] at hsame
      simp only [opens, Bool.or_eq_false_iff] at hsame
      obtain ⟨hsyn, hlookup⟩ := hsame
      obtain ⟨cs, hcs⟩ : ∃ cs, r.conns.lookup (keyOf seg.src seg.dst) = some cs := by
        cases hlookup' : r.conns.lookup (keyOf seg.src seg.dst) with
        | none => simp [hlookup'] at hlookup
        | some cs => exact ⟨cs, rfl⟩
      obtain ⟨c, hc⟩ : ∃ c, inp.current.lookup (keyOf seg.src seg.dst) = some c := by
        have hopened := h.opened (keyOf seg.src seg.dst)
        rw [hcs] at hopened
        exact Option.isSome_iff_exists.mp hopened
      simp only [Inputs.connOf, hstarts, found, hsyn, Bool.false_eq_true, if_false, hc, hcs,
        Option.getD_some]
      exact (h.exact hexact).2 _ c cs hc hcs isC2s

omit [HuffmanDecoding] in
theorem Tracks.starts_le_opens {r : Replay} {inp : Inputs} (h : Tracks r inp) (seg : EthSegment) :
    (inp.starts seg).toNat ≤ (r.opens seg).toNat := by
  cases hstarts : inp.starts seg with
  | false => exact Nat.zero_le _
  | true => rw [h.opens_of_starts hstarts]

omit [HuffmanDecoding] in
theorem Tracks.endpoint_found {r : Replay} {inp : Inputs} (h : Tracks r inp) (seg : EthSegment)
    (ts : Nat) : ∀ isC2s, ∀ ep ∈ ((r.found seg ts).dir isC2s).ep,
      keyOf ep.src ep.dst = keyOf seg.src seg.dst := by
  intro isC2s ep hmem
  rcases found_cases r seg ts with ⟨hopened, -⟩ | ⟨-, hlookup⟩
  · rw [hopened] at hmem
    unfold ConnState.opened ConnState.dir at hmem
    cases isC2s <;> cases hsyn : seg.freshSyn <;> simp [hsyn, DirState.new] at hmem
  · exact (h.endpoints _ _ hlookup).key isC2s ep hmem

omit [HuffmanDecoding] in
/-- If the list has no more entries than there are connections after a segment, then it had no more
before, and the segment opens a connection in the replay exactly if it starts one. -/
theorem Tracks.exact_before {r : Replay} {inp : Inputs} (h : Tracks r inp) {packet : Packet}
    {seg : EthSegment} (hseg : Pkt.parseEthernet packet.2 = some seg) {written : Option Written}
    (hexact : (inp.add packet written).count = (r.orderAfter seg).length) :
    inp.count = r.order.length ∧ r.opens seg = inp.starts seg := by
  rw [add_count h.keyed hseg, order_after_length] at hexact
  have hle := h.count_le
  have hgrows := h.starts_le_opens seg
  refine ⟨by omega, ?_⟩
  cases hstarts : inp.starts seg <;> cases hopens : r.opens seg <;> simp_all

omit [HuffmanDecoding] in
/-- The list has the keys of the connections, as long as both open and start alike. -/
theorem Tracks.order_perm {r : Replay} {inp : Inputs} (h : Tracks r inp)
    (hexact : inp.count = r.order.length) {packet : Packet} {seg : EthSegment}
    (hseg : Pkt.parseEthernet packet.2 = some seg) (hsame : r.opens seg = inp.starts seg)
    (written : Option Written) :
    (r.orderAfter seg).Perm ((inp.add packet written).current.keys ++
      (inp.add packet written).past.map InputConn.key) := by
  refine List.Perm.trans ?_ (add_keys_perm h.keyed hseg written).symm
  rw [orderAfter, hsame]
  have hperm := (h.exact hexact).1
  split
  · exact hperm.append_right _
  · rw [List.append_nil]
    exact hperm

/-- A segment keeps the replay and the connections of the input related. -/
theorem tracks_on_segment {r : Replay} {inp : Inputs} (h : Tracks r inp) {packet : Packet}
    {seg : EthSegment} (hseg : Pkt.parseEthernet packet.2 = some seg) :
    Tracks (r.onSegment seeds seg packet.1).1
      (inp.add packet (r.onSegment seeds seg packet.1).2.1) := by
  obtain ⟨cs, hconns, horder, hendpoint, hout⟩ :=
    on_segment_outputs seeds r seg packet.1 (h.endpoint_found seg packet.1)
  -- of what is written only its effect on the outputs matters
  generalize (r.onSegment seeds seg packet.1).2.1 = written at hout ⊢
  have hcurrent : (inp.add packet written).current =
      inp.current.insert (keyOf seg.src seg.dst) ((inp.connOf seg).receive written) := by
    simp only [Inputs.add, hseg]
  constructor
  · intro k
    rw [hcurrent, hconns, Table.isSome_lookup_insert, Table.isSome_lookup_insert, h.opened k]
  · rw [hconns]
    exact Table.lookup_insert_rule hendpoint h.endpoints
  · rw [hcurrent]
    exact Table.lookup_insert_rule (conn_of_key h.keyed seg written) h.keyed
  · intro k hk
    rw [hconns, Table.isSome_lookup_insert]
    rw [horder, orderAfter] at hk
    split at hk
    · rcases List.mem_append.mp hk with hk | hk
      · rw [h.order_opened k hk, Bool.or_true]
      · rw [decide_eq_true (List.mem_singleton.mp hk), Bool.true_or]
    · rw [h.order_opened k hk, Bool.or_true]
  · have hle := h.count_le
    have hgrows := h.starts_le_opens seg
    rw [add_count h.keyed hseg, horder, order_after_length]
    omega
  · intro hexact
    rw [horder] at hexact
    obtain ⟨hbefore, hsame⟩ := h.exact_before hseg hexact
    refine ⟨by rw [horder]; exact h.order_perm hbefore hseg hsame written, ?_⟩
    intro k c cs' hc hcs isC2s
    rw [hcurrent] at hc
    rw [hconns] at hcs
    by_cases heq : k = keyOf seg.src seg.dst
    · rw [heq, AList.lookup_insert] at hc hcs
      rw [← Option.some.inj hc, ← Option.some.inj hcs]
      exact hout _ (fun isC2s => h.written_found hbefore hsame packet.1 isC2s) isC2s
    · rw [AList.lookup_insert_ne heq] at hc hcs
      exact (h.exact hbefore).2 k c cs' hc hcs isC2s

/-- So does a packet. -/
theorem tracks_step {r : Replay} {inp : Inputs} (h : Tracks r inp) (packet : Packet) :
    Tracks (r.step seeds packet).1 (inp.add packet (r.step seeds packet).2.1) := by
  have hcounted : Tracks r.countPacket inp :=
    ⟨h.opened, h.endpoints, h.keyed, h.order_opened, h.count_le, h.exact⟩
  cases hseg : Pkt.parseEthernet packet.2 with
  | none =>
      rw [step_of_none seeds hseg]
      simp only [Inputs.add, hseg]
      exact hcounted
  | some seg =>
      rw [step_of_segment seeds hseg]
      exact tracks_on_segment seeds hcounted hseg

omit [HuffmanDecoding] in
theorem Tracks.lookup_isNone {r : Replay} {inp : Inputs} (h : Tracks r inp) (k : Key) :
    (r.conns.lookup k).isNone = (inp.current.lookup k).isNone := by
  rw [← Option.not_isSome, ← Option.not_isSome, h.opened k]

omit [HuffmanDecoding] in
/-- A segment opens a connection exactly if it starts one, and ends an idle one then, as long as it
uses no addresses again, or those of an idle connection. -/
theorem Tracks.reuses_idle_iff {r : Replay} {inp : Inputs} (h : Tracks r inp)
    (hidle : ∀ c ∈ inp.past, ∀ isC2s, c.written isC2s = []) {packet : Packet} {seg : EthSegment}
    (hseg : Pkt.parseEthernet packet.2 = some seg) :
    (inp.starts seg = r.opens seg ∧
      ∀ c ∈ (if inp.starts seg then
          inp.past ++ (inp.current.lookup (keyOf seg.src seg.dst)).toList else inp.past),
        ∀ isC2s, c.written isC2s = []) ↔ ReusesIdle (r, inp) packet := by
  have hnone := h.lookup_isNone (keyOf seg.src seg.dst)
  cases hlookup : inp.current.lookup (keyOf seg.src seg.dst) with
  | none =>
      rw [hlookup] at hnone
      refine iff_of_true ⟨by simp [Inputs.starts, opens, hlookup, hnone], ?_⟩ ?_
      · simpa using hidle
      · intro seg' hseg' _ c hc
        rw [hseg] at hseg'
        cases hseg'
        simp [hlookup] at hc
  | some c =>
      rw [hlookup] at hnone
      have hidle_iff : ReusesIdle (r, inp) packet ↔ (seg.freshSyn = true →
          c.syn ≠ some seg.seq ∧ ∀ isC2s, c.written isC2s = []) := by
        simp only [ReusesIdle, hseg, Option.some.injEq, forall_eq', hlookup]
      rw [hidle_iff]
      simp only [Inputs.starts, opens, hlookup, hnone, Option.isNone_some, Bool.or_false]
      cases hsyn : seg.freshSyn with
      | false => simpa using hidle
      | true =>
          by_cases hdiffers : c.syn = some seg.seq
          · simp [hdiffers]
          · have hne : (c.syn != some seg.seq) = true := by simpa using hdiffers
            simp only [hne, Bool.and_true, if_true, Option.toList_some, List.mem_append,
              List.mem_singleton, true_and, forall_const]
            constructor
            · exact fun hall => ⟨hdiffers, hall c (Or.inr rfl)⟩
            · rintro ⟨-, hempty⟩ c' (hmem | rfl)
              · exact hidle c' hmem
              · exact hempty

/-- A packet keeps the connections distinct exactly if it uses no addresses again, or those of an
idle connection; and they never become distinct again. -/
theorem distinct_step {r : Replay} {inp : Inputs} (h : Tracks r inp) (packet : Packet) :
    (Distinct r inp → (Distinct (r.step seeds packet).1
      (inp.add packet (r.step seeds packet).2.1) ↔ ReusesIdle (r, inp) packet)) ∧
    (¬ Distinct r inp → ¬ Distinct (r.step seeds packet).1
      (inp.add packet (r.step seeds packet).2.1)) := by
  cases hseg : Pkt.parseEthernet packet.2 with
  | none =>
      have hidle : ReusesIdle (r, inp) packet := fun seg hseg' => by simp [hseg] at hseg'
      rw [step_of_none seeds hseg]
      simp only [Inputs.add, hseg]
      exact ⟨fun hdistinct => iff_of_true hdistinct hidle, id⟩
  | some seg =>
      rw [step_of_segment seeds hseg]
      have horder : (r.countPacket.onSegment seeds seg packet.1).1.order = r.orderAfter seg := by
        cases hpayload : seg.payload.isEmpty with
        | true => rw [on_segment_of_empty seeds hpayload]; rfl
        | false => rw [on_segment_of_payload seeds hpayload]; rfl
      have hcount := add_count h.keyed hseg (r.countPacket.onSegment seeds seg packet.1).2.1
      have hlength := order_after_length r seg
      have hle := h.count_le
      have hgrows := h.starts_le_opens seg
      have hpast : (inp.add packet (r.countPacket.onSegment seeds seg packet.1).2.1).past =
          if inp.starts seg then inp.past ++ (inp.current.lookup (keyOf seg.src seg.dst)).toList
          else inp.past := by
        simp only [Inputs.add, hseg]
      unfold Distinct
      rw [horder, hlength, hcount, hpast]
      constructor
      · rintro ⟨hexact, hidle⟩
        have hsame : inp.count + (inp.starts seg).toNat = r.order.length + (r.opens seg).toNat ↔
            inp.starts seg = r.opens seg := by
          rw [hexact, Nat.add_left_cancel_iff]
          cases inp.starts seg <;> cases r.opens seg <;> simp
        rw [hsame]
        exact h.reuses_idle_iff hidle hseg
      · rintro hbad ⟨hexact, hidle⟩
        refine hbad ⟨by omega, fun c hc => hidle c ?_⟩
        split
        · exact List.mem_append_left _ hc
        · exact hc

/-! ## The rebuilt capture -/

/-- How many bytes a connection with these contents carries. -/
def contentBytes (c : Contents) : Nat :=
  carriedBytes true (c.2 true) + carriedBytes false (c.2 false)

omit [HuffmanDecoding] in
/-- A connection carries nothing exactly if nothing was written for it. -/
theorem content_bytes_eq_zero (c : Contents) : contentBytes c = 0 ↔ ∀ isC2s, c.2 isC2s = [] := by
  unfold contentBytes
  rw [Nat.add_eq_zero_iff, carried_bytes_eq_zero, carried_bytes_eq_zero, Bool.forall_bool, and_comm]

omit [HuffmanDecoding] in
/-- The bytes of the rebuilt connections are those of the contents. -/
theorem bytes_of_carries {ss : List Synthesized} {cs : List Contents}
    (h : List.Forall₂ Carries ss cs) :
    (ss.map fun s => s.c2s.length + s.s2c.length).sum = (cs.map contentBytes).sum := by
  have hlength : ∀ {bytes : Bytes} {frames : List Bytes}, ContainsOnce bytes frames →
      bytes.length = frames.flatten.length := by
    rintro bytes frames ⟨inOrder, hperm, rfl⟩
    exact hperm.flatten.length_eq
  induction h with
  | nil => rfl
  | cons hcarries _ ih =>
      simp only [List.map_cons, List.sum_cons, ih, hlength hcarries.c2s, hlength hcarries.s2c,
        contentBytes, carriedBytes]

omit [HuffmanDecoding] in
/-- The rebuilt capture has a connection for each entry of the list. -/
theorem Tracks.synthesized_carries {r : Replay} {inp : Inputs} (h : Tracks r inp) (mss : Nat) :
    ∃ cs, List.Forall₂ Carries (synthesized mss (takeConns 0 r.order r.conns)) cs ∧
      cs.Perm (takes (fun _ => []) (outputsAt r.conns) r.order) := by
  obtain ⟨hconns, hcontents⟩ := take_conns_spec 0 r.order r.conns h.endpoints h.order_opened
  set taken := takeConns 0 r.order r.conns with htaken
  have hnumbered : Numbered taken := numbered_of_conns hconns
  have hcarries : List.Forall₂ Carries
      (taken.map fun t => ⟨keyOf t.c2s.src t.c2s.dst,
        streamIn (sortedPackets mss taken) t.conn true,
        streamIn (sortedPackets mss taken) t.conn false⟩) (taken.map Taken.contents) := by
    have hstream : ∀ t ∈ taken, ∀ isC2s,
        ContainsOnce (streamIn (sortedPackets mss taken) t.conn isC2s)
          (carriedFrames isC2s (t.state.dir isC2s).out) := by
      intro t ht isC2s
      rw [← stream_map_snd]
      exact stream_contains hnumbered ht (stream_ne_nil t.state isC2s)
    rw [List.forall₂_map_left_iff, List.forall₂_map_right_iff, List.forall₂_same]
    exact fun t ht => ⟨rfl, hstream t ht true, hstream t ht false⟩
  obtain ⟨cs, hforall, hperm⟩ := List.perm_comp_forall₂ (synthesized_perm mss hnumbered) hcarries
  exact ⟨cs, hforall, hcontents ▸ hperm⟩

omit [HuffmanDecoding] in
/-- As long as the list has one entry for each connection of the input, its entries find what was
written for the current connections, and nothing for the earlier ones. -/
theorem Tracks.takes_order {r : Replay} {inp : Inputs} (h : Tracks r inp)
    (hexact : inp.count = r.order.length) :
    (takes (fun _ => []) (outputsAt r.conns) r.order).Perm
      (inp.current.values.map InputConn.contents ++
        inp.past.map fun c => (c.key, fun _ => [])) := by
  obtain ⟨hperm, hwritten⟩ := h.exact hexact
  refine (takes_perm _ hperm _).trans ?_
  have hagain : ∀ k ∈ inp.past.map InputConn.key,
      k ∈ inp.current.keys ∨ outputsAt r.conns k = fun _ => [] := by
    intro k hk
    have hopened := h.order_opened k (hperm.mem_iff.mpr (List.mem_append_right _ hk))
    rw [← h.opened] at hopened
    exact Or.inl (AList.lookup_isSome.mp hopened)
  rw [takes_repeated inp.current.keys_nodup hagain]
  refine List.Perm.of_eq (congrArg₂ _ ?_ ?_)
  · rw [AList.keys, List.keys, Table.values, List.map_map, List.map_map]
    refine List.map_congr_left ?_
    rintro ⟨k, c⟩ hmem
    have hc : inp.current.lookup k = some c := AList.mem_lookup_iff.mpr hmem
    obtain ⟨cs, hcs⟩ := Option.isSome_iff_exists.mp ((h.opened k).symm.trans (by rw [hc]; rfl))
    have hsame : c.written = outputsAt r.conns k := by
      funext isC2s
      rw [outputsAt, hcs]
      exact hwritten k c cs hc hcs isC2s
    simp only [Function.comp_apply, InputConn.contents, h.keyed k c hc, hsame]
  · rw [List.map_map]
    rfl

omit [HuffmanDecoding] in
/-- The rebuilt capture has the connections of the input exactly if these are distinct. -/
theorem rebuilt_iff_distinct {r : Replay} {inp : Inputs} (h : Tracks r inp) (mss : Nat) :
    Rebuilt mss r inp ↔ Distinct r inp := by
  obtain ⟨cs, hcarries, hperm⟩ := h.synthesized_carries mss
  have hall : inp.all.length = inp.count := by
    simp [Inputs.all, Inputs.count, Table.values, AList.keys, List.keys]
  constructor
  · rintro ⟨cs', hcarries', hperm'⟩
    have hexact : inp.count = r.order.length := by
      rw [← hall, ← List.length_map (f := InputConn.contents), ← hperm'.length_eq,
        ← hcarries'.length_eq, hcarries.length_eq, hperm.length_eq, takes_length]
    refine ⟨hexact, ?_⟩
    -- the two sides carry equally many bytes
    have hbytes := (bytes_of_carries hcarries).symm.trans (bytes_of_carries hcarries')
    rw [((hperm.trans (h.takes_order hexact)).map contentBytes).sum_eq,
      (hperm'.map contentBytes).sum_eq] at hbytes
    have hnothing : ((inp.past.map fun c => ((c.key, fun _ => []) : Contents)).map
        contentBytes).sum = 0 := by
      simp [List.sum_eq_zero_iff, content_bytes_eq_zero]
    rw [Inputs.all, List.map_append, List.map_append, List.map_append, List.sum_append,
      List.sum_append, hnothing] at hbytes
    have hpast : ((inp.past.map InputConn.contents).map contentBytes).sum = 0 := by omega
    intro c hc
    exact (content_bytes_eq_zero c.contents).mp (List.sum_eq_zero_iff.mp hpast _
      (List.mem_map_of_mem (List.mem_map_of_mem hc)))
  · rintro ⟨hexact, hidle⟩
    refine ⟨cs, hcarries, (hperm.trans (h.takes_order hexact)).trans ?_⟩
    have hpast : (inp.past.map fun c => ((c.key, fun _ => []) : Contents)) =
        inp.past.map InputConn.contents := by
      refine List.map_congr_left fun c hc => ?_
      rw [InputConn.contents, show c.written = fun _ => [] from funext (hidle c hc)]
    rw [hpast, Inputs.all, List.map_append]
    exact List.perm_append_comm

/-- The replay and the connections of the input stay related along every run. -/
theorem tracks_run (packets : List Packet) :
    Tracks (run (step seeds) start packets).1 (inputConns seeds packets) := by
  have hguard : Guarded (observe seeds) (fun _ _ => True) (start, .start) packets :=
    guarded_true _ _
  rw [← observe_replay seeds (start, .start)]
  exact (run_invariant (observe seeds) (P := fun s => Tracks s.1 s.2) (Q := fun _ => True)
    (fun s packet h _ => ⟨tracks_step seeds h packet, trivial⟩) tracks_start hguard).1

theorem rebuilt_iff_distinct_run (mss : Nat) (packets : List Packet) :
    Rebuilt mss (run (step seeds) start packets).1 (inputConns seeds packets) ↔
      Distinct (run (step seeds) start packets).1 (inputConns seeds packets) :=
  rebuilt_iff_distinct (tracks_run seeds packets) mss

/-- The rebuilt capture has exactly one connection for each connection of the input, with each of
its frames once, exactly if every bare SYN for addresses in use differs from that of the current
connection and finds that nothing was written for it. -/
theorem rebuilt_iff (mss : Nat) (packets : List Packet) :
    Rebuilt mss (run (step seeds) start packets).1 (inputConns seeds packets) ↔
      Guarded (observe seeds) ReusesIdle (start, .start) packets := by
  rw [rebuilt_iff_distinct_run, ← observe_replay seeds (start, .start)]
  exact end_iff_guarded (J := fun s : Replay × Inputs => Tracks s.1 s.2)
    (P := fun s => Distinct s.1 s.2) (C := fun _ _ => True)
    (fun s packet h _ => tracks_step seeds h packet)
    (fun s packet h hdistinct _ => (distinct_step seeds h packet).1 hdistinct)
    (fun s packet h hdistinct _ => (distinct_step seeds h packet).2 hdistinct)
    tracks_start (guarded_true _ _) ⟨rfl, fun c hc => by cases hc⟩

end Replay

/-- A connection whose client sends its preface and a SETTINGS frame, and then a SYN that uses its
addresses again. -/
def reusedPackets : List Packet :=
  [(1000, Pkt.buildTcpPacket Pkt.clientEndpoint 100 0 TcpFlags.syn 65535 0 []),
    (1001, Pkt.buildTcpPacket Pkt.clientEndpoint 101 0 TcpFlags.ack 65535 1
      (preface ++ buildFrame FrameType.settings 0 0 [])),
    (1002, Pkt.buildTcpPacket Pkt.clientEndpoint 900 0 TcpFlags.syn 65535 0 [])]

/-- A SYN and its retransmission. -/
def retransmittedPackets : List Packet :=
  [(1000, Pkt.buildTcpPacket Pkt.clientEndpoint 100 0 TcpFlags.syn 65535 0 []),
    (1001, Pkt.buildTcpPacket Pkt.clientEndpoint 100 0 TcpFlags.syn 65535 0 [])]

/-- The frame of the first connection is lost, and a retransmitted SYN adds a connection. -/
theorem reused_connection_lost :
    let _ := noHuffman.toHuffmanDecoding
    ¬ Rebuilt 1460 (run (Replay.step ∅) Replay.start reusedPackets).1
        (Replay.inputConns ∅ reusedPackets) ∧
      ¬ Rebuilt 1460 (run (Replay.step ∅) Replay.start retransmittedPackets).1
        (Replay.inputConns ∅ retransmittedPackets) := by
  intro _
  constructor
  · rw [Replay.rebuilt_iff_distinct_run]
    rintro ⟨-, hidle⟩
    revert hidle
    decide +kernel
  · rw [Replay.rebuilt_iff_distinct_run]
    rintro ⟨hexact, -⟩
    revert hexact
    decide +kernel

end H2Tap
