import H2Tap.Rebuild.Turns

/-!
# Who is the client of a rebuilt connection

A connection whose SYN is not in the capture is labelled after its first packet: the sender of that
packet is the client (`client_eq_first_source`). The snapshot knows the client, and is not asked.
So the label is right exactly if the client spoke first.
-/

namespace H2Tap

open Lib

/-- The segments of a connection, in the order of the capture. -/
def segmentsOn (k : Key) (packets : List Packet) : List EthSegment :=
    packets.filterMap (segmentOn k)

/-- Who sent the first segment of a connection. -/
def firstSource (k : Key) (packets : List Packet) : Option SocketAddr :=
  (segmentsOn k packets).head?.map EthSegment.src

namespace Replay

variable [HuffmanDecoding] {seeds : Table (String × String) Seed}

variable (seeds) in
/-- A segment leaves the connections of other addresses alone, and the client of its own. -/
theorem on_segment_client (r : Replay) (seg : EthSegment) (ts : Nat) :
    ∃ cs, (r.onSegment seeds seg ts).1.conns = r.conns.insert (keyOf seg.src seg.dst) cs ∧
      cs.client = (r.found seg ts).client := by
  cases hpayload : seg.payload.isEmpty with
  | true =>
      rw [on_segment_of_empty seeds hpayload]
      exact ⟨_, rfl, ConnState.touch_client _ _ _ _ _⟩
  | false =>
      rw [on_segment_of_payload seeds hpayload]
      exact ⟨_, rfl, (ConnState.absorb_client _ _ _ _ _).trans (ConnState.touch_client _ _ _ _ _)⟩

/-- A packet of another connection. -/
theorem lookup_step_other {r : Replay} {packet : Packet} {k : Key}
    (h : segmentOn k packet = none) :
    (r.step seeds packet).1.conns.lookup k = r.conns.lookup k := by
  unfold step
  cases hseg : Pkt.parseEthernet packet.2 with
  | none => rfl
  | some seg =>
      have hne : k ≠ keyOf seg.src seg.dst := (segment_on_none h hseg).symm
      simp only
      obtain ⟨cs, hconns, -⟩ := on_segment_client seeds
        { r with report := { r.report with packetsIn := r.report.packetsIn + 1 } } seg packet.1
      rw [hconns, AList.lookup_insert_ne hne]

variable (seeds) in
/-- A connection that is in the table after a packet was there before, or the packet was sent
between its addresses. -/
theorem lookup_step_cases {r : Replay} {packet : Packet} {k : Key} {cs : ConnState}
    (h : (r.step seeds packet).1.conns.lookup k = some cs) :
    r.conns.lookup k = some cs ∨ ∃ seg, Pkt.parseEthernet packet.2 = some seg ∧
      keyOf seg.src seg.dst = k ∧ (cs = r.countPacket.touched seeds seg packet.1 ∨
        cs = r.countPacket.absorbed seeds seg packet.1) := by
  cases hon : segmentOn k packet with
  | none =>
      rw [lookup_step_other hon] at h
      exact Or.inl h
  | some seg =>
      obtain ⟨hseg, rfl⟩ := segment_on_some hon
      refine Or.inr ⟨seg, hseg, rfl, ?_⟩
      rw [step_of_segment seeds hseg] at h
      cases hpayload : seg.payload.isEmpty with
      | true =>
          rw [on_segment_of_empty seeds hpayload, AList.lookup_insert] at h
          exact Or.inl (Option.some.inj h).symm
      | false =>
          rw [on_segment_of_payload seeds hpayload, AList.lookup_insert] at h
          exact Or.inr (Option.some.inj h).symm

/-- A packet of the connection, other than a bare SYN, keeps the client or makes its sender the
client. -/
theorem client_step {r : Replay} {packet : Packet} {k : Key} {seg : EthSegment}
    (h : segmentOn k packet = some seg) (hsyn : seg.freshSyn = false) :
    ((r.step seeds packet).1.conns.lookup k).map ConnState.client =
      some (((r.conns.lookup k).map ConnState.client).getD seg.src) := by
  obtain ⟨hseg, rfl⟩ := segment_on_some h
  simp only [step, hseg]
  obtain ⟨cs, hconns, hclient⟩ := on_segment_client seeds
    { r with report := { r.report with packetsIn := r.report.packetsIn + 1 } } seg packet.1
  rw [hconns, AList.lookup_insert, Option.map_some, hclient]
  simp only [found, hsyn, Bool.false_eq_true, if_false]
  cases r.conns.lookup (keyOf seg.src seg.dst) <;> rfl

variable (seeds) in
/-- Without a bare SYN the client of a connection is the sender of its first segment. -/
theorem client_eq_first_source {packets : List Packet} {k : Key}
    (hsyn : ∀ seg ∈ segmentsOn k packets, seg.freshSyn = false) (r : Replay) :
    ((run (step seeds) r packets).1.conns.lookup k).map ConnState.client =
      ((r.conns.lookup k).map ConnState.client).or (firstSource k packets) := by
  induction packets generalizing r with
  | nil => simp [run, firstSource, segmentsOn]
  | cons packet packets ih =>
      cases hseg : segmentOn k packet with
      | none =>
          have hsegments : segmentsOn k (packet :: packets) = segmentsOn k packets := by
            simp [segmentsOn, hseg]
          rw [hsegments] at hsyn
          simp only [run, ih hsyn, lookup_step_other hseg, firstSource, hsegments]
      | some seg =>
          have hsegments : segmentsOn k (packet :: packets) = seg :: segmentsOn k packets := by
            simp [segmentsOn, hseg]
          rw [hsegments] at hsyn
          simp only [run, ih fun s hs => hsyn s (List.mem_cons_of_mem _ hs),
            client_step hseg (hsyn seg List.mem_cons_self), firstSource, hsegments]
          cases r.conns.lookup k <;> rfl

/-- The client with which a connection is rebuilt. -/
def rebuiltClient (seeds : Table (String × String) Seed) (packets : List Packet) (k : Key) :
    Option SocketAddr :=
  ((run (step seeds) start packets).1.conns.lookup k).map ConnState.client

/-- A connection that the snapshot describes has the snapshot's client in the rebuilt capture, if
its SYN was not captured. -/
def KeepsSnapshotClients (snap : CaptureSnapshot) (packets : List Packet) : Prop :=
  ∀ c ∈ snap.conns, ∀ a b : SocketAddr, c.client = a.text → c.server = b.text →
    (∀ seg ∈ segmentsOn (keyOf a b) packets, seg.freshSyn = false) →
    ∀ client, rebuiltClient (seedsOf snap) packets (keyOf a b) = some client → client = a

/-- Two adjacent packets may change places without changing the client of the rebuilt connection. -/
def SwapKeepsClient (snap : CaptureSnapshot) (before : List Packet) (p q : Packet)
    (after : List Packet) (k : Key) : Prop :=
  rebuiltClient (seedsOf snap) (before ++ q :: p :: after) k =
    rebuiltClient (seedsOf snap) (before ++ p :: q :: after) k

theorem rebuilt_client_eq {packets : List Packet} {k : Key}
    (hsyn : ∀ seg ∈ segmentsOn k packets, seg.freshSyn = false) :
    rebuiltClient seeds packets k = firstSource k packets := by
  have hclient := client_eq_first_source seeds hsyn start
  rw [show start.conns.lookup k = none from rfl, Option.map_none, Option.none_or] at hclient
  exact hclient

omit [HuffmanDecoding] in
/-- Who sent the first segment, when a packet of the connection is known. -/
theorem first_source_split {before after : List Packet} {p : Packet} {k : Key} {seg : EthSegment}
    (hseg : segmentOn k p = some seg) :
    firstSource k (before ++ p :: after) = (firstSource k before).or (some seg.src) := by
  simp only [firstSource, segmentsOn, List.filterMap_append, List.filterMap_cons, hseg]
  cases before.filterMap (segmentOn k) <;> rfl

/-- The snapshot's clients are kept exactly if each of them sent the first packet of its connection,
and two adjacent packets may change places exactly if they are not the first ones. -/
theorem keeps_snapshot_clients_iff (snap : CaptureSnapshot) (packets : List Packet) :
    (KeepsSnapshotClients snap packets ↔
      ∀ c ∈ snap.conns, ∀ a b : SocketAddr, c.client = a.text → c.server = b.text →
        (∀ seg ∈ segmentsOn (keyOf a b) packets, seg.freshSyn = false) →
        ∀ src, firstSource (keyOf a b) packets = some src → src = a) ∧
    ∀ before p q after k sp sq, packets = before ++ p :: q :: after →
      (∀ seg ∈ segmentsOn k packets, seg.freshSyn = false) →
      segmentOn k p = some sp → segmentOn k q = some sq → sp.src ≠ sq.src →
      (SwapKeepsClient snap before p q after k ↔ (firstSource k before).isSome = true) := by
  constructor
  · refine forall₂_congr fun c _ => forall₂_congr fun a b => forall₂_congr fun _ _ =>
      forall_congr' fun hsyn => ?_
    rw [rebuilt_client_eq hsyn]
  · rintro before p q after k sp sq rfl hsyn hp hq hne
    have hsyn' : ∀ seg ∈ segmentsOn k (before ++ q :: p :: after), seg.freshSyn = false := by
      intro seg hseg
      refine hsyn seg ?_
      simp only [segmentsOn, List.filterMap_append, List.filterMap_cons, hp, hq, List.mem_append,
        List.mem_cons] at hseg ⊢
      tauto
    rw [SwapKeepsClient, rebuilt_client_eq hsyn, rebuilt_client_eq hsyn', first_source_split hp,
      first_source_split hq]
    cases firstSource k before with
    | none => simpa using hne.symm
    | some src => simp

end Replay

/-- A snapshot of one connection, with empty tables. -/
def clientSnapshot : CaptureSnapshot where
  version := snapshotVersion
  captureId := "t"
  startedUnixUs := 1
  iface := "eth0"
  pcapPath := "x"
  connsUsable := 1
  connsDegraded := 0
  conns := [⟨"t1", Pkt.clientAddr.text, Pkt.serverAddr.text, 1,
    [⟨"c2s", Pkt.clientAddr.text, Pkt.serverAddr.text, 500000, 4096, true, 0, true, none, []⟩,
      ⟨"s2c", Pkt.serverAddr.text, Pkt.clientAddr.text, 900000, 4096, true, 0, true, none, []⟩]⟩]

/-- The server speaks first, and is rebuilt as the client. -/
theorem server_speaks_first :
    let _ := noHuffman.toHuffmanDecoding
    ¬ Replay.KeepsSnapshotClients clientSnapshot
      [(1000,
        Pkt.buildTcpPacket Pkt.clientEndpoint.reversed 900000 0 TcpFlags.ack 65535 0 [0])] := by
  intro _ h
  have hlabel := h _ List.mem_cons_self Pkt.clientAddr Pkt.serverAddr rfl rfl (by decide +kernel)
    Pkt.serverAddr (by decide +kernel)
  exact absurd hlabel (by decide)

end H2Tap
