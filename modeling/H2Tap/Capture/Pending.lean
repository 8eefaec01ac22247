import H2Tap.Capture.Alignment
import H2Tap.Reassembly.Backed
import H2Tap.Tracker.Delivered
import H2Tap.Tracker.Refusals

/-!
# Pending bytes and the ring

A snapshot takes a direction for usable if the ring goes back to `pendingSinceUs`. Every byte that
the parser has not taken was carried by a packet from then on (`Recorded`), as long as something is
pending in order whenever something is held. With the packets in the order of their times, and none
as old as the oldest one in the ring dropped, the ring still has them (`pending_in_ring`).
-/

namespace H2Tap

open Lib

/-- A packet carries the byte `b` with the number `seq`, from one side of a connection. -/
def Carried (k : Key) (client : SocketAddr) (isC2s : Bool) (p : Packet) (seq : Seq) (b : UInt8) :
    Prop :=
  ∃ seg, Pkt.parseEthernet p.2 = some seg ∧ keyOf seg.src seg.dst = k ∧
    (seg.src == client) = isC2s ∧
      ∃ i, seg.payload[i]? = some b ∧ seq = seg.seq + BitVec.ofNat 32 i

/-! ## Directions -/

namespace DirTrack

/-- Nothing is held unless something is pending in order. -/
def HeldBehindPending (t : DirTrack) : Prop :=
  t.dir.reasm.ooo ≠ [] → t.dir.reasm.available ≠ []

instance (t : DirTrack) : Decidable t.HeldBehindPending := inferInstanceAs (Decidable (_ → _))

/-- All that is pending was carried by packets since the time that the direction has noted. -/
structure Recorded (carried : Packet → Seq → UInt8 → Prop) (seen : List Packet) (t : DirTrack) :
    Prop where
  accounted : t.dir.reasm.Accounted
  stamped : ∀ since, t.pendingSinceUs = some since → ∃ p ∈ seen, p.1 = since
  backed : ∀ since, t.pendingSinceUs = some since →
    t.dir.reasm.Backed fun seq b => ∃ p ∈ seen, since ≤ p.1 ∧ carried p seq b
  settled : t.pendingSinceUs = none → t.dir.reasm.available = []

variable {carried : Packet → Seq → UInt8 → Prop} {seen : List Packet} {t : DirTrack} {p : Packet}

/-- More packets change nothing. -/
theorem Recorded.mono (h : t.Recorded carried seen) (p : Packet) :
    t.Recorded carried (seen ++ [p]) where
  accounted := h.accounted
  stamped since hsince := by
    obtain ⟨q, hq, htime⟩ := h.stamped since hsince
    exact ⟨q, List.mem_append_left _ hq, htime⟩
  backed since hsince := (h.backed since hsince).imp fun seq b ⟨q, hq, hcarried⟩ =>
    ⟨q, List.mem_append_left _ hq, hcarried⟩
  settled := h.settled

/-- Only the reassembler and the time matter. -/
theorem Recorded.congr (h : t.Recorded carried seen) {t' : DirTrack}
    (hreasm : t'.dir.reasm = t.dir.reasm) (hsince : t'.pendingSinceUs = t.pendingSinceUs) :
    t'.Recorded carried seen := by
  obtain ⟨haccounted, hstamped, hbacked, hsettled⟩ := h
  rw [← hreasm] at haccounted hbacked hsettled
  rw [← hsince] at hstamped hbacked hsettled
  exact ⟨haccounted, hstamped, hbacked, hsettled⟩

/-- A direction that has received nothing. -/
theorem recorded_new (hreasm : t.dir.reasm = .new) (hsince : t.pendingSinceUs = none) :
    t.Recorded carried seen := by
  refine ⟨?_, ?_, ?_, fun _ => ?_⟩
  · rw [hreasm]
    exact Reassembler.accounted_new
  · rw [hsince]
    exact fun since hnone => nomatch hnone
  · rw [hsince]
    exact fun since hnone => nomatch hnone
  · rw [hreasm]
    rfl

/-- A SYN. -/
theorem Recorded.noted (h : t.Recorded carried seen) (seg : TcpSegment) :
    ({ t with dir := t.dir.noted seg } : DirTrack).Recorded carried seen := by
  unfold Direction.noted
  split
  · refine ⟨h.accounted.note_syn seg.seq, h.stamped, fun since hsince => ?_, fun hnone => ?_⟩
    · exact (h.backed since hsince).note_syn h.accounted seg.seq
    · show (t.dir.reasm.noteSyn seg.seq).available = []
      have hempty := h.settled hnone
      unfold Reassembler.noteSyn
      split
      · exact hempty
      · exact hempty
  · exact h

variable [HuffmanDecoding]

/-- A segment with data, which is carried by the packet of that moment. -/
theorem Recorded.receive (h : t.Recorded carried seen) (hheld : t.HeldBehindPending)
    {seg : TcpSegment} (hdata : EachAt (carried p) seg.seq seg.payload)
    (hnewest : ∀ q ∈ seen, q.1 ≤ p.1) :
    (({ t with dir := (t.dir.onSegment seg p.1).1 } : DirTrack).afterFeed p.1).Recorded carried
      (seen ++ [p]) := by
  have hmem : p ∈ seen ++ [p] := List.mem_append_right _ (List.mem_singleton_self p)
  -- all that is pending afterwards was carried since the noted time, or since now if there is none
  have hbefore : t.dir.reasm.Backed fun seq b =>
      ∃ q ∈ seen ++ [p], t.pendingSinceUs.getD p.1 ≤ q.1 ∧ carried q seq b := by
    cases hsince : t.pendingSinceUs with
    | some since => exact (h.mono p).backed since hsince
    | none =>
        have hempty := h.settled hsince
        exact Reassembler.backed_of_empty hempty (not_imp_not.mp hheld hempty)
  have hle : t.pendingSinceUs.getD p.1 ≤ p.1 := by
    cases hsince : t.pendingSinceUs with
    | some since =>
        obtain ⟨q, hq, rfl⟩ := h.stamped since hsince
        exact hnewest q hq
    | none => exact le_rfl
  have hafter : ((t.dir.onSegment seg p.1).1.reasm.Accounted) ∧
      (t.dir.onSegment seg p.1).1.reasm.Backed fun seq b =>
        ∃ q ∈ seen ++ [p], t.pendingSinceUs.getD p.1 ≤ q.1 ∧ carried q seq b := by
    refine Direction.reasm_on_segment (fun r n hr => ⟨hr.1.consume n, hr.2.consume n⟩)
      (P := fun r => r.Accounted ∧ r.Backed _) ?_
    rw [Direction.reasm_received]
    have hnoted : (t.dir.noted seg).reasm.Accounted ∧ (t.dir.noted seg).reasm.Backed fun seq b =>
        ∃ q ∈ seen ++ [p], t.pendingSinceUs.getD p.1 ≤ q.1 ∧ carried q seq b := by
      unfold Direction.noted
      split
      · exact ⟨h.accounted.note_syn seg.seq, hbefore.note_syn h.accounted seg.seq⟩
      · exact ⟨h.accounted, hbefore⟩
    exact ⟨hnoted.1.push _ _ _,
      hnoted.2.push hnoted.1 (hdata.imp fun seq b hb => ⟨p, hmem, hle, hb⟩) p.1⟩
  obtain ⟨haccounted, hbacked⟩ := hafter
  unfold afterFeed
  split
  · next hempty =>
      exact ⟨haccounted, fun since hnone => (nomatch hnone), fun since hnone => (nomatch hnone),
        fun _ => List.isEmpty_iff.mp hempty⟩
  · split
    · next hnone =>
        have hnone : t.pendingSinceUs = none := by simpa using hnone
        rw [hnone] at hbacked
        refine ⟨haccounted, fun since hsince => ⟨p, hmem, Option.some.inj hsince⟩,
          fun since hsince => ?_, fun hno => (nomatch hno)⟩
        rw [← Option.some.inj hsince]
        exact hbacked
    · next hsome =>
        have hsome : ∃ since, t.pendingSinceUs = some since := by
          simpa [Option.isNone_iff_eq_none, Option.ne_none_iff_exists'] using hsome
        obtain ⟨since, hsince⟩ := hsome
        rw [hsince] at hbacked
        refine ⟨haccounted, (h.mono p).stamped, fun since' hsince' => ?_, fun hnone => ?_⟩
        · rw [Option.some.inj (hsince.symm.trans hsince')] at hbacked
          exact hbacked
        · exact nomatch hsince.symm.trans hnone

/-- A timeout throws bytes away, and releases only what is held. -/
theorem Recorded.tick (h : t.Recorded carried seen) (hheld : t.HeldBehindPending) (nowUs : Nat) :
    ({ t with dir := (t.dir.tick nowUs).1 } : DirTrack).Recorded carried seen := by
  have hkeeps {K : Seq → UInt8 → Prop} (hbacked : t.dir.reasm.Backed K) :
      (t.dir.tick nowUs).1.reasm.Backed K :=
    Direction.reasm_tick (fun r n hr => hr.consume n)
      (hbacked.check_timeout h.accounted.toBalanced nowUs)
  refine ⟨?_, h.stamped, fun since hsince => hkeeps (h.backed since hsince), fun hnone => ?_⟩
  · exact Direction.reasm_tick (fun r n hr => hr.consume n) (h.accounted.check_timeout nowUs)
  · -- nothing is pending and nothing is held, so no byte is left to be released
    have hempty := h.settled hnone
    have hbacked : t.dir.reasm.Backed fun _ _ => False :=
      Reassembler.backed_of_empty hempty (not_imp_not.mp hheld hempty)
    refine List.eq_nil_iff_forall_not_mem.mpr fun b hb => ?_
    obtain ⟨i, hi⟩ := List.mem_iff_getElem?.mp hb
    exact (hkeeps hbacked).available i b hi

end DirTrack

/-! ## Connections -/

/-- The segment of a packet carries its bytes. -/
theorem each_at_carried {k : Key} {client : SocketAddr} {p : Packet} {seg : EthSegment}
    (hparse : Pkt.parseEthernet p.2 = some seg) (hkey : keyOf seg.src seg.dst = k) :
    EachAt (Carried k client (seg.src == client) p) seg.seq seg.payload :=
  fun i _ hb => ⟨seg, hparse, hkey, rfl, i, hb, rfl⟩

theorem DirTrack.pending_since_peer_capacities (sizes : List Nat) (t : DirTrack) :
    (sizes.foldl DirTrack.applyPeerCapacity t).pendingSinceUs = t.pendingSinceUs := by
  induction sizes generalizing t with
  | nil => rfl
  | cons n sizes ih => exact ih (t.applyPeerCapacity n)

section

variable [HuffmanDecoding] {k : Key} {isC2s : Bool} {seen : List Packet} {p : Packet}
  {seg : EthSegment}

/-- One side of a connection after a segment of either side. -/
theorem recorded_on_segment {c : TrackedConn}
    (h : (c.dir isC2s).Recorded (Carried k c.client isC2s) seen)
    (hheld : (c.dir isC2s).HeldBehindPending) (hparse : Pkt.parseEthernet p.2 = some seg)
    (hkey : keyOf seg.src seg.dst = k) (hnewest : ∀ q ∈ seen, q.1 ≤ p.1) :
    ((c.toConn.onSegment (seg.src == c.client) seg.toTcpSegment p.1).1.dir isC2s).Recorded
      (Carried k c.client isC2s) (seen ++ [p]) := by
  obtain ⟨hown, hother⟩ :=
    Conn.track_on_segment c.toConn (seg.src == c.client) seg.toTcpSegment p.1
  rcases Bool.eq_or_eq_not isC2s (seg.src == c.client) with rfl | rfl
  · rw [hown]
    split
    · exact (h.mono p).noted seg.toTcpSegment
    · exact h.receive hheld (each_at_carried hparse hkey) hnewest
  · rw [hother]
    refine (h.mono p).congr ?_ (DirTrack.pending_since_peer_capacities _ _)
    rw [DirTrack.dir_peer_capacities, Direction.reasm_peer_capacities]

namespace Tracker

/-- The connection has what the packets carried. -/
def Records (t : Tracker) (k : Key) (isC2s : Bool) (seen : List Packet) : Prop :=
  ∀ c ∈ t.conns.lookup k, (c.dir isC2s).Recorded (Carried k c.client isC2s) seen

/-- What the connection holds is behind what it has pending in order. -/
def HeldBehindPending (t : Tracker) (k : Key) (isC2s : Bool) : Prop :=
  ∀ c ∈ t.conns.lookup k, (c.dir isC2s).HeldBehindPending

variable {t : Tracker}

omit [HuffmanDecoding] in
/-- Whatever opens a connection, it opens with nothing received. -/
theorem recorded_opened (t : Tracker) (seg : EthSegment) (nowUs : Nat) :
    ((t.openConn seg nowUs).dir isC2s).Recorded (Carried k (t.openConn seg nowUs).client isC2s)
        seen ∧
      ((t.openConn seg nowUs).dir isC2s).HeldBehindPending := by
  have hreasm : ((t.openConn seg nowUs).dir isC2s).dir.reasm = .new := by
    rw [dir_open_conn]
    cases seg.freshSyn <;> rfl
  have hsince : ((t.openConn seg nowUs).dir isC2s).pendingSinceUs = none := by
    rw [dir_open_conn]
    rfl
  refine ⟨DirTrack.recorded_new hreasm hsince, fun hheld => ?_⟩
  rw [hreasm] at hheld
  exact absurd rfl hheld

/-- The connection after a segment. -/
theorem records_on_segment (h : t.Records k isC2s seen) (hheld : t.HeldBehindPending k isC2s)
    (hparse : Pkt.parseEthernet p.2 = some seg) (hnewest : ∀ q ∈ seen, q.1 ≤ p.1) :
    (t.onSegment seg p.1).Records k isC2s (seen ++ [p]) := by
  intro c hc
  by_cases hkey : keyOf seg.src seg.dst = k
  · subst hkey
    cases htarget : t.target seg p.1 with
    | none =>
        rw [lookup_on_segment_of_none htarget] at hc
        cases hc
    | some found =>
        rw [lookup_on_segment htarget] at hc
        obtain rfl := Option.some.inj hc
        have hfound : (found.dir isC2s).Recorded
              (Carried (keyOf seg.src seg.dst) found.client isC2s) seen ∧
            (found.dir isC2s).HeldBehindPending := by
          rcases target_cases htarget with ⟨-, hlookup⟩ | ⟨rfl, -⟩
          · exact ⟨h found hlookup, hheld found hlookup⟩
          · exact recorded_opened t seg p.1
        exact recorded_on_segment hfound.1 hfound.2 hparse rfl hnewest
  · rw [lookup_on_segment_ne t p.1 (Ne.symm hkey)] at hc
    exact (h c hc).mono p

/-- A tick gives up on gaps and drops connections. -/
theorem Records.tick (h : t.Records k isC2s seen) (hheld : t.HeldBehindPending k isC2s)
    (nowUs : Nat) : (t.tick nowUs).Records k isC2s seen := by
  intro c hc
  obtain ⟨before, hbefore, rfl⟩ := exists_of_lookup_tick hc
  have hrecorded := (h before hbefore).tick (hheld before hbefore) nowUs
  cases isC2s <;> exact hrecorded

end Tracker

/-! ## The capture thread -/

variable {cfg : Config}

/-- The tracker has what the packets carried, if they came in the order of their times. -/
theorem records_after (k : Key) (isC2s : Bool) (events : List CaptureEvent)
    (hsorted : ((seenPackets cfg events).map Prod.fst).Pairwise (· ≤ ·))
    (hheld : Always (Daemon.step cfg) (fun d => d.tracker.HeldBehindPending k isC2s) cfg.daemon
      events) :
    (daemonAfter cfg events).tracker.Records k isC2s (seenPackets cfg events) := by
  induction events using List.reverseRecOn with
  | nil => exact fun c hc => nomatch hc
  | append_singleton events event ih =>
      obtain ⟨hbefore, -⟩ := hheld.of_concat
      have hcurrent : (daemonAfter cfg events).tracker.HeldBehindPending k isC2s := hbefore.final
      rw [seen_packets_append, List.map_append, List.pairwise_append] at hsorted
      obtain ⟨hpast, -, hnewest⟩ := hsorted
      have hrecords := ih hpast hbefore
      have hsame : ∀ {t : Tracker}, t = (daemonAfter cfg events).tracker →
          t.Records k isC2s (seenPackets cfg events ++ []) := by
        intro t ht
        rw [List.append_nil, ht]
        exact hrecords
      rw [seen_packets_append, daemon_after_concat]
      cases event with
      | packet nowUs frame =>
          simp only [Daemon.step, Daemon.onPacket]
          cases hseg : cfg.interesting frame with
          | none =>
              have hnone : seenPackets cfg [.packet nowUs frame] = [] := by
                simp [seenPackets, hseg]
              rw [hnone]
              exact hsame rfl
          | some seg =>
              have hone : seenPackets cfg [.packet nowUs frame] = [(nowUs, frame)] := by
                simp [seenPackets, hseg]
              rw [hone] at hnewest ⊢
              have hparse : Pkt.parseEthernet frame = some seg :=
                (Option.filter_eq_some_iff.mp hseg).1
              have hlast : ∀ q ∈ seenPackets cfg events, q.1 ≤ nowUs := fun q hq =>
                hnewest q.1 (List.mem_map_of_mem hq) nowUs (List.mem_singleton_self nowUs)
              exact Tracker.records_on_segment (p := (nowUs, frame)) hrecords hcurrent hparse hlast
      | tick nowUs =>
          show ((daemonAfter cfg events).tracker.tick nowUs).Records k isC2s
            (seenPackets cfg events ++ [])
          rw [List.append_nil]
          exact hrecords.tick hcurrent nowUs
      | start req nowUs => exact hsame (start_capture_frame _ req nowUs).1
      | stop id => exact hsame (stop_capture_frame _ id).1

/-- No packet as old as the oldest one in the ring has been dropped. -/
def KeepsOldest (cfg : Config) (events : List CaptureEvent) : Prop :=
  ∀ p ∈ seenPackets cfg events, (daemonAfter cfg events).ring.oldestUs = some p.1 →
    p ∈ (daemonAfter cfg events).ring.q

/-- Then the ring has every packet since the time of its oldest one. -/
theorem mem_ring_of_recent {events : List CaptureEvent}
    (hsorted : ((seenPackets cfg events).map Prod.fst).Pairwise (· ≤ ·))
    (holdest : KeepsOldest cfg events) {p : Packet} (hp : p ∈ seenPackets cfg events)
    {oldest : Nat} (hring : (daemonAfter cfg events).ring.oldestUs = some oldest)
    (hrecent : oldest ≤ p.1) : p ∈ (daemonAfter cfg events).ring.q := by
  obtain ⟨front, hfront⟩ := (ring_holds_longest events hsorted).1.longest.suffix
  obtain ⟨first, hfirst, htime⟩ := Option.map_eq_some_iff.mp hring
  have hmem : first ∈ (daemonAfter cfg events).ring.q := List.mem_of_head? hfirst
  rcases List.mem_append.mp (hfront ▸ hp) with hdropped | hkept
  · -- a dropped packet is not newer than the oldest one, so it is as old as that one
    rw [← hfront, List.map_append, List.pairwise_append] at hsorted
    have hle := hsorted.2.2 _ (List.mem_map_of_mem hdropped) _ (List.mem_map_of_mem hmem)
    have heq : oldest = p.1 := by omega
    exact holdest p hp (heq ▸ hring)
  · exact hkept

/-- What a direction has received and not taken was carried by packets that are in the ring,
whenever a snapshot takes it for usable. -/
def Daemon.PendingInRing (d : Daemon) (k : Key) (isC2s : Bool) : Prop :=
  ∀ c ∈ d.tracker.conns.lookup k, ∀ name src dst,
    (dirSnapshot name src dst (c.dir isC2s) d.ring.oldestUs).usable = true →
      (c.dir isC2s).dir.reasm.Backed fun seq b =>
        ∃ p ∈ d.ring.q, Carried k c.client isC2s p seq b

/-- After packets in the order of their times, a usable direction has its pending bytes in the ring,
unless it has held something with nothing pending before it, or a packet as old as the oldest one of
the ring was dropped. -/
theorem pending_in_ring {k : Key} {isC2s : Bool} {events : List CaptureEvent}
    (hsorted : ((seenPackets cfg events).map Prod.fst).Pairwise (· ≤ ·))
    (hheld : Always (Daemon.step cfg) (fun d => d.tracker.HeldBehindPending k isC2s) cfg.daemon
      events)
    (holdest : KeepsOldest cfg events) : (daemonAfter cfg events).PendingInRing k isC2s := by
  intro c hc name src dst husable
  have hrecorded := records_after k isC2s events hsorted hheld c hc
  have hcovered : pendingCovered (c.dir isC2s).pendingSinceUs
      (daemonAfter cfg events).ring.oldestUs = true := by
    have hreason : dirReason (c.dir isC2s) (daemonAfter cfg events).ring.oldestUs = none :=
      Option.isNone_iff_eq_none.mp (Bool.and_eq_true_iff.mp husable).1
    rw [dir_reason_eq_none_iff] at hreason
    by_contra hnot
    exact hreason (Or.inr (Or.inr (Or.inr (Or.inr (Bool.not_eq_true _ ▸ hnot)))))
  cases hsince : (c.dir isC2s).pendingSinceUs with
  | none =>
      have hempty := hrecorded.settled hsince
      have hcurrent : (daemonAfter cfg events).tracker.HeldBehindPending k isC2s := hheld.final
      exact Reassembler.backed_of_empty hempty (not_imp_not.mp (hcurrent c hc) hempty)
  | some since =>
      rw [hsince] at hcovered
      cases hring : (daemonAfter cfg events).ring.oldestUs with
      | none =>
          rw [hring] at hcovered
          cases hcovered
      | some oldest =>
          rw [hring] at hcovered
          have hle : oldest ≤ since := of_decide_eq_true hcovered
          refine (hrecorded.backed since hsince).imp fun seq b ⟨p, hp, hage, hcarried⟩ => ?_
          exact ⟨p, mem_ring_of_recent hsorted holdest hp hring (hle.trans hage), hcarried⟩

end

/-! ## A ring that is large enough, and one that is not -/

instance (t : Tracker) (k : Key) (isC2s : Bool) : Decidable (t.HeldBehindPending k isC2s) :=
  inferInstanceAs (Decidable (∀ c ∈ t.conns.lookup k, (c.dir isC2s).HeldBehindPending))

instance [HuffmanDecoding] (cfg : Config) (events : List CaptureEvent) :
    Decidable (KeepsOldest cfg events) :=
  inferInstanceAs (Decidable (∀ p ∈ seenPackets cfg events,
    (daemonAfter cfg events).ring.oldestUs = some p.1 → p ∈ (daemonAfter cfg events).ring.q))

/-- The server's side of the reference packets. -/
def Pkt.serverEndpoint : Pkt.Endpoint where
  ethDst := Pkt.clientEndpoint.ethSrc
  ethSrc := Pkt.clientEndpoint.ethDst
  src := Pkt.serverAddr
  dst := Pkt.clientAddr

/-- The SYN, the first half of the preface and, ahead of the other half, bytes that follow it. -/
def partialPreface : List CaptureEvent :=
  [.packet 1000 (Pkt.buildTcpPacket Pkt.clientEndpoint 499999 0 TcpFlags.syn 65535 0 []),
    .packet 2000 (Pkt.buildTcpPacket Pkt.clientEndpoint 500000 0 TcpFlags.ack 65535 1
      (preface.take 12)),
    .packet 3000 (Pkt.buildTcpPacket Pkt.clientEndpoint 500024 0 TcpFlags.ack 65535 2 [0, 0, 0]),
    .tick 3500]

theorem pending_in_ring_partial_preface :
    let _ := noHuffman.toHuffmanDecoding
    (daemonAfter ⟨"eth0", [7777], "/tmp", 4096, 300, 100, 5, 4096⟩ partialPreface).PendingInRing
      (keyOf Pkt.clientAddr Pkt.serverAddr) true := by
  exact @pending_in_ring noHuffman.toHuffmanDecoding
    ⟨"eth0", [7777], "/tmp", 4096, 300, 100, 5, 4096⟩ (keyOf Pkt.clientAddr Pkt.serverAddr) true
    partialPreface (by decide +kernel) (by decide +kernel) (by decide +kernel)

/-- A ring without data does not have what a usable direction has pending. -/
theorem not_pending_in_ring {d : Daemon} {k : Key} {isC2s : Bool}
    (hpending : ∃ c ∈ d.tracker.conns.lookup k,
      (dirSnapshot "" c.client c.server (c.dir isC2s) d.ring.oldestUs).usable = true ∧
      ∃ data ∈ (c.dir isC2s).dir.reasm.available ::
        (c.dir isC2s).dir.reasm.ooo.map Prod.snd, data ≠ [])
    (hring : ∀ p ∈ d.ring.q, ∀ seg ∈ Pkt.parseEthernet p.2, seg.payload = []) :
    ¬ d.PendingInRing k isC2s := by
  intro h
  obtain ⟨c, hc, husable, data, hdata, hne⟩ := hpending
  have hbacked := h c hc _ _ _ husable
  have hfirst : ∃ seq, EachAt (fun seq b => ∃ p ∈ d.ring.q, Carried k c.client isC2s p seq b) seq
      data := by
    rcases List.mem_cons.mp hdata with rfl | hheld
    · exact ⟨_, hbacked.available⟩
    · obtain ⟨segment, hsegment, rfl⟩ := List.mem_map.mp hheld
      exact ⟨_, hbacked.held segment hsegment⟩
  obtain ⟨seq, heach⟩ := hfirst
  obtain ⟨b, rest, rfl⟩ := List.exists_cons_of_ne_nil hne
  obtain ⟨p, hp, seg, hparse, -, -, i, hbyte, -⟩ := heach 0 b rfl
  rw [hring p hp seg hparse] at hbyte
  cases hbyte

/-- A client whose first data is lost, and the answer of the server. -/
def lostPreface : List CaptureEvent :=
  [.packet 1000 (Pkt.buildTcpPacket Pkt.clientEndpoint 499999 0 TcpFlags.syn 65535 0 []),
    .packet 2000 (Pkt.buildTcpPacket Pkt.clientEndpoint 500024 0 TcpFlags.ack 65535 1 [0, 0, 0]),
    .packet 3000 (Pkt.buildTcpPacket Pkt.serverEndpoint 899999 500000
      (TcpFlags.syn ||| TcpFlags.ack) 65535 2 [])]

/-- The first half of the preface, and the answer of the server in the same microsecond. -/
def sameMicrosecond : List CaptureEvent :=
  [.packet 1000 (Pkt.buildTcpPacket Pkt.clientEndpoint 499999 0 TcpFlags.syn 65535 0 []),
    .packet 2000 (Pkt.buildTcpPacket Pkt.clientEndpoint 500000 0 TcpFlags.ack 65535 1
      (preface.take 12)),
    .packet 2000 (Pkt.buildTcpPacket Pkt.serverEndpoint 899999 500000
      (TcpFlags.syn ||| TcpFlags.ack) 65535 2 [])]

/-- With room for one packet the ring has dropped the bytes that are held, and the direction is
usable. With two packets at one time this happens although nothing is ever held. -/
theorem pending_not_in_ring :
    let _ := noHuffman.toHuffmanDecoding
    (¬∀ (cfg : Config) (events : List CaptureEvent) (k : Key) (isC2s : Bool),
      ((seenPackets cfg events).map Prod.fst).Pairwise (· ≤ ·) →
        (daemonAfter cfg events).PendingInRing k isC2s) ∧
    ¬∀ (cfg : Config) (events : List CaptureEvent) (k : Key) (isC2s : Bool),
      ((seenPackets cfg events).map Prod.fst).Pairwise (· ≤ ·) →
        Always (Daemon.step cfg) (fun d => d.tracker.HeldBehindPending k isC2s) cfg.daemon events →
          (daemonAfter cfg events).PendingInRing k isC2s := by
  intro _
  constructor
  · intro hclaim
    have hpending := hclaim ⟨"eth0", [7777], "/tmp", 100, 300, 100, 5, 4096⟩ lostPreface
      (keyOf Pkt.clientAddr Pkt.serverAddr) true (by decide +kernel)
    exact not_pending_in_ring (by decide +kernel) (by decide +kernel) hpending
  · intro hclaim
    have hpending := hclaim ⟨"eth0", [7777], "/tmp", 100, 300, 100, 5, 4096⟩ sameMicrosecond
      (keyOf Pkt.clientAddr Pkt.serverAddr) true (by decide +kernel) (by decide +kernel)
    exact not_pending_in_ring (by decide +kernel) (by decide +kernel) hpending

end H2Tap
