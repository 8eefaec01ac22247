import H2Tap.Capture.Daemon

/-!
# Captures are aligned with their snapshots

What the capture thread holds after any sequence of events. The ring is determined by the packets
seen (`Ring.HoldsLongest`), the connection table by the packets and ticks alone (`trackerAfter`),
and a capture by the event that started it (`Captures`): its pcap is the ring at that point and
every packet since, its snapshot the tables at that point.
-/

namespace H2Tap

open Lib

/-- The interesting packets among some events. -/
def seenPackets (cfg : Config) (events : List CaptureEvent) : List Packet :=
  events.filterMap fun event =>
    match event with
    | .packet nowUs frame => if (cfg.interesting frame).isSome then some (nowUs, frame) else none
    | _ => none

theorem seen_packets_append (cfg : Config) (events later : List CaptureEvent) :
    seenPackets cfg (events ++ later) = seenPackets cfg events ++ seenPackets cfg later :=
  List.filterMap_append

section

variable [HuffmanDecoding]

/-- The connection table after the packets and ticks among some events. -/
def trackerAfter (cfg : Config) (events : List CaptureEvent) : Tracker :=
  events.foldl (fun t event =>
    match event with
    | .packet nowUs frame =>
        match cfg.interesting frame with
        | some seg => t.onSegment seg nowUs
        | none => t
    | .tick nowUs => t.tick nowUs
    | _ => t) cfg.daemon.tracker

/-- The state after some events. -/
def daemonAfter (cfg : Config) (events : List CaptureEvent) : Daemon :=
  (run (Daemon.step cfg) cfg.daemon events).1

/-- The capture `s` was started by `req` after the events `before`, and holds the ring of that
moment and the packets of the events `live` since. Its snapshot is the connection table as the
events `before` left it. -/
structure Captures (cfg : Config) (before : List CaptureEvent) (req : StartReq) (nowUs : Nat)
    (live : List CaptureEvent) (s : Session) : Prop where
  idle : (daemonAfter cfg before).session = none
  started : ∃ reply, ((daemonAfter cfg before).step cfg (.start req nowUs)).2 = .started reply ∧
    reply.captureId = s.id
  written : s.written = (daemonAfter cfg before).ring.q ++ seenPackets cfg live
  saved : (s.saved.conns, s.saved.connsUsable, s.saved.connsDegraded) =
    (trackerAfter cfg before).snapshot (daemonAfter cfg before).ring.oldestUs

section

variable {cfg : Config}

theorem daemon_after_concat (events : List CaptureEvent) (event : CaptureEvent) :
    daemonAfter cfg (events ++ [event]) = ((daemonAfter cfg events).step cfg event).1 := by
  simp only [daemonAfter, run_append, run]

theorem tracker_after_concat (events : List CaptureEvent) (event : CaptureEvent) :
    trackerAfter cfg (events ++ [event]) =
      match event with
      | .packet nowUs frame =>
          match cfg.interesting frame with
          | some seg => (trackerAfter cfg events).onSegment seg nowUs
          | none => trackerAfter cfg events
      | .tick nowUs => (trackerAfter cfg events).tick nowUs
      | _ => trackerAfter cfg events := by
  rw [trackerAfter, List.foldl_append]
  rfl

omit [HuffmanDecoding] in
/-- A start leaves everything but the session alone. -/
theorem start_capture_frame (d : Daemon) (req : StartReq) (nowUs : Nat) :
    (d.startCapture cfg req nowUs).1.tracker = d.tracker ∧
      (d.startCapture cfg req nowUs).1.ring = d.ring := by
  unfold Daemon.startCapture
  split
  · exact ⟨rfl, rfl⟩
  · simp only
    split
    · exact ⟨rfl, rfl⟩
    · exact ⟨rfl, rfl⟩

omit [HuffmanDecoding] in
/-- So does a stop. -/
theorem stop_capture_frame (d : Daemon) (id : Option String) :
    (d.stopCapture id).1.tracker = d.tracker ∧ (d.stopCapture id).1.ring = d.ring := by
  unfold Daemon.stopCapture
  split
  · split
    · exact ⟨rfl, rfl⟩
    · exact ⟨rfl, rfl⟩
  · exact ⟨rfl, rfl⟩

/-- The commands do not touch the connection table. -/
theorem tracker_eq (events : List CaptureEvent) :
    (daemonAfter cfg events).tracker = trackerAfter cfg events := by
  induction events using List.reverseRecOn with
  | nil => rfl
  | append_singleton events event ih =>
      rw [daemon_after_concat, tracker_after_concat]
      cases event with
      | packet nowUs frame =>
          simp only [Daemon.step, Daemon.onPacket]
          cases cfg.interesting frame with
          | none => exact ih
          | some seg => rw [ih]
      | tick nowUs => simp only [Daemon.step, ih]
      | start req nowUs => exact (start_capture_frame _ req nowUs).1.trans ih
      | stop id => exact (stop_capture_frame _ id).1.trans ih

/-- The ring holds the longest suffix of the packets seen that its limits allow. -/
theorem ring_holds_longest (events : List CaptureEvent)
    (hsorted : ((seenPackets cfg events).map Prod.fst).Pairwise (· ≤ ·)) :
    (daemonAfter cfg events).ring.HoldsLongest (seenPackets cfg events) ∧
      (daemonAfter cfg events).ring.limit = cfg.ringBytes ∧
      (daemonAfter cfg events).ring.maxAgeUs = cfg.ringSecs * 1000000 := by
  induction events using List.reverseRecOn with
  | nil => exact ⟨Ring.holds_longest_new cfg.ringBytes cfg.ringSecs, rfl, rfl⟩
  | append_singleton events event ih =>
      rw [seen_packets_append] at hsorted ⊢
      have hbefore := ih (by
        rw [List.map_append, List.pairwise_append] at hsorted
        exact hsorted.1)
      have hsame : ∀ {d : Daemon}, d.ring = (daemonAfter cfg events).ring →
          d.ring.HoldsLongest (seenPackets cfg events ++ []) ∧ d.ring.limit = cfg.ringBytes ∧
            d.ring.maxAgeUs = cfg.ringSecs * 1000000 := by
        intro d hring
        rw [List.append_nil, hring]
        exact hbefore
      rw [daemon_after_concat]
      cases event with
      | packet nowUs frame =>
          simp only [Daemon.step, Daemon.onPacket]
          cases hseg : cfg.interesting frame with
          | none =>
              have hnone : seenPackets cfg [.packet nowUs frame] = [] := by
                simp [seenPackets, hseg]
              rw [hnone]
              exact hsame rfl
          | some seg =>
              have hone : seenPackets cfg [.packet nowUs frame] = [(nowUs, frame)] := by
                simp [seenPackets, hseg]
              rw [hone] at hsorted ⊢
              exact ⟨Ring.holds_longest_push hbefore.1 frame hsorted, hbefore.2⟩
      | tick nowUs => exact hsame rfl
      | start req nowUs => exact hsame (start_capture_frame _ req nowUs).2
      | stop id => exact hsame (stop_capture_frame _ id).2

variable (cfg) in
omit [HuffmanDecoding] in
/-- What a start that succeeds leaves behind. -/
theorem start_capture_session {d : Daemon} (hidle : d.session = none) (req : StartReq)
    (nowUs : Nat) :
    (d.startCapture cfg req nowUs).1.session = none ∨
      ∃ s reply, (d.startCapture cfg req nowUs).1.session = some s ∧
        (d.startCapture cfg req nowUs).2 = .started reply ∧ reply.captureId = s.id ∧
        s.written = d.ring.q ∧
        (s.saved.conns, s.saved.connsUsable, s.saved.connsDegraded) =
          d.tracker.snapshot d.ring.oldestUs := by
  unfold Daemon.startCapture
  rw [hidle]
  simp only
  split
  · exact Or.inl hidle
  · exact Or.inr ⟨_, _, rfl, rfl, rfl, rfl, rfl⟩

omit [HuffmanDecoding] in
/-- While a capture runs, a start changes nothing. -/
theorem start_while_running {d : Daemon} {s : Session} (h : d.session = some s) (req : StartReq)
    (nowUs : Nat) : (d.startCapture cfg req nowUs).1 = d := by
  unfold Daemon.startCapture
  rw [h]

omit [HuffmanDecoding] in
/-- A stop with another name changes nothing. -/
theorem stop_other {d : Daemon} {s : Session} (h : d.session = some s) {id : String}
    (hid : id ≠ s.id) : (d.stopCapture (some id)).1 = d := by
  unfold Daemon.stopCapture
  rw [h]
  have hother : (some id == some s.id) = false := by simpa using hid
  simp [hother]

/-- A capture that runs was started by one of the events, and holds what came since. -/
theorem session_captures (events : List CaptureEvent) {s : Session}
    (h : (daemonAfter cfg events).session = some s) :
    ∃ before req nowUs live, events = before ++ .start req nowUs :: live ∧
      Captures cfg before req nowUs live s := by
  induction events using List.reverseRecOn generalizing s with
  | nil => cases h
  | append_singleton events event ih =>
      rw [daemon_after_concat] at h
      -- an event that is not a packet leaves a running capture as it is
      have hkeep : (daemonAfter cfg events).session = some s → seenPackets cfg [event] = [] →
          ∃ before req nowUs live, events ++ [event] = before ++ .start req nowUs :: live ∧
            Captures cfg before req nowUs live s := by
        intro hrunning hnone
        obtain ⟨before, req, nowUs, live, rfl, hcaptures⟩ := ih hrunning
        refine ⟨before, req, nowUs, live ++ [event], by simp, hcaptures.idle, hcaptures.started, ?_,
          hcaptures.saved⟩
        rw [seen_packets_append, hnone, List.append_nil, hcaptures.written]
      cases event with
      | packet nowUs frame =>
          simp only [Daemon.step, Daemon.onPacket] at h
          cases hseg : cfg.interesting frame with
          | none =>
              rw [hseg] at h
              exact hkeep h (by simp [seenPackets, hseg])
          | some seg =>
              rw [hseg] at h
              obtain ⟨s', hrunning, rfl⟩ := Option.map_eq_some_iff.mp h
              obtain ⟨before, req, startUs, live, rfl, hcaptures⟩ := ih hrunning
              have hone : seenPackets cfg [.packet nowUs frame] = [(nowUs, frame)] := by
                simp [seenPackets, hseg]
              refine ⟨before, req, startUs, live ++ [.packet nowUs frame], by simp, hcaptures.idle,
                hcaptures.started, ?_, hcaptures.saved⟩
              rw [seen_packets_append, hone, ← List.append_assoc, ← hcaptures.written]
              rfl
      | tick nowUs => exact hkeep h rfl
      | start req nowUs =>
          cases hsession : (daemonAfter cfg events).session with
          | some running =>
              rw [show ((daemonAfter cfg events).step cfg (.start req nowUs)).1 =
                daemonAfter cfg events from start_while_running hsession req nowUs] at h
              exact hkeep h rfl
          | none =>
              rcases start_capture_session cfg hsession req nowUs with
                hnone | ⟨s', reply, hsome, hreply, hid, hwritten, hsaved⟩
              · exact absurd (hnone.symm.trans h) (by simp)
              · obtain rfl : s' = s := Option.some.inj (hsome.symm.trans h)
                refine ⟨events, req, nowUs, [], rfl, hsession, ⟨reply, hreply, hid⟩, ?_, ?_⟩
                · rw [hwritten]
                  exact (List.append_nil _).symm
                · rw [hsaved, tracker_eq]
      | stop id =>
          have hrunning : (daemonAfter cfg events).session = some s := by
            revert h
            simp only [Daemon.step, Daemon.stopCapture]
            split
            · split
              · intro h
                cases h
              · exact fun h => h
            · exact fun h => h
          exact hkeep hrunning rfl

/-- A capture that was stopped held what came between its start and its stop. -/
theorem stopped_captures (events : List CaptureEvent) {i : Nat} {s : Session}
    (h : (run (Daemon.step cfg) cfg.daemon events).2[i]? = some (.stopped s)) :
    ∃ before req nowUs live id after,
      events = before ++ .start req nowUs :: live ++ .stop id :: after ∧
      (id = none ∨ id = some s.id) ∧ (before ++ .start req nowUs :: live).length = i ∧
      Captures cfg before req nowUs live s := by
  induction events using List.reverseRecOn with
  | nil => cases h
  | append_singleton events event ih =>
      rw [run_append] at h
      have hlength : (run (Daemon.step cfg) cfg.daemon events).2.length = events.length := by
        clear h ih
        generalize cfg.daemon = d
        induction events generalizing d with
        | nil => rfl
        | cons event events ih => simp only [run, List.length_cons, ih]
      by_cases hi : i < events.length
      · rw [List.getElem?_append_left (by omega)] at h
        obtain ⟨before, req, nowUs, live, id, after, rfl, hid, hlen, hcaptures⟩ := ih h
        exact ⟨before, req, nowUs, live, id, after ++ [event], by simp, hid, hlen, hcaptures⟩
      · rw [List.getElem?_append_right (by omega), hlength] at h
        have hlast : i - events.length = 0 := by
          by_contra hne
          rw [List.getElem?_eq_none (by simp [run]; omega)] at h
          cases h
        simp only [run, hlast, List.getElem?_cons_zero, Option.some.injEq] at h
        cases event with
        | packet nowUs frame => cases h
        | tick nowUs => cases h
        | start req nowUs =>
            revert h
            simp only [Daemon.step, Daemon.startCapture]
            split
            · intro h
              cases h
            · split <;>
              · intro h
                cases h
        | stop id =>
            have hstop : (daemonAfter cfg events).session = some s ∧
              (id = none ∨ id = some s.id) := by
              revert h
              simp only [Daemon.step, Daemon.stopCapture, daemonAfter]
              split
              · next running hrunning =>
                  split
                  · next hmatch =>
                      intro h
                      cases h
                      refine ⟨hrunning, ?_⟩
                      simpa using hmatch
                  · intro h
                    cases h
              · intro h
                cases h
            obtain ⟨before, req, nowUs, live, rfl, hcaptures⟩ := session_captures events hstop.1
            exact ⟨before, req, nowUs, live, id, [], rfl, hstop.2, by omega, hcaptures⟩

/-- What holds after some events. -/
structure Aligned (cfg : Config) (events : List CaptureEvent) : Prop where
  ring : IsLongestSuffix (Ring.Retained cfg.ringBytes (cfg.ringSecs * 1000000)
    (Ring.newestUs (seenPackets cfg events))) (daemonAfter cfg events).ring.q
    (seenPackets cfg events)
  bytes : (daemonAfter cfg events).ring.bytes = packetBytes (daemonAfter cfg events).ring.q
  tracker : (daemonAfter cfg events).tracker = trackerAfter cfg events
  running : ∀ s, (daemonAfter cfg events).session = some s →
    s.written <:+ seenPackets cfg events ∧
      ∃ before req nowUs live, events = before ++ .start req nowUs :: live ∧
        Captures cfg before req nowUs live s
  stopped : ∀ i s, (run (Daemon.step cfg) cfg.daemon events).2[i]? = some (.stopped s) →
    s.written <:+: seenPackets cfg events ∧
      ∃ before req nowUs live id after,
        events = before ++ .start req nowUs :: live ++ .stop id :: after ∧
        (id = none ∨ id = some s.id) ∧ (before ++ .start req nowUs :: live).length = i ∧
        Captures cfg before req nowUs live s
  start : ∀ s req nowUs, (daemonAfter cfg events).session = some s →
    ((daemonAfter cfg events).step cfg (.start req nowUs)).1 = daemonAfter cfg events
  stop : ∀ s id, (daemonAfter cfg events).session = some s → id ≠ s.id →
    ((daemonAfter cfg events).step cfg (.stop (some id))).1 = daemonAfter cfg events

/-- A capture is a run of the packets seen that ends with its last packet. -/
theorem written_suffix {before live : List CaptureEvent} {req : StartReq} {nowUs : Nat}
    {s : Session}
    (hsorted : ((seenPackets cfg (before ++ .start req nowUs :: live)).map Prod.fst).Pairwise
      (· ≤ ·)) (h : Captures cfg before req nowUs live s) :
    s.written <:+ seenPackets cfg (before ++ .start req nowUs :: live) := by
  have hseen : seenPackets cfg (before ++ .start req nowUs :: live) =
      seenPackets cfg before ++ seenPackets cfg live := by
    rw [seen_packets_append]
    rfl
  rw [hseen] at hsorted ⊢
  rw [List.map_append, List.pairwise_append] at hsorted
  obtain ⟨front, hfront⟩ := (ring_holds_longest before hsorted.1).1.longest.suffix
  rw [h.written, ← hfront, List.append_assoc]
  exact List.suffix_append _ _

/-- After any events, with packets in the order of their timestamps, the ring holds the longest
suffix of the packets seen that its limits allow, every capture is the ring at its start and the
packets since, its snapshot is the connection table at its start, and a start while a capture runs
or a stop with another name changes nothing. -/
theorem captures_aligned (cfg : Config) (events : List CaptureEvent)
    (hsorted : ((seenPackets cfg events).map Prod.fst).Pairwise (· ≤ ·)) : Aligned cfg events where
  ring := by
    obtain ⟨hlongest, hlimit, hage⟩ := ring_holds_longest events hsorted
    rw [← hlimit, ← hage]
    exact hlongest.longest
  bytes := (ring_holds_longest events hsorted).1.bytes
  tracker := tracker_eq events
  running := by
    intro s hsession
    obtain ⟨before, req, nowUs, live, rfl, hcaptures⟩ := session_captures events hsession
    exact ⟨written_suffix hsorted hcaptures, before, req, nowUs, live, rfl, hcaptures⟩
  stopped := by
    intro i s hstopped
    obtain ⟨before, req, nowUs, live, id, after, rfl, hid, hlength, hcaptures⟩ :=
      stopped_captures events hstopped
    refine ⟨?_, before, req, nowUs, live, id, after, rfl, hid, hlength, hcaptures⟩
    rw [seen_packets_append, List.map_append, List.pairwise_append] at hsorted
    rw [seen_packets_append]
    exact (written_suffix hsorted.1 hcaptures).isInfix.trans (List.prefix_append _ _).isInfix
  start := fun _ req nowUs hsession => start_while_running hsession req nowUs
  stop := fun _ _ hsession hid => stop_other hsession hid

end

end

/-! ## A capture of one packet -/

/-- A capture that starts after the SYN of a connection and is stopped after the preface. -/
theorem captures_aligned_reference :
    let _ := noHuffman.toHuffmanDecoding
    Aligned ⟨"eth0", [7777], "/tmp", 4096, 300, 100, 5, 4096⟩
      [.packet 1000 (Pkt.buildTcpPacket Pkt.clientEndpoint 499999 0 TcpFlags.syn 65535 0 []),
        .start ⟨none, none, none⟩ 1500, .tick 1600,
        .packet 2000 (Pkt.buildTcpPacket Pkt.clientEndpoint 500000 0 TcpFlags.ack 65535 1 preface),
        .stop none] := by
  intro _
  exact captures_aligned ⟨"eth0", [7777], "/tmp", 4096, 300, 100, 5, 4096⟩
    [.packet 1000 (Pkt.buildTcpPacket Pkt.clientEndpoint 499999 0 TcpFlags.syn 65535 0 []),
      .start ⟨none, none, none⟩ 1500, .tick 1600,
      .packet 2000 (Pkt.buildTcpPacket Pkt.clientEndpoint 500000 0 TcpFlags.ack 65535 1 preface),
      .stop none] (by decide +kernel)

end H2Tap
