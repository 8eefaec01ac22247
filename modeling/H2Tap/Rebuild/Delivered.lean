import H2Tap.Rebuild.Holes
import H2Tap.Tracker.Delivered

/-!
# A connection seen by both programs

The tracker and the replay take in the same segments, among them those of one connection from its
SYN on. `watch` is a turn of both, with how much of either side's stream was seen. As long as no
segment leaves a hole, both parsers read the streams from the first byte on, if and only if no SYN
brings new data and no bare SYN comes after data, where both programs open the connection anew
(`delivered_in_place_iff`).
-/

namespace H2Tap

open Lib

variable {P : Reassembler → Prop}

namespace ConnState

/-- A direction whose SYN was seen is not seeded, so that touching it only notes a SYN. -/
theorem touched_dir_reasm {cs : ConnState} (hsaw : cs.sawSyn = true) (isC2s : Bool)
    (seed : Option Seed) (seg : EthSegment) :
    (cs.touchedDir isC2s seed seg).dir.reasm =
      if seg.has TcpFlags.syn then (cs.dir isC2s).dir.reasm.noteSyn seg.seq
      else (cs.dir isC2s).dir.reasm := by
  have hseeded : (((cs.dir isC2s).noteEndpoint seg).seed cs.sawSyn seed).1.dir =
      (cs.dir isC2s).dir := by
    rw [hsaw, DirState.seed]
    split <;> rfl
  unfold touchedDir DirState.noteSyn
  split
  · next hsyn => rw [hseeded]
  · rw [hseeded]

end ConnState

namespace Replay

section

variable [HuffmanDecoding] (seeds : Table (String × String) Seed)

/-- What the parser finds when the replay gets a segment. -/
def parserInput (r : Replay) (seg : EthSegment) (ts : Nat) : Reassembler :=
  (((r.touched seeds seg ts).dir (r.sentByClient seg ts)).dir.reasm.push seg.seq seg.payload ts).1

end

variable {seeds : Table (String × String) Seed}

theorem parser_input_eq {r : Replay} {seg : EthSegment} {ts : Nat}
    (hsaw : (r.found seg ts).sawSyn = true) :
    r.parserInput seeds seg ts =
      ((r.found seg ts).dir (r.sentByClient seg ts)).dir.reasm.onSegment seg.toTcpSegment ts := by
  rw [parserInput, touched, ConnState.touch_dir, ConnState.touched_dir_reasm hsaw]
  rfl

/-- A segment changes the connection that it finds, and no other. Of the reassemblers, the parser
takes bytes from the front of the one that received it, and the other one stays as it is. -/
theorem conns_on_segment [HuffmanDecoding] (hconsume : ∀ r n, P r → P (r.consume n)) {r : Replay}
    {seg : EthSegment} {ts : Nat} (h : P (r.parserInput seeds seg ts)) :
    ∃ cs, (r.onSegment seeds seg ts).1.conns = r.conns.insert (keyOf seg.src seg.dst) cs ∧
      cs.client = (r.found seg ts).client ∧ cs.sawSyn = (r.found seg ts).sawSyn ∧
      P (cs.dir (r.sentByClient seg ts)).dir.reasm ∧
      (cs.dir (!r.sentByClient seg ts)).dir.reasm =
        ((r.found seg ts).dir (!r.sentByClient seg ts)).dir.reasm := by
  have hsaw : (r.touched seeds seg ts).sawSyn = (r.found seg ts).sawSyn := by
    rw [touched, ConnState.touch_saw_syn]
  cases hpayload : seg.payload.isEmpty with
  | true =>
      rw [on_segment_of_empty seeds hpayload]
      refine ⟨_, rfl, ConnState.touch_client _ _ _ _ _, hsaw, ?_, ?_⟩
      · rw [parserInput, List.isEmpty_iff.mp hpayload] at h
        exact h
      · rw [touched, ConnState.touch_dir_not]
  | false =>
      rw [on_segment_of_payload seeds hpayload]
      refine ⟨_, rfl, ?_, ?_, ?_, ?_⟩
      · rw [absorbed, ConnState.absorb_client, touched, ConnState.touch_client]
      · rw [absorbed, ConnState.absorb_saw_syn, hsaw]
      · rw [absorbed, ConnState.absorb_dir]
        exact Direction.reasm_feed hconsume h
      · rw [absorbed, ConnState.absorb_dir_not]
        show (List.foldl _ _ _ : Direction).reasm = _
        rw [Direction.reasm_peer_capacities, touched, ConnState.touch_dir_not]

end Replay

/-! ## Both programs -/

/-- A connection that is watched: its endpoints, and what the client (`true`) and the server
send. -/
structure ObservedConn where
  client : SocketAddr
  server : SocketAddr
  sent : Bool → Sent

/-- Both programs, and how many bytes of either side were seen. -/
structure Watch where
  tracker : Tracker
  replay : Replay
  seen : Bool → Nat

namespace ObservedConn

def key (x : ObservedConn) : Key := keyOf x.client x.server

/-- The side that sent a segment. -/
def side (x : ObservedConn) (seg : EthSegment) : Bool := seg.src == x.client

/-- How many bytes of the sender's stream are seen with a segment. -/
def seenAfter (x : ObservedConn) (w : Watch) (seg : EthSegment) : Nat :=
  (x.sent (x.side seg)).seenAfter (w.seen (x.side seg)) seg.toTcpSegment

section

variable [HuffmanDecoding] (seeds : Table (String × String) Seed)

/-- Both programs get a segment. -/
def watch (x : ObservedConn) (w : Watch) (arrival : EthSegment × Nat) : Watch × Unit :=
  let (seg, ts) := arrival
  ({ tracker := w.tracker.onSegment seg ts
     replay := (w.replay.onSegment seeds seg ts).1
     seen := fun side =>
       if keyOf seg.src seg.dst = x.key ∧ side = x.side seg then x.seenAfter w seg
       else w.seen side }, ())

end

/-- Nothing is lost: a segment of the connection leaves no hole in its sender's stream. -/
def Lossless (x : ObservedConn) (w : Watch) (arrival : EthSegment × Nat) : Prop :=
  keyOf arrival.1.src arrival.1.dst = x.key →
    (x.sent (x.side arrival.1)).Continues (w.seen (x.side arrival.1)) arrival.1.toTcpSegment

instance (x : ObservedConn) (w : Watch) (arrival : EthSegment × Nat) :
    Decidable (x.Lossless w arrival) :=
  inferInstanceAs (Decidable (_ → _))

/-- In both programs the parsers of the connection that the segment is handed to read the streams:
the one of its direction with the segment, and the other one as before. -/
def InPlace (seeds : Table (String × String) Seed) (x : ObservedConn) (w : Watch)
    (arrival : EthSegment × Nat) : Prop :=
  let (seg, ts) := arrival
  let sender := x.sent (x.side seg)
  let receiver := x.sent (!x.side seg)
  keyOf seg.src seg.dst = x.key →
    (∃ c, w.tracker.target seg ts = some c ∧
      sender.Reads (x.seenAfter w seg)
        (c.toConn.parserInput (seg.src == c.client) seg.toTcpSegment ts) ∧
      receiver.Reads (w.seen (!x.side seg)) (c.dir (!(seg.src == c.client))).dir.reasm) ∧
    sender.Reads (x.seenAfter w seg) (w.replay.parserInput seeds seg ts) ∧
      receiver.Reads (w.seen (!x.side seg))
        ((w.replay.found seg ts).dir (!w.replay.sentByClient seg ts)).dir.reasm

/-- A SYN brings no data that was not seen before, and a bare SYN comes before all data and finds
room in the tracker. -/
structure SynFits (x : ObservedConn) (w : Watch) (seg : EthSegment) : Prop where
  news : x.seenAfter w seg = w.seen (x.side seg)
  unseen : seg.freshSyn = true → ∀ side, w.seen side = 0
  room : seg.freshSyn = true →
    (w.tracker.conns.erase x.key).entries.length < w.tracker.maxConns

instance (x : ObservedConn) (w : Watch) (seg : EthSegment) : Decidable (x.SynFits w seg) :=
  decidable_of_iff (x.seenAfter w seg = w.seen (x.side seg) ∧
      (seg.freshSyn = true → ∀ side : Bool, w.seen side = 0) ∧
      (seg.freshSyn = true →
        (w.tracker.conns.erase x.key).entries.length < w.tracker.maxConns))
    ⟨fun h => ⟨h.1, h.2.1, h.2.2⟩, fun h => ⟨h.news, h.unseen, h.room⟩⟩

/-- Every SYN of the connection fits. -/
def SynsFit (x : ObservedConn) (w : Watch) (arrival : EthSegment × Nat) : Prop :=
  keyOf arrival.1.src arrival.1.dst = x.key → arrival.1.has TcpFlags.syn = true →
    x.SynFits w arrival.1

instance (x : ObservedConn) (w : Watch) (arrival : EthSegment × Nat) :
    Decidable (x.SynsFit w arrival) := inferInstanceAs (Decidable (_ → _ → _))

/-! ## The streams are followed -/

/-- The direction of a side, if `client` opened the connection. -/
def isC2s (x : ObservedConn) (client : SocketAddr) (side : Bool) : Bool :=
  side == (client == x.client)

/-- What either program knows of the connection: one of the endpoints opened it, and the
reassemblers follow the streams. -/
structure Follows (x : ObservedConn) (w : Watch) (client : SocketAddr)
    (reasm : Bool → Reassembler) : Prop where
  endpoint : client = x.client ∨ client = x.server
  streams : ∀ side, (x.sent side).Follows (w.seen side) (reasm (x.isC2s client side))

/-- Both programs know the connection, and no more was seen than was sent. -/
structure Tracks (x : ObservedConn) (w : Watch) : Prop where
  tracker : ∃ c, w.tracker.conns.lookup x.key = some c ∧
    x.Follows w c.client fun isC2s => (c.dir isC2s).dir.reasm
  replay : ∃ cs, w.replay.conns.lookup x.key = some cs ∧ cs.sawSyn = true ∧
    x.Follows w cs.client fun isC2s => (cs.dir isC2s).dir.reasm
  seen_le : ∀ side, w.seen side ≤ (x.sent side).stream.length

/-- Both programs find or open the connection when a segment of it arrives. -/
structure Finds (x : ObservedConn) (w : Watch) (seg : EthSegment) (ts : Nat) : Prop where
  tracker : ∃ c, w.tracker.target seg ts = some c ∧
    x.Follows w c.client fun isC2s => (c.dir isC2s).dir.reasm
  replay : (w.replay.found seg ts).sawSyn = true ∧
    x.Follows w (w.replay.found seg ts).client fun isC2s =>
      ((w.replay.found seg ts).dir isC2s).dir.reasm
  seen_le : ∀ side, w.seen side ≤ (x.sent side).stream.length

variable {x : ObservedConn} {w : Watch} {seg : EthSegment} {ts : Nat}

/-- A segment goes into the direction of its sender. -/
theorem is_c2s_side (hkey : keyOf seg.src seg.dst = x.key) {client : SocketAddr}
    (hclient : client = x.client ∨ client = x.server) :
    x.isC2s client (x.side seg) = (seg.src == client) := by
  have hsrc : seg.src = x.client ∨ seg.src = x.server :=
    (key_of_eq_iff.mp hkey).imp And.left And.left
  unfold isC2s side
  rcases hclient with rfl | rfl
  · rw [beq_self_eq_true, beq_true]
  · by_cases hsame : x.server = x.client
    · rw [hsame, beq_self_eq_true, beq_true]
    · rw [beq_false_of_ne hsame]
      rcases hsrc with hsrc | hsrc
      · rw [hsrc, beq_self_eq_true, beq_false_of_ne (Ne.symm hsame)]
        rfl
      · rw [hsrc, beq_self_eq_true, beq_false_of_ne hsame]
        rfl

theorem is_c2s_not (x : ObservedConn) (client : SocketAddr) (side : Bool) :
    x.isC2s client (!side) = !x.isC2s client side := by
  unfold isC2s
  cases side <;> cases (client == x.client) <;> rfl

/-- A bare SYN opens it anew in the replay. -/
theorem found_fresh_syn (w : Watch) (hsyn : seg.freshSyn = true) (ts : Nat) :
    (w.replay.found seg ts).client = seg.src ∧ (w.replay.found seg ts).sawSyn = true ∧
      ∀ isC2s, ((w.replay.found seg ts).dir isC2s).dir.reasm = .new := by
  have hfound : w.replay.found seg ts = ConnState.opened seg ts := by
    rw [Replay.found, if_pos hsyn]
  rw [hfound]
  exact ⟨rfl, hsyn, ConnState.reasm_opened seg ts⟩

/-- A bare SYN before all data opens it in both programs, if there is room. -/
theorem finds_of_fresh_syn (hkey : keyOf seg.src seg.dst = x.key) (hsyn : seg.freshSyn = true)
    (hseen : ∀ side, w.seen side = 0)
    (hroom : (w.tracker.conns.erase x.key).entries.length < w.tracker.maxConns) :
    x.Finds w seg ts := by
  have hsrc : seg.src = x.client ∨ seg.src = x.server :=
    (key_of_eq_iff.mp hkey).imp And.left And.left
  have hnew (side : Bool) : (x.sent side).Follows (w.seen side) .new := by
    rw [hseen side]
    exact (x.sent side).follows_new
  obtain ⟨hopen, hreasm⟩ := Tracker.open_conn_of_fresh_syn w.tracker hsyn ts
  obtain ⟨hfound, hsaw, hreasm'⟩ := found_fresh_syn w hsyn ts
  have htarget := Tracker.target_of_fresh_syn (t := w.tracker) hsyn ts
  rw [hkey, if_pos hroom] at htarget
  refine ⟨⟨_, htarget, hopen ▸ hsrc, fun side => ?_⟩, ⟨hsaw, hfound ▸ hsrc, fun side => ?_⟩,
    fun side => hseen side ▸ Nat.zero_le _⟩
  · rw [hreasm]
    exact hnew side
  · rw [hreasm']
    exact hnew side

/-- Any other segment finds it once it is known. -/
theorem Tracks.finds (h : x.Tracks w) (hkey : keyOf seg.src seg.dst = x.key)
    (hsyn : seg.freshSyn = false) (ts : Nat) : x.Finds w seg ts := by
  obtain ⟨c, hlookup, hfollows⟩ := h.tracker
  obtain ⟨cs, hlookup', hcs⟩ := h.replay
  have hfound : w.replay.found seg ts = cs := by
    rw [Replay.found, hsyn, hkey, hlookup']
    rfl
  refine ⟨⟨c, Tracker.target_of_lookup hsyn (hkey ▸ hlookup) ts, hfollows⟩, ?_, h.seen_le⟩
  rwa [hfound]

/-- Once the connection is found, all parsers read their streams exactly if the segment is not a SYN
with new data. -/
theorem Finds.in_place_iff (h : x.Finds w seg ts) (hkey : keyOf seg.src seg.dst = x.key)
    (hloss : x.Lossless w (seg, ts)) (seeds : Table (String × String) Seed) :
    InPlace seeds x w (seg, ts) ↔
      (seg.has TcpFlags.syn = true → x.seenAfter w seg = w.seen (x.side seg)) := by
  have hseg := hloss hkey
  obtain ⟨c, htarget, hend, hfollows⟩ := h.tracker
  obtain ⟨hsaw, hend', hfollows'⟩ := h.replay
  have hdir := is_c2s_side hkey hend
  have hdir' := is_c2s_side hkey hend'
  have hother := hfollows (!x.side seg)
  have hother' := hfollows' (!x.side seg)
  rw [is_c2s_not, hdir] at hother
  rw [is_c2s_not, hdir'] at hother'
  have hreads := Sent.reads_receive_iff (hfollows (x.side seg)) hseg ts
  have hreads' := Sent.reads_receive_iff (hfollows' (x.side seg)) hseg ts
  rw [hdir, ← Conn.parser_input_eq] at hreads
  rw [hdir'] at hreads'
  have hreplay : w.replay.parserInput seeds seg ts =
      ((w.replay.found seg ts).dir (seg.src == (w.replay.found seg ts).client)).dir.reasm.onSegment
        seg.toTcpSegment ts := Replay.parser_input_eq hsaw
  rw [← hreplay] at hreads'
  constructor
  · exact fun hplace => hreads'.mp (hplace hkey).2.1
  · exact fun hnews _ =>
      ⟨⟨c, htarget, hreads.mpr hnews, hother.reads⟩, hreads'.mpr hnews, hother'.reads⟩

/-- When a bare SYN arrives, all parsers read their streams exactly if it comes before all data,
brings none, and finds room: it opens the connection anew. -/
theorem in_place_fresh_iff (hkey : keyOf seg.src seg.dst = x.key) (hsyn : seg.freshSyn = true)
    (hloss : x.Lossless w (seg, ts)) (hle : ∀ side, w.seen side ≤ (x.sent side).stream.length)
    (seeds : Table (String × String) Seed) :
    InPlace seeds x w (seg, ts) ↔ x.SynFits w seg := by
  have hseg := hloss hkey
  have hhas : seg.has TcpFlags.syn = true := TcpSegment.has_syn_of_fresh hsyn
  constructor
  · intro hplace
    obtain ⟨⟨c, htarget, hsent, hother⟩, -⟩ := hplace hkey
    rw [Tracker.target_of_fresh_syn hsyn, hkey] at htarget
    split at htarget
    · next hroom =>
        obtain rfl := Option.some.inj htarget
        obtain ⟨-, hreasm⟩ := Tracker.open_conn_of_fresh_syn w.tracker hsyn ts
        rw [hreasm] at hother
        rw [Conn.parser_input_eq, hreasm] at hsent
        have hafter : x.seenAfter w seg = 0 :=
          Sent.unseen_of_reads_syn (hle (x.side seg)) hseg hhas hsent
        have hbefore : w.seen (x.side seg) = 0 := by
          have hmono : w.seen (x.side seg) ≤ x.seenAfter w seg := le_max_left _ _
          omega
        refine ⟨hafter.trans hbefore.symm, fun _ side => ?_, fun _ => hroom⟩
        rcases Bool.eq_or_eq_not side (x.side seg) with rfl | rfl
        · exact hbefore
        · exact Sent.unseen_of_reads_new (hle _) hother
    · cases htarget
  · intro hfits
    exact ((finds_of_fresh_syn hkey hsyn (hfits.unseen hsyn) (hfits.room hsyn)).in_place_iff hkey
      hloss seeds).mpr fun _ => hfits.news

/-- Then both programs know it, and follow the streams. -/
theorem Finds.tracks [HuffmanDecoding] (h : x.Finds w seg ts)
    (hkey : keyOf seg.src seg.dst = x.key) (hloss : x.Lossless w (seg, ts))
    (hnews : seg.has TcpFlags.syn = true → x.seenAfter w seg = w.seen (x.side seg))
    (seeds : Table (String × String) Seed) : x.Tracks (watch seeds x w (seg, ts)).1 := by
  have hseg := hloss hkey
  obtain ⟨c, htarget, hend, hfollows⟩ := h.tracker
  obtain ⟨hsaw, hend', hfollows'⟩ := h.replay
  have hdir := is_c2s_side hkey hend
  have hdir' := is_c2s_side hkey hend'
  have hseen (side : Bool) : (watch seeds x w (seg, ts)).1.seen side =
      if side = x.side seg then x.seenAfter w seg else w.seen side := by
    simp only [watch, hkey, true_and]
  -- the sender's direction receives the segment, the other one stays as it is
  have hboth (client : SocketAddr) (before after : Bool → Reassembler)
      (hside : (x.sent (x.side seg)).Follows (x.seenAfter w seg)
        (after (x.isC2s client (x.side seg))))
      (hother : after (!x.isC2s client (x.side seg)) = before (!x.isC2s client (x.side seg)))
      (hbefore : x.Follows w client before) :
      x.Follows (watch seeds x w (seg, ts)).1 client after := by
    refine ⟨hbefore.endpoint, fun side => ?_⟩
    rw [hseen]
    rcases Bool.eq_or_eq_not side (x.side seg) with rfl | rfl
    · rw [if_pos rfl]
      exact hside
    · have hstreams := hbefore.streams (!x.side seg)
      rw [is_c2s_not] at hstreams ⊢
      rw [if_neg (by simp), hother]
      exact hstreams
  have hconsume (r : Reassembler) (n : Nat)
      (hr : (x.sent (x.side seg)).Follows (x.seenAfter w seg) r) :
      (x.sent (x.side seg)).Follows (x.seenAfter w seg) (r.consume n) := hr.consume n
  constructor
  · have hreceived := Sent.follows_receive (hfollows (x.side seg)) hseg hnews ts
    rw [← Conn.parser_input_eq] at hreceived
    obtain ⟨hside, hother⟩ := Conn.reasm_on_segment hconsume hreceived
    refine ⟨{ c with toConn :=
        (c.toConn.onSegment (x.isC2s c.client (x.side seg)) seg.toTcpSegment ts).1 }, ?_,
      hboth c.client (fun isC2s => (c.dir isC2s).dir.reasm) _ hside hother ⟨hend, hfollows⟩⟩
    show (w.tracker.onSegment seg ts).conns.lookup x.key = _
    rw [← hkey, Tracker.lookup_on_segment htarget, hdir]
  · have hreceived := Sent.follows_receive (hfollows' (x.side seg)) hseg hnews ts
    have hsent : w.replay.sentByClient seg ts =
        x.isC2s (w.replay.found seg ts).client (x.side seg) := hdir'.symm
    have hinput : w.replay.parserInput seeds seg ts = _ := Replay.parser_input_eq hsaw
    rw [hsent] at hinput
    rw [← hinput] at hreceived
    obtain ⟨cs, hconns, hcs, hsaw', hside, hother⟩ := Replay.conns_on_segment hconsume hreceived
    rw [hsent, ← hcs] at hside hother
    refine ⟨cs, ?_, hsaw'.trans hsaw, hboth cs.client
      (fun isC2s => ((w.replay.found seg ts).dir isC2s).dir.reasm) _ hside hother ?_⟩
    · show (w.replay.onSegment seeds seg ts).1.conns.lookup x.key = some cs
      rw [hconns, hkey, AList.lookup_insert]
    · rw [hcs]
      exact ⟨hend', hfollows'⟩
  · intro side
    rw [hseen]
    split
    · next hside =>
        subst hside
        exact Sent.seen_after_le (h.seen_le _) hseg
    · exact h.seen_le side

/-- Segments of other connections change nothing. -/
theorem Tracks.other [HuffmanDecoding] (h : x.Tracks w) (hkey : keyOf seg.src seg.dst ≠ x.key)
    (seeds : Table (String × String) Seed) : x.Tracks (watch seeds x w (seg, ts)).1 := by
  have hseen : (watch seeds x w (seg, ts)).1.seen = w.seen := by
    funext side
    simp only [watch, hkey, false_and, if_false]
  obtain ⟨c, hlookup, hc⟩ := h.tracker
  obtain ⟨cs, hlookup', hsaw, hcs⟩ := h.replay
  obtain ⟨_, hconns, -⟩ := @Replay.conns_on_segment (fun _ => True) seeds _ (fun _ _ _ => trivial)
    w.replay seg ts trivial
  have hsame {client : SocketAddr} {reasm : Bool → Reassembler} (h : x.Follows w client reasm) :
      x.Follows (watch seeds x w (seg, ts)).1 client reasm :=
    ⟨h.endpoint, fun side => hseen ▸ h.streams side⟩
  refine ⟨⟨c, ?_, hsame hc⟩, ⟨cs, ?_, hsaw, hsame hcs⟩, fun side => hseen ▸ h.seen_le side⟩
  · show (w.tracker.onSegment seg ts).conns.lookup x.key = some c
    rw [Tracker.lookup_on_segment_ne _ _ (Ne.symm hkey), hlookup]
  · show (w.replay.onSegment seeds seg ts).1.conns.lookup x.key = some cs
    rw [hconns, AList.lookup_insert_ne (Ne.symm hkey), hlookup']

/-- A segment of a known connection is read in place exactly if it is no SYN that does not fit. -/
theorem Tracks.in_place_iff (h : x.Tracks w) (hloss : x.Lossless w (seg, ts))
    (seeds : Table (String × String) Seed) :
    InPlace seeds x w (seg, ts) ↔ x.SynsFit w (seg, ts) := by
  by_cases hkey : keyOf seg.src seg.dst = x.key
  · cases hsyn : seg.freshSyn with
    | true =>
        rw [in_place_fresh_iff hkey hsyn hloss h.seen_le seeds]
        exact ⟨fun hfits _ _ => hfits, fun hfits => hfits hkey (TcpSegment.has_syn_of_fresh hsyn)⟩
    | false =>
        rw [(h.finds hkey hsyn ts).in_place_iff hkey hloss seeds]
        have hnot : seg.freshSyn ≠ true := by rw [hsyn]; exact Bool.false_ne_true
        exact ⟨fun hnews _ hhas =>
            ⟨hnews hhas, fun hfresh => absurd hfresh hnot, fun hfresh => absurd hfresh hnot⟩,
          fun hfits hhas => (hfits hkey hhas).news⟩
  · exact iff_of_true (fun hon => absurd hon hkey) fun hon => absurd hon hkey

/-- With a bare SYN that fits, both programs know the connection. -/
theorem tracks_fresh_syn [HuffmanDecoding] (hkey : keyOf seg.src seg.dst = x.key)
    (hsyn : seg.freshSyn = true) (hloss : x.Lossless w (seg, ts)) (hfits : x.SynFits w seg)
    (seeds : Table (String × String) Seed) : x.Tracks (watch seeds x w (seg, ts)).1 :=
  (finds_of_fresh_syn hkey hsyn (hfits.unseen hsyn) (hfits.room hsyn)).tracks hkey hloss
    (fun _ => hfits.news) seeds

/-- A connection stays known as long as its SYNs fit. -/
theorem Tracks.watch [HuffmanDecoding] (h : x.Tracks w) (hloss : x.Lossless w (seg, ts))
    (hfits : x.SynsFit w (seg, ts)) (seeds : Table (String × String) Seed) :
    x.Tracks (watch seeds x w (seg, ts)).1 := by
  by_cases hkey : keyOf seg.src seg.dst = x.key
  · cases hsyn : seg.freshSyn with
    | true =>
        exact tracks_fresh_syn hkey hsyn hloss
          (hfits hkey (TcpSegment.has_syn_of_fresh hsyn)) seeds
    | false =>
        exact (h.finds hkey hsyn ts).tracks hkey hloss (fun hhas => (hfits hkey hhas).news) seeds
  · exact h.other hkey seeds

end ObservedConn

open ObservedConn

/-- However the programs got there, and whatever else they are given: if from a bare SYN on no
segment of a connection leaves a hole, the parsers of both programs read both streams in place at
every segment, if and only if no SYN brings new data and every bare SYN comes before all data and
finds room. -/
theorem delivered_in_place_iff [HuffmanDecoding] (x : ObservedConn)
    (seeds : Table (String × String) Seed) (tracker : Tracker) (replay : Replay)
    (first : EthSegment × Nat) (later : List (EthSegment × Nat))
    (hkey : keyOf first.1.src first.1.dst = x.key) (hsyn : first.1.freshSyn = true)
    (hloss : Guarded (watch seeds x) x.Lossless ⟨tracker, replay, fun _ => 0⟩ (first :: later)) :
    Guarded (watch seeds x) (InPlace seeds x) ⟨tracker, replay, fun _ => 0⟩ (first :: later) ↔
      Guarded (watch seeds x) x.SynsFit ⟨tracker, replay, fun _ => 0⟩ (first :: later) := by
  obtain ⟨hfirst, hlater⟩ := hloss
  have hplace : InPlace seeds x ⟨tracker, replay, fun _ => 0⟩ first ↔
      x.SynsFit ⟨tracker, replay, fun _ => 0⟩ first := by
    rw [in_place_fresh_iff hkey hsyn hfirst (fun _ => Nat.zero_le _) seeds]
    exact ⟨fun hfits _ _ => hfits, fun hfits => hfits hkey (TcpSegment.has_syn_of_fresh hsyn)⟩
  have hrest (hfits : x.SynsFit ⟨tracker, replay, fun _ => 0⟩ first) :
      Guarded (watch seeds x) (InPlace seeds x)
          (watch seeds x ⟨tracker, replay, fun _ => 0⟩ first).1 later ↔
        Guarded (watch seeds x) x.SynsFit
          (watch seeds x ⟨tracker, replay, fun _ => 0⟩ first).1 later :=
    guarded_iff_guarded (J := x.Tracks) (C := x.Lossless)
      (fun _ _ htracks hloss => htracks.in_place_iff hloss seeds)
      (fun _ _ htracks hloss hfits => htracks.watch hloss hfits seeds)
      (tracks_fresh_syn hkey hsyn hfirst
        (hfits hkey (TcpSegment.has_syn_of_fresh hsyn)) seeds) hlater
  constructor
  · rintro ⟨hinplace, hlater'⟩
    have hfits := hplace.mp hinplace
    exact ⟨hfits, (hrest hfits).mp hlater'⟩
  · rintro ⟨hfits, hlater'⟩
    exact ⟨hplace.mpr hfits, (hrest hfits).mpr hlater'⟩

/-- The reference connection, whose client sends a preface around the end of the number space. -/
def observedReference : ObservedConn where
  client := Pkt.clientAddr
  server := Pkt.serverAddr
  sent isC2s := if isC2s then ⟨4294967290, preface⟩ else ⟨199, [0, 0, 0, 4, 0, 0, 0, 0, 0]⟩

/-- A SYN that is sent twice, the SYN of the server, a preface of which some bytes are repeated, and
the SYN of the server again with data that came before. -/
theorem delivered_in_place_iff_handshake :
    let _ := noHuffman.toHuffmanDecoding
    Guarded (watch ∅ observedReference) (InPlace ∅ observedReference)
      ⟨.new [7777] 100 300 65536, ⟨∅, [], .default⟩, fun _ => 0⟩
      [(referenceSegment true 4294967290 TcpFlags.syn [], 1),
        (referenceSegment true 4294967290 TcpFlags.syn [], 2),
        (referenceSegment false 199 (TcpFlags.syn ||| TcpFlags.ack) [], 3),
        (referenceSegment true 4294967291 TcpFlags.ack (preface.take 10), 4),
        (referenceSegment true 4294967294 TcpFlags.ack (preface.drop 3), 5),
        (referenceSegment false 200 TcpFlags.ack [0, 0, 0, 4], 6),
        (referenceSegment false 199 (TcpFlags.syn ||| TcpFlags.ack) [0, 0, 0, 4], 7)] := by
  intro _
  exact (delivered_in_place_iff observedReference ∅ (.new [7777] 100 300 65536)
    ⟨∅, [], .default⟩ _ _ (by decide) (by decide) (by decide +kernel)).mpr (by decide +kernel)

/-- The SYN of the client carries the first bytes of the preface, and the parsers miss one. -/
theorem syn_data_out_of_place :
    let _ := noHuffman.toHuffmanDecoding
    ¬∀ (x : ObservedConn) (seeds : Table (String × String) Seed) (tracker : Tracker)
      (replay : Replay) (first : EthSegment × Nat) (later : List (EthSegment × Nat)),
      keyOf first.1.src first.1.dst = x.key → first.1.freshSyn = true →
        (tracker.conns.erase x.key).entries.length < tracker.maxConns →
        Guarded (watch seeds x) x.Lossless ⟨tracker, replay, fun _ => 0⟩ (first :: later) →
          Guarded (watch seeds x) (InPlace seeds x) ⟨tracker, replay, fun _ => 0⟩
            (first :: later) := by
  intro _ hclaim
  have hkey : keyOf (referenceSegment true 4294967290 TcpFlags.syn (preface.take 10)).src
      (referenceSegment true 4294967290 TcpFlags.syn (preface.take 10)).dst =
        observedReference.key := by decide
  have hloss : observedReference.Lossless
      ⟨.new [7777] 100 300 65536, ⟨∅, [], .default⟩, fun _ => 0⟩
      (referenceSegment true 4294967290 TcpFlags.syn (preface.take 10), 1) := by decide +kernel
  have hplace := (hclaim observedReference ∅ (.new [7777] 100 300 65536) ⟨∅, [], .default⟩
    (referenceSegment true 4294967290 TcpFlags.syn (preface.take 10), 1) [] hkey (by decide)
    (by decide) ⟨hloss, trivial⟩).1
  have hfits := (in_place_fresh_iff hkey (by decide) hloss (fun _ => Nat.zero_le _) ∅).mp hplace
  revert hfits
  decide +kernel

end H2Tap
