import H2Tap.Rebuild.Client
import H2Tap.Rebuild.Failures

/-!
# Connections do not interfere

The replay counts the failures of all connections in one place, and a marker depends on that count.
All else that the replay knows or writes of a connection comes from the packets between its
addresses (`lookup_run_unmarked`). So the packets of other connections can be added, removed or
moved, and where no block fails not even the markers tell (`connection_isolated`).
-/

namespace H2Tap

open Lib

/-! ## Without the markers -/

namespace DirState

/-- A direction without the markers of failures. -/
def unmarked (ds : DirState) : DirState :=
  { ds with out := ds.out.filter fun item => item.2 ≠ .failed }

theorem unmarked_seed (ds : DirState) (sawSyn : Bool) (seed : Option Seed) :
    (ds.seed sawSyn seed).1.unmarked = (ds.unmarked.seed sawSyn seed).1 := by
  unfold DirState.seed
  have hseeded : ds.unmarked.seeded = ds.seeded := rfl
  rw [hseeded]
  split
  · rfl
  · cases sawSyn with
    | true => rfl
    | false =>
        cases seed with
        | none => rfl
        | some s => cases hs : s.usable <;> simp [hs, unmarked]

theorem unmarked_note_syn (ds : DirState) (seg : EthSegment) :
    (ds.noteSyn seg).unmarked = ds.unmarked.noteSyn seg := by
  unfold noteSyn
  split <;> rfl

end DirState

namespace ConnState

/-- A connection without the markers of failures. -/
def unmarked (cs : ConnState) : ConnState :=
  { cs with c2s := cs.c2s.unmarked, s2c := cs.s2c.unmarked }

@[simp] theorem unmarked_dir (cs : ConnState) (isC2s : Bool) :
    cs.unmarked.dir isC2s = (cs.dir isC2s).unmarked := by
  cases isC2s <;> rfl

theorem unmarked_set_dir (cs : ConnState) (isC2s : Bool) (ds : DirState) :
    (cs.setDir isC2s ds).unmarked = cs.unmarked.setDir isC2s ds.unmarked := by
  cases isC2s <;> rfl

/-- Nothing is marked when a connection opens. -/
theorem unmarked_opened (seg : EthSegment) (ts : Nat) :
    (opened seg ts).unmarked = opened seg ts := by
  cases hsyn : seg.freshSyn <;> simp only [opened, hsyn, unmarked] <;> rfl

/-- A connection without markers is not changed. -/
theorem unmarked_eq_self {cs : ConnState} (h : ∀ isC2s, (cs.dir isC2s).markers = 0) :
    cs.unmarked = cs := by
  have hdir : ∀ isC2s, (cs.dir isC2s).unmarked = cs.dir isC2s := by
    intro isC2s
    have hnone := List.countP_eq_zero.mp (h isC2s)
    unfold DirState.unmarked
    rw [List.filter_eq_self.mpr fun item hitem => by simpa using hnone item hitem]
  have hc2s : cs.c2s.unmarked = cs.c2s := hdir true
  have hs2c : cs.s2c.unmarked = cs.s2c := hdir false
  unfold unmarked
  rw [hc2s, hs2c]

/-- Touching a connection does not look at what was written. -/
theorem unmarked_touch (cs : ConnState) (isC2s : Bool) (seed : Option Seed) (seg : EthSegment)
    (ts : Nat) :
    (cs.touch isC2s seed seg ts).1.unmarked = (cs.unmarked.touch isC2s seed seg ts).1 := by
  have hdir : (cs.touchedDir isC2s seed seg).unmarked = cs.unmarked.touchedDir isC2s seed seg := by
    unfold touchedDir
    rw [DirState.unmarked_note_syn, DirState.unmarked_seed, unmarked_dir]
    rfl
  rw [touch_eq, touch_eq, unmarked_set_dir, hdir]
  rfl

/-- Taking in what a payload gave writes the items that are no markers. -/
theorem unmarked_absorb (cs : ConnState) (isC2s : Bool) (fed : Direction × List ProcessedFrame)
    (ts : Nat) (items : List Normalized) :
    (cs.absorb isC2s fed ts items).unmarked =
      cs.unmarked.absorb isC2s fed ts (items.filter fun item => item ≠ .failed) := by
  cases isC2s <;>
    simp [absorb, dir, setDir, unmarked, DirState.unmarked, DirState.write, List.filter_map,
      Function.comp_def]

variable [HuffmanDecoding]

/-- A connection after a segment, apart from markers. -/
def takeIn (cs : ConnState) (seed : Option Seed) (seg : EthSegment) (ts : Nat) : ConnState :=
  let isC2s := seg.src == cs.client
  let touched := (cs.touch isC2s seed seg ts).1
  if seg.payload.isEmpty then touched
  else
    let fed := (touched.dir isC2s).dir.feed seg.seq seg.payload ts
    touched.absorb isC2s fed ts (fed.2.filterMap normalize)

/-- A segment with a payload, once its direction and what touching does are known. -/
theorem take_in_of_payload {cs touched : ConnState} {isC2s : Bool} {seed : Option Seed}
    {seg : EthSegment} {ts : Nat} (hside : (seg.src == cs.client) = isC2s)
    (htouched : (cs.touch isC2s seed seg ts).1 = touched) (hpayload : seg.payload.isEmpty = false) :
    cs.takeIn seed seg ts =
      touched.absorb isC2s ((touched.dir isC2s).dir.feed seg.seq seg.payload ts) ts
        (((touched.dir isC2s).dir.feed seg.seq seg.payload ts).2.filterMap normalize) := by
  simp only [takeIn, hside, htouched, hpayload, Bool.false_eq_true, if_false]

/-- A segment without a payload. -/
theorem take_in_of_empty {cs : ConnState} {isC2s : Bool} {seed : Option Seed} {seg : EthSegment}
    {ts : Nat} (hside : (seg.src == cs.client) = isC2s) (hempty : seg.payload.isEmpty = true) :
    cs.takeIn seed seg ts = (cs.touch isC2s seed seg ts).1 := by
  simp only [takeIn, hside, hempty, if_true]

variable (seeds : Table (String × String) Seed)

/-- What a segment and its time make of a connection that was `known`, apart from markers. -/
def receive (known : Option ConnState) (arrival : EthSegment × Nat) : ConnState :=
  let (seg, ts) := arrival
  let cs := if seg.freshSyn then opened seg ts else known.getD (opened seg ts)
  cs.takeIn (seeds.lookup (seg.src.text, seg.dst.text)) seg ts

/-- What the segments of a connection make of it, one after the other. -/
def receiveAll (known : Option ConnState) (arrivals : List (EthSegment × Nat)) :
    Option ConnState :=
  arrivals.foldl (fun known arrival => some (receive seeds known arrival)) known

theorem receive_all_append (known : Option ConnState) (arrivals later : List (EthSegment × Nat)) :
    receiveAll seeds known (arrivals ++ later) =
      receiveAll seeds (receiveAll seeds known arrivals) later := List.foldl_append

end ConnState

/-- The segments of a connection with their times, in the order of the capture. -/
def arrivalsOn (k : Key) (packets : List Packet) : List (EthSegment × Nat) :=
  packets.filterMap fun packet => (segmentOn k packet).map fun seg => (seg, packet.1)

namespace Replay

variable [HuffmanDecoding] (seeds : Table (String × String) Seed)

/-- A turn makes of its connection what the segment alone makes of it, apart from markers. -/
theorem unmarked_on_segment (r : Replay) (seg : EthSegment) (ts : Nat) :
    ((r.onSegment seeds seg ts).1.conns.lookup (keyOf seg.src seg.dst)).map ConnState.unmarked =
      some (ConnState.receive seeds
        ((r.conns.lookup (keyOf seg.src seg.dst)).map ConnState.unmarked) (seg, ts)) := by
  have hfound : (if seg.freshSyn then ConnState.opened seg ts
      else ((r.conns.lookup (keyOf seg.src seg.dst)).map ConnState.unmarked).getD
        (ConnState.opened seg ts)) = (r.found seg ts).unmarked := by
    unfold found
    cases seg.freshSyn with
    | true => rw [if_pos rfl, if_pos rfl, ConnState.unmarked_opened]
    | false =>
        rw [if_neg Bool.false_ne_true, if_neg Bool.false_ne_true]
        cases r.conns.lookup (keyOf seg.src seg.dst) with
        | none => exact (ConnState.unmarked_opened seg ts).symm
        | some cs => rfl
  have htouched : ((r.found seg ts).unmarked.touch (r.sentByClient seg ts)
      (seeds.lookup (seg.src.text, seg.dst.text)) seg ts).1 = (r.touched seeds seg ts).unmarked :=
    (ConnState.unmarked_touch _ _ _ _ _).symm
  have hside : (seg.src == (r.found seg ts).unmarked.client) = r.sentByClient seg ts := rfl
  unfold ConnState.receive
  simp only [hfound]
  cases hpayload : seg.payload.isEmpty with
  | true =>
      rw [on_segment_of_empty seeds hpayload, AList.lookup_insert,
        ConnState.take_in_of_empty hside hpayload, htouched]
      rfl
  | false =>
      have hitems : (r.writes seeds seg ts).filter (fun item => item ≠ .failed) =
          (r.fed seeds seg ts).2.filterMap normalize := by
        unfold writes
        rw [List.filter_append, List.filter_eq_self.mpr, List.filter_eq_nil_iff.mpr,
          List.append_nil]
        · intro item hitem
          rw [List.eq_of_mem_replicate hitem]
          simp
        · intro item hitem
          obtain ⟨f, -, hf⟩ := List.mem_filterMap.mp hitem
          have hne : item ≠ .failed := fun heq => normalize_ne_failed f (heq ▸ hf)
          simpa using hne
      rw [on_segment_of_payload seeds hpayload, AList.lookup_insert,
        ConnState.take_in_of_payload hside htouched hpayload, ConnState.unmarked_dir,
        Option.map_some, absorbed, ConnState.unmarked_absorb, hitems]
      rfl

/-- A packet makes of a connection what its segment alone makes of it, and nothing if it belongs to
another. -/
theorem unmarked_step (r : Replay) (k : Key) (packet : Packet) :
    ((r.step seeds packet).1.conns.lookup k).map ConnState.unmarked =
      ConnState.receiveAll seeds ((r.conns.lookup k).map ConnState.unmarked)
        (arrivalsOn k [packet]) := by
  cases hon : segmentOn k packet with
  | none =>
      rw [lookup_step_other hon, arrivalsOn, List.filterMap_cons_none (by rw [hon]; rfl)]
      rfl
  | some seg =>
      obtain ⟨hseg, rfl⟩ := segment_on_some hon
      rw [step_of_segment seeds hseg, unmarked_on_segment, arrivalsOn,
        List.filterMap_cons_some (by rw [hon]; rfl)]
      rfl

/-- Apart from markers, a connection after a run is what its own segments make of it. -/
theorem lookup_run_unmarked (r : Replay) (k : Key) (packets : List Packet) :
    ((run (step seeds) r packets).1.conns.lookup k).map ConnState.unmarked =
      ConnState.receiveAll seeds ((r.conns.lookup k).map ConnState.unmarked)
        (arrivalsOn k packets) := by
  induction packets generalizing r with
  | nil => rfl
  | cons packet packets ih =>
      have hsplit : arrivalsOn k (packet :: packets) =
          arrivalsOn k [packet] ++ arrivalsOn k packets := by
        rw [arrivalsOn, arrivalsOn, arrivalsOn, ← List.filterMap_append, List.singleton_append]
      rw [run_cons_fst, ih, unmarked_step, hsplit, ConnState.receive_all_append]

/-- No direction has more failures or more markers than were counted. -/
def FailuresCounted (r : Replay) : Prop :=
  ∀ k cs, r.conns.lookup k = some cs → ∀ isC2s,
    (cs.dir isC2s).dir.decodeErrors ≤ r.report.decodeFailures ∧
      (cs.dir isC2s).markers ≤ r.report.decodeFailures

theorem failures_counted_step {r : Replay} (h : r.FailuresCounted) (packet : Packet) :
    (r.step seeds packet).1.FailuresCounted := by
  cases hseg : Pkt.parseEthernet packet.2 with
  | none =>
      rw [step_of_none seeds hseg]
      exact h
  | some seg =>
      rw [step_of_segment seeds hseg]
      have hfound := found_rule (r := r.countPacket) (Q := fun ds =>
          ds.dir.decodeErrors ≤ r.report.decodeFailures ∧ ds.markers ≤ r.report.decodeFailures)
        h seg packet.1 (fun isC2s => by
          simp only [DirState.markers, ConnState.opened_dir, List.countP_nil, Nat.zero_le,
            and_self])
      obtain ⟨cs, hturn⟩ := failure_turn seeds r.countPacket seg packet.1 (hfound _).1
      have hside := hfound (r.countPacket.sentByClient seg packet.1)
      have hother := hfound (!r.countPacket.sentByClient seg packet.1)
      have hreported : (r.countPacket.onSegment seeds seg packet.1).1.report.decodeFailures =
          max r.report.decodeFailures (r.countPacket.errorsAfter seeds seg packet.1) :=
        hturn.reported
      have hmarkers : (cs.dir (r.countPacket.sentByClient seg packet.1)).markers =
          ((r.countPacket.found seg packet.1).dir
            (r.countPacket.sentByClient seg packet.1)).markers +
            ((r.countPacket.onSegment seeds seg packet.1).1.report.decodeFailures -
              r.report.decodeFailures) := hturn.markers
      have herrors := hturn.errors
      have herrors_other := hturn.errors_other
      have hmarkers_other := hturn.markers_other
      intro k' cs' hlookup isC2s
      rcases hturn.lookup_cases hlookup with rfl | hold
      · rcases Bool.eq_or_eq_not isC2s (r.countPacket.sentByClient seg packet.1) with rfl | rfl <;>
          omega
      · have hbefore := h k' cs' hold isC2s
        omega

/-- Where no failure was counted, nothing is marked. -/
theorem unmarked_of_no_failures {packets : List Packet}
    (hnone : (run (step seeds) start packets).1.report.decodeFailures = 0) {k : Key}
    {cs : ConnState} (hlookup : (run (step seeds) start packets).1.conns.lookup k = some cs) :
    cs.unmarked = cs := by
  have hcounted : (run (step seeds) start packets).1.FailuresCounted :=
    (run_invariant (step seeds) (P := FailuresCounted) (Q := fun _ => True)
      (fun _ packet h _ => ⟨failures_counted_step seeds h packet, trivial⟩)
      (fun k cs hstart => by simp [start] at hstart) (guarded_true _ packets)).1
  refine ConnState.unmarked_eq_self fun isC2s => ?_
  have hle := (hcounted k cs hlookup isC2s).2
  omega

/-- Captures that agree on the packets of a connection agree on the connection, apart from markers:
its directions, its endpoints and times and all that it writes. If no block fails in either capture
then they agree on all of it. -/
theorem connection_isolated (k : Key) {packets packets' : List Packet}
    (h : arrivalsOn k packets = arrivalsOn k packets') :
    let r := (run (step seeds) start packets).1
    let r' := (run (step seeds) start packets').1
    (r.conns.lookup k).map ConnState.unmarked = (r'.conns.lookup k).map ConnState.unmarked ∧
      (r.report.decodeFailures = 0 → r'.report.decodeFailures = 0 →
        r.conns.lookup k = r'.conns.lookup k) := by
  intro r r'
  have hsame : (r.conns.lookup k).map ConnState.unmarked =
      (r'.conns.lookup k).map ConnState.unmarked := by
    rw [lookup_run_unmarked, lookup_run_unmarked, h]
  refine ⟨hsame, fun hnone hnone' => ?_⟩
  have hself : ∀ packets, (run (step seeds) start packets).1.report.decodeFailures = 0 →
      ((run (step seeds) start packets).1.conns.lookup k).map ConnState.unmarked =
        (run (step seeds) start packets).1.conns.lookup k := by
    intro packets hnone
    cases hlookup : (run (step seeds) start packets).1.conns.lookup k with
    | none => rfl
    | some cs => rw [Option.map_some, unmarked_of_no_failures seeds hnone hlookup]
  rw [← hself packets hnone, ← hself packets' hnone', hsame]

end Replay

/-- A packet of a second client between those of the client whose block fails. -/
def otherClientPacket : Packet :=
  (1001, Pkt.buildTcpPacket { Pkt.clientEndpoint with
    src := { Pkt.clientEndpoint.src with port := 50001 } } 900 0 TcpFlags.syn 65535 0 [])

/-- The packet of the second client makes no difference to the first. -/
theorem connection_isolated_failing :
    let _ := noHuffman.toHuffmanDecoding
    let k := keyOf Pkt.clientEndpoint.src Pkt.clientEndpoint.dst
    ((run (Replay.step ∅) Replay.start failingPackets).1.conns.lookup k).map ConnState.unmarked =
      ((run (Replay.step ∅) Replay.start (failingPackets.take 1 ++ otherClientPacket ::
        failingPackets.drop 1)).1.conns.lookup k).map ConnState.unmarked := by
  intro _ k
  exact (Replay.connection_isolated ∅ k (by decide +kernel)).1

end H2Tap
