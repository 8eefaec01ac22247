import H2Tap.Conn.ParseLoop
import H2Tap.Rebuild.Turns

/-!
# Header blocks that fail to decode

A block that could not be decoded is to be counted, and a marker is to be written where it was lost.
The count that was already reported is kept in one place for all directions, so what the report
holds is the largest number of failures of a direction, not the sum. `failures_visible_iff` says
when that is the same: all failures are those of one direction.
-/

namespace H2Tap

open Lib

/-- How many markers were written to a direction. -/
def DirState.markers (ds : DirState) : Nat := ds.out.countP fun item => item.2 = .failed

namespace ConnState

/-- The failures of both directions. -/
def decodeErrors (cs : ConnState) : Nat := cs.c2s.dir.decodeErrors + cs.s2c.dir.decodeErrors

theorem decode_errors_eq (cs : ConnState) (isC2s : Bool) :
    cs.decodeErrors = (cs.dir isC2s).dir.decodeErrors + (cs.dir (!isC2s)).dir.decodeErrors := by
  cases isC2s
  · exact Nat.add_comm _ _
  · rfl

theorem touched_dir_decode_errors (cs : ConnState) (isC2s : Bool) (seed : Option Seed)
    (seg : EthSegment) :
    (cs.touchedDir isC2s seed seg).dir.decodeErrors = (cs.dir isC2s).dir.decodeErrors :=
  touched_dir_rule (P := fun d => d.decodeErrors = (cs.dir isC2s).dir.decodeErrors) rfl
    (fun _ _ _ => rfl) (fun _ _ h => h) seed seg

end ConnState

theorem Direction.decode_errors_peer_capacities (sizes : List Nat) (d : Direction) :
    (sizes.foldl Direction.applyPeerCapacity d).decodeErrors = d.decodeErrors := by
  induction sizes generalizing d with
  | nil => rfl
  | cons n sizes ih => exact ih (d.applyPeerCapacity n)

/-- No frame makes a marker. -/
theorem normalize_ne_failed (f : ProcessedFrame) : normalize f ≠ some .failed := by
  unfold normalize
  split
  · simp
  · split <;> simp

namespace Report

@[simp] theorem count_frames_decode_failures (frames : List ProcessedFrame) (rep : Report) :
    (frames.foldl countFrame rep).decodeFailures = rep.decodeFailures := by
  induction frames generalizing rep with
  | nil => rfl
  | cons f frames ih =>
      rw [List.foldl_cons, ih]
      unfold countFrame
      split
      · rfl
      · split
        · split <;> rfl
        · rfl

/-- The largest number of failures is kept, and the difference is what is marked. -/
theorem count_failures_eq (rep : Report) (n : Nat) :
    (rep.countFailures n).1.decodeFailures = max rep.decodeFailures n ∧
      (rep.countFailures n).2 = max rep.decodeFailures n - rep.decodeFailures := by
  by_cases hnew : n > rep.decodeFailures
  · simp only [countFailures, hnew, if_true]
    omega
  · simp only [countFailures, hnew, if_false]
    omega

end Report

namespace Replay

theorem final_report_decode_failures (r : Replay) :
    r.finalReport.decodeFailures = r.report.decodeFailures := by
  have hfold : ∀ (conns : List ConnState) (rep : Report),
      (conns.foldl countConn rep).decodeFailures = rep.decodeFailures := by
    intro conns
    induction conns with
    | nil => exact fun _ => rfl
    | cons cs conns ih => exact fun rep => ih _
  exact hfold _ _

/-- The failures of all directions of all connections. -/
def allErrors (r : Replay) : Nat := r.conns.total ConnState.decodeErrors

/-- Every header block that failed is counted, and marked where it was lost. -/
structure FailuresVisible (r : Replay) : Prop where
  counted : r.finalReport.decodeFailures = r.allErrors
  marked : ∀ k cs, r.conns.lookup k = some cs → ∀ isC2s,
    (cs.dir isC2s).markers = (cs.dir isC2s).dir.decodeErrors

/-- What the report holds in every state: at least the failures of every direction, at most the
failures of all of them, and these only if all are marked. -/
structure FailuresBounded (r : Replay) : Prop where
  each_le : ∀ k cs, r.conns.lookup k = some cs → ∀ isC2s,
    (cs.dir isC2s).dir.decodeErrors ≤ r.report.decodeFailures
  le_all : r.report.decodeFailures ≤ r.allErrors
  marked : r.report.decodeFailures = r.allErrors → ∀ k cs, r.conns.lookup k = some cs → ∀ isC2s,
    (cs.dir isC2s).markers = (cs.dir isC2s).dir.decodeErrors

/-- In such a state only the count matters. -/
theorem FailuresBounded.visible_iff {r : Replay} (h : r.FailuresBounded) :
    r.FailuresVisible ↔ r.report.decodeFailures = r.allErrors :=
  ⟨fun hvisible => (final_report_decode_failures r).symm.trans hvisible.counted,
    fun hcount => ⟨(final_report_decode_failures r).trans hcount, h.marked hcount⟩⟩

variable [HuffmanDecoding] (seeds : Table (String × String) Seed)

/-- A bare SYN does not remove a connection of which a block failed. -/
def KeepsFailures (r : Replay) (packet : Packet) : Prop :=
  ∀ seg, Pkt.parseEthernet packet.2 = some seg → seg.freshSyn = true →
    ∀ cs, r.conns.lookup (keyOf seg.src seg.dst) = some cs → cs.decodeErrors = 0

/-- The failures of the direction of a segment before its turn. -/
def errorsBefore (r : Replay) (seg : EthSegment) (ts : Nat) : Nat :=
  ((r.found seg ts).dir (r.sentByClient seg ts)).dir.decodeErrors

/-- If the packet makes a block fail, then all blocks that failed so far are of its direction. -/
def FailsAlone (r : Replay) (packet : Packet) : Prop :=
  ∀ seg, Pkt.parseEthernet packet.2 = some seg → seg.payload.isEmpty = false →
    r.errorsBefore seg packet.1 < (r.fed seeds seg packet.1).1.decodeErrors →
    r.allErrors = r.errorsBefore seg packet.1

/-! ## One packet -/

/-- What a packet does to the counts of its connection `k`, which was `before`, and to the report:
its direction then has `n` failures, and the markers for those that were not reported yet. -/
structure FailureTurn (r r' : Replay) (k : Key) (before : ConnState) (isC2s : Bool) (n : Nat)
    (cs : ConnState) : Prop where
  conns : r'.conns = r.conns.insert k cs
  before_le : (before.dir isC2s).dir.decodeErrors ≤ n
  errors : (cs.dir isC2s).dir.decodeErrors = n
  errors_other : (cs.dir (!isC2s)).dir.decodeErrors = (before.dir (!isC2s)).dir.decodeErrors
  reported : r'.report.decodeFailures = max r.report.decodeFailures n
  markers : (cs.dir isC2s).markers =
    (before.dir isC2s).markers + (r'.report.decodeFailures - r.report.decodeFailures)
  markers_other : (cs.dir (!isC2s)).markers = (before.dir (!isC2s)).markers

/-- The failures of the direction of a segment after its turn. -/
def errorsAfter (r : Replay) (seg : EthSegment) (ts : Nat) : Nat :=
  if seg.payload.isEmpty then r.errorsBefore seg ts else (r.fed seeds seg ts).1.decodeErrors

/-- Every segment does so. -/
theorem failure_turn (r : Replay) (seg : EthSegment) (ts : Nat)
    (hle : r.errorsBefore seg ts ≤ r.report.decodeFailures) :
    ∃ cs, FailureTurn r (r.onSegment seeds seg ts).1 (keyOf seg.src seg.dst) (r.found seg ts)
      (r.sentByClient seg ts) (r.errorsAfter seeds seg ts) cs := by
  have hdir : (r.touched seeds seg ts).dir (r.sentByClient seg ts) =
      (r.found seg ts).touchedDir (r.sentByClient seg ts)
        (seeds.lookup (seg.src.text, seg.dst.text)) seg := ConnState.touch_dir _ _ _ _ _
  have hother : (r.touched seeds seg ts).dir (!r.sentByClient seg ts) =
      (r.found seg ts).dir (!r.sentByClient seg ts) := ConnState.touch_dir_not _ _ _ _ _
  have hbefore : ((r.touched seeds seg ts).dir (r.sentByClient seg ts)).dir.decodeErrors =
      r.errorsBefore seg ts := by
    rw [hdir, ConnState.touched_dir_decode_errors, errorsBefore]
  have hmarkers : ((r.touched seeds seg ts).dir (r.sentByClient seg ts)).markers =
      ((r.found seg ts).dir (r.sentByClient seg ts)).markers := by
    rw [hdir, DirState.markers, ConnState.touched_dir_out, DirState.markers]
  cases hpayload : seg.payload.isEmpty with
  | true =>
      simp only [errorsAfter, hpayload, if_true]
      rw [on_segment_of_empty seeds hpayload]
      refine ⟨r.touched seeds seg ts, rfl, le_refl _, hbefore, by rw [hother],
        (max_eq_left hle).symm, ?_, by rw [hother]⟩
      rw [hmarkers]
      simp [touchedReport]
  | false =>
      simp only [errorsAfter, hpayload, Bool.false_eq_true, if_false]
      rw [on_segment_of_payload seeds hpayload]
      have hfailures := Report.count_failures_eq
        ((r.fed seeds seg ts).2.foldl Report.countFrame (r.touchedReport seeds seg ts))
        (r.fed seeds seg ts).1.decodeErrors
      rw [Report.count_frames_decode_failures] at hfailures
      have hreported : (r.failures seeds seg ts).1.decodeFailures =
          max r.report.decodeFailures (r.fed seeds seg ts).1.decodeErrors := hfailures.1
      have hmissing : (r.failures seeds seg ts).2 =
          max r.report.decodeFailures (r.fed seeds seg ts).1.decodeErrors -
            r.report.decodeFailures := hfailures.2
      have hwritten : (r.writes seeds seg ts).countP (fun item => item = .failed) =
          (r.failures seeds seg ts).2 := by
        rw [writes, List.countP_append, List.countP_eq_zero.mpr, List.countP_replicate]
        · simp
        · intro item hitem
          obtain ⟨f, -, hf⟩ := List.mem_filterMap.mp hitem
          simpa using fun heq : item = .failed => normalize_ne_failed f (heq ▸ hf)
      refine ⟨r.absorbed seeds seg ts, rfl, ?_, ?_, ?_, hreported, ?_, ?_⟩
      · show r.errorsBefore seg ts ≤ _
        rw [← hbefore]
        exact Direction.decode_errors_feed _ _ _ _
      · rw [absorbed, ConnState.absorb_dir]
      · rw [absorbed, ConnState.absorb_dir_not, Direction.decode_errors_peer_capacities, hother]
      · rw [absorbed, ConnState.absorb_dir, ← hmarkers]
        simp only [DirState.markers, List.countP_append, List.countP_map,
          Function.comp_def, hwritten,
          hreported, hmissing]
      · rw [absorbed, ConnState.absorb_dir_not, hother]
        rfl

/-! ## Every packet -/

/-- The failures of the other connections. -/
def otherErrors (r : Replay) (k : Key) : Nat := Table.total ConnState.decodeErrors (r.conns.erase k)

omit [HuffmanDecoding] in
theorem all_errors_eq (r : Replay) (k : Key) :
    r.allErrors = (r.conns.lookup k).elim 0 ConnState.decodeErrors + r.otherErrors k :=
  Table.total_eq_lookup_add _ _ _

omit [HuffmanDecoding] in
/-- A segment that removes no failures finds those of its connection. -/
theorem all_errors_found {r : Replay} {seg : EthSegment} (ts : Nat)
    (hkeeps : seg.freshSyn = true → ∀ cs, r.conns.lookup (keyOf seg.src seg.dst) = some cs →
      cs.decodeErrors = 0) :
    r.allErrors = (r.found seg ts).decodeErrors + r.otherErrors (keyOf seg.src seg.dst) := by
  rw [all_errors_eq r (keyOf seg.src seg.dst)]
  rcases found_cases r seg ts with ⟨hopened, hnew⟩ | ⟨-, hlookup⟩
  · have hzero : (r.found seg ts).decodeErrors = 0 := by
      rw [hopened, ConnState.decode_errors_eq _ true]
      simp only [ConnState.opened_dir]
    rw [hzero]
    rcases hnew with hsyn | hnone
    · cases hlookup : r.conns.lookup (keyOf seg.src seg.dst) with
      | none => rfl
      | some cs => simpa using hkeeps hsyn cs hlookup
    · rw [hnone]
      rfl
  · rw [hlookup]
    rfl

omit [HuffmanDecoding] in
/-- The failures after a turn. -/
theorem FailureTurn.all_errors {r r' : Replay} {k : Key} {before cs : ConnState} {isC2s : Bool}
    {n : Nat} (h : FailureTurn r r' k before isC2s n cs) :
    r'.allErrors = n + (before.dir (!isC2s)).dir.decodeErrors + r.otherErrors k := by
  rw [allErrors, h.conns, Table.total_insert, ConnState.decode_errors_eq cs isC2s, h.errors,
    h.errors_other, otherErrors]

omit [HuffmanDecoding] in
/-- A connection of the table after a turn is the one of the turn or was there before. -/
theorem FailureTurn.lookup_cases {r r' : Replay} {k k' : Key} {before cs cs' : ConnState}
    {isC2s : Bool} {n : Nat} (h : FailureTurn r r' k before isC2s n cs)
    (hlookup : r'.conns.lookup k' = some cs') : cs' = cs ∨ r.conns.lookup k' = some cs' := by
  rw [h.conns] at hlookup
  by_cases hk : k' = k
  · rw [hk, AList.lookup_insert] at hlookup
    exact Or.inl (Option.some.inj hlookup).symm
  · rw [AList.lookup_insert_ne hk] at hlookup
    exact Or.inr hlookup

/-- A turn that removes no failures keeps the bounds of the report, and the count stays right
exactly if a block fails among failures of its own direction only. -/
theorem bounded_on_segment {r : Replay} (h : r.FailuresBounded) (seg : EthSegment) (ts : Nat)
    (hkeeps : seg.freshSyn = true → ∀ cs, r.conns.lookup (keyOf seg.src seg.dst) = some cs →
      cs.decodeErrors = 0) :
    (r.onSegment seeds seg ts).1.FailuresBounded ∧
      ((r.onSegment seeds seg ts).1.report.decodeFailures =
          (r.onSegment seeds seg ts).1.allErrors ↔
        r.report.decodeFailures = r.allErrors ∧
          (r.errorsBefore seg ts < r.errorsAfter seeds seg ts →
            r.allErrors = r.errorsBefore seg ts)) := by
  have hle : r.errorsBefore seg ts ≤ r.report.decodeFailures :=
    found_rule (Q := fun ds => ds.dir.decodeErrors ≤ r.report.decodeFailures) h.each_le seg ts
      (fun isC2s => by simp only [ConnState.opened_dir, Nat.zero_le]) _
  have hother : ((r.found seg ts).dir (!r.sentByClient seg ts)).dir.decodeErrors ≤
      r.report.decodeFailures :=
    found_rule (Q := fun ds => ds.dir.decodeErrors ≤ r.report.decodeFailures) h.each_le seg ts
      (fun isC2s => by simp only [ConnState.opened_dir, Nat.zero_le]) _
  obtain ⟨cs, hturn⟩ := failure_turn seeds r seg ts hle
  have hafter := hturn.all_errors
  have hall := all_errors_found ts hkeeps
  rw [ConnState.decode_errors_eq _ (r.sentByClient seg ts)] at hall
  have hgrows : r.errorsBefore seg ts ≤ r.errorsAfter seeds seg ts := hturn.before_le
  have hreported := hturn.reported
  have hbounded := h.le_all
  rw [← errorsBefore] at hall
  refine ⟨⟨?_, ?_, ?_⟩, ?_⟩
  · intro k' cs' hlookup isC2s
    rcases hturn.lookup_cases hlookup with rfl | hold
    · have herrors := hturn.errors
      have herrors_other := hturn.errors_other
      rcases Bool.eq_or_eq_not isC2s (r.sentByClient seg ts) with rfl | rfl <;> omega
    · have := h.each_le _ _ hold isC2s
      omega
  · omega
  · intro hcount k' cs' hlookup isC2s
    have hmarked := h.marked (by omega)
    rcases hturn.lookup_cases hlookup with rfl | hold
    · have hfound := found_rule (Q := fun ds => ds.markers = ds.dir.decodeErrors) hmarked seg ts
        (fun isC2s => by simp only [ConnState.opened_dir, DirState.markers, List.countP_nil])
      have hdir := hfound (r.sentByClient seg ts)
      have hdir' := hfound (!r.sentByClient seg ts)
      have hmarkers := hturn.markers
      have hmarkers_other := hturn.markers_other
      have herrors := hturn.errors
      have herrors_other := hturn.errors_other
      rw [← errorsBefore] at hdir
      rcases Bool.eq_or_eq_not isC2s (r.sentByClient seg ts) with rfl | rfl <;> omega
    · exact hmarked _ _ hold isC2s
  · omega

omit [HuffmanDecoding] in
/-- Visible failures are bounded. -/
theorem FailuresVisible.bounded {r : Replay} (h : r.FailuresVisible) : r.FailuresBounded := by
  have hcount : r.report.decodeFailures = r.allErrors :=
    (final_report_decode_failures r).symm.trans h.counted
  refine ⟨fun k cs hlookup isC2s => ?_, hcount.le, fun _ => h.marked⟩
  have hall := all_errors_eq r k
  rw [hlookup, Option.elim_some, ConnState.decode_errors_eq cs isC2s] at hall
  omega

/-- A packet that removes no failures keeps the bounds of the report. The failures are visible
afterwards exactly if they were and if it makes no block fail next to failures of others. -/
theorem bounded_step {r : Replay} (h : r.FailuresBounded) {packet : Packet}
    (hkeeps : r.KeepsFailures packet) :
    (r.step seeds packet).1.FailuresBounded ∧
      ((r.step seeds packet).1.FailuresVisible ↔ r.FailuresVisible ∧
      r.FailsAlone seeds packet) := by
  have hbounded : r.countPacket.FailuresBounded := ⟨h.each_le, h.le_all, h.marked⟩
  have hvisible : r.countPacket.FailuresVisible ↔ r.FailuresVisible :=
    hbounded.visible_iff.trans h.visible_iff.symm
  rw [← hvisible]
  cases hseg : Pkt.parseEthernet packet.2 with
  | none =>
      rw [step_of_none seeds hseg]
      have halone : r.FailsAlone seeds packet := fun seg hseg' => by simp [hseg] at hseg'
      exact ⟨hbounded, (and_iff_left halone).symm⟩
  | some seg =>
      rw [step_of_segment seeds hseg]
      have hturn := bounded_on_segment seeds hbounded seg packet.1 (hkeeps seg hseg)
      have halone : r.FailsAlone seeds packet ↔
          (r.countPacket.errorsBefore seg packet.1 < r.countPacket.errorsAfter seeds seg packet.1 →
            r.countPacket.allErrors = r.countPacket.errorsBefore seg packet.1) := by
        cases hpayload : seg.payload.isEmpty with
        | true =>
            refine iff_of_true (fun seg' hseg' hpayload' => ?_) fun hlt => ?_
            · rw [hseg] at hseg'
              cases hseg'
              rw [hpayload] at hpayload'
              cases hpayload'
            · simp [errorsAfter, hpayload] at hlt
        | false =>
            simp only [FailsAlone, errorsAfter, hseg, hpayload, Option.some.injEq,
              forall_eq', Bool.false_eq_true, if_false, forall_const]
            rfl
      rw [halone, hturn.1.visible_iff, hbounded.visible_iff]
      exact hturn

/-- A bare SYN that removes failures hides them. -/
theorem keeps_failures_of_visible {r : Replay} (h : r.FailuresVisible) {packet : Packet}
    (hafter : (r.step seeds packet).1.FailuresVisible) : r.KeepsFailures packet := by
  intro seg hseg hsyn cs hlookup
  rw [step_of_segment seeds hseg] at hafter
  have hopened : r.countPacket.found seg packet.1 = ConnState.opened seg packet.1 := by
    simp [found, hsyn]
  have hzero : ∀ isC2s, ((r.countPacket.found seg packet.1).dir isC2s).dir.decodeErrors = 0 :=
    fun isC2s => by
    rw [hopened]
    exact (ConnState.opened_dir seg packet.1 isC2s).1
  have hnone : ∀ isC2s, ((r.countPacket.found seg packet.1).dir isC2s).markers = 0 :=
    fun isC2s => by
    rw [hopened, DirState.markers, (ConnState.opened_dir seg packet.1 isC2s).2]
    rfl
  have hbefore : r.countPacket.errorsBefore seg packet.1 = 0 := hzero _
  obtain ⟨cs', hturn⟩ := failure_turn seeds r.countPacket seg packet.1 (hbefore ▸ Nat.zero_le _)
  have hlookup' :
      (r.countPacket.onSegment seeds seg packet.1).1.conns.lookup (keyOf seg.src seg.dst) =
      some cs' := by rw [hturn.conns, AList.lookup_insert]
  have hmarked := hafter.marked _ _ hlookup' (r.countPacket.sentByClient seg packet.1)
  have hmarkers := hturn.markers
  have herrors := hturn.errors
  rw [hnone] at hmarkers
  -- the markers were all written in this turn, so the report grew by as much as there are errors
  have hcount := (final_report_decode_failures _).symm.trans hafter.counted
  have hcount' : r.countPacket.report.decodeFailures = r.allErrors :=
    (final_report_decode_failures r).symm.trans h.counted
  have hall := hturn.all_errors
  rw [hzero] at hall
  have hsplit := all_errors_eq r (keyOf seg.src seg.dst)
  rw [hlookup] at hsplit
  simp only [Option.elim_some] at hsplit
  have hreported := hturn.reported
  have hothers : r.countPacket.otherErrors (keyOf seg.src seg.dst) =
    r.otherErrors (keyOf seg.src seg.dst) := rfl
  omega

/-- All failures are visible after every packet exactly if none is removed by a bare SYN and each
comes when all earlier ones were of its own direction. If none is removed, then the end of the
replay tells. -/
theorem failures_visible_iff (packets : List Packet) :
    (Always (step seeds) FailuresVisible start packets ↔
      Guarded (step seeds) (fun r packet => r.KeepsFailures packet ∧
      r.FailsAlone seeds packet) start
        packets) ∧
    (Guarded (step seeds) KeepsFailures start packets ∧
        (run (step seeds) start packets).1.FailuresVisible ↔
      Guarded (step seeds) (fun r packet => r.KeepsFailures packet ∧
      r.FailsAlone seeds packet) start
        packets) := by
  have hbounded : start.FailuresBounded :=
    ⟨fun k cs hlookup => by simp [start] at hlookup, le_refl _,
      fun _ k cs hlookup => by simp [start] at hlookup⟩
  have hstart : start.FailuresVisible := hbounded.visible_iff.mpr rfl
  constructor
  · refine always_iff_guarded (J := fun _ => True) (C := fun _ => True)
      (fun _ _ _ _ _ => trivial) ?_
      trivial hstart fun _ _ => trivial
    rintro r packet - hvisible -
    constructor
    · intro hafter
      have hkeeps := keeps_failures_of_visible seeds hvisible hafter
      exact ⟨hkeeps, ((bounded_step seeds hvisible.bounded hkeeps).2.mp hafter).2⟩
    · rintro ⟨hkeeps, halone⟩
      exact (bounded_step seeds hvisible.bounded hkeeps).2.mpr ⟨hvisible, halone⟩
  · have hend (hkeeps : Guarded (step seeds) KeepsFailures start packets) :
        (run (step seeds) start packets).1.FailuresVisible ↔
          Guarded (step seeds) (FailsAlone seeds) start packets := by
      refine end_iff_guarded (J := FailuresBounded) (fun r packet h hkeeps => ?_)
        (fun r packet h hvisible hkeeps => ?_) (fun r packet h hhidden hkeeps => ?_) hbounded hkeeps
        hstart
      · exact (bounded_step seeds h hkeeps).1
      · rw [(bounded_step seeds h hkeeps).2, and_iff_right hvisible]
      · exact fun hafter => hhidden ((bounded_step seeds h hkeeps).2.mp hafter).1
    constructor
    · rintro ⟨hkeeps, hfinal⟩
      exact hkeeps.and ((hend hkeeps).mp hfinal)
    · intro hguard
      have hkeeps := hguard.imp fun _ _ h => h.1
      exact ⟨hkeeps, (hend hkeeps).mpr (hguard.imp fun _ _ h => h.2)⟩

end Replay

/-- A frame with a header block that no decoder accepts: the index 0. -/
def undecodableFrame : Bytes := buildFrame FrameType.headers Flags.endHeaders 1 [0x80]

/-- A connection of which the client and the server send such a frame each. -/
def failingPackets : List Packet :=
  [(1000, Pkt.buildTcpPacket Pkt.clientEndpoint 100 0 TcpFlags.syn 65535 0 []),
    (1001, Pkt.buildTcpPacket Pkt.clientEndpoint 101 0 TcpFlags.ack 65535 1
      (preface ++ undecodableFrame)),
    (1002, Pkt.buildTcpPacket Pkt.clientEndpoint.reversed 500 0 TcpFlags.ack 65535 0
      undecodableFrame)]

/-- Two directions fail once each: one failure is reported, and one marker is written. -/
theorem second_failure_hidden :
    let _ := noHuffman.toHuffmanDecoding
    ¬ (run (Replay.step ∅) Replay.start failingPackets).1.FailuresVisible := by
  intro _ h
  have hcount := h.counted
  revert hcount
  decide +kernel

end H2Tap
