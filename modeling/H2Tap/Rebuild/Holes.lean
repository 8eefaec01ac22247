import H2Tap.Conn.ParseLoop
import H2Tap.Rebuild.Turns

/-!
# Holes in a replayed capture

The replay never lets a held segment time out, and the report counts nothing that a hole leaves
behind. So a hole shows only if something else was lost. `holes_visible` says which packets open a
hole: those that start after the next byte that their direction expects.
-/

namespace H2Tap

open Lib

namespace Reassembler

/-- Nothing is held behind a hole, and no gap was declared. -/
def Whole (r : Reassembler) : Prop := r.ooo = [] ∧ r.gaps = 0

instance (r : Reassembler) : Decidable r.Whole := inferInstanceAs (Decidable (_ ∧ _))

theorem whole_congr {r r' : Reassembler} (h : r'.outside = r.outside) : r'.Whole ↔ r.Whole := by
  obtain ⟨-, -, hooo, -, -, -, -, -, -, hgaps, -, -⟩ := reads_of_outside_eq h
  rw [Whole, Whole, hooo, hgaps]

theorem whole_start (r : Reassembler) (seq : Seq) : (r.start seq).Whole ↔ r.Whole := by
  unfold start
  split <;> exact Iff.rfl

theorem whole_note_syn (r : Reassembler) (seq : Seq) : (r.noteSyn seq).Whole ↔ r.Whole := by
  unfold noteSyn
  split <;> exact Iff.rfl

theorem gaps_drain_ooo (r : Reassembler) : r.drainOoo.gaps = r.gaps := by
  induction r using drainOoo.induct with
  | case1 r segment hfind ih =>
      rw [drain_ooo_of_due hfind, ih]
      unfold appendTail
      split <;> rfl
  | case2 r hfind hempty => rw [drain_ooo_of_none hfind, if_pos hempty]
  | case3 r hfind hempty => rw [drain_ooo_of_none hfind, if_neg hempty]

/-- A segment with data opens a hole exactly if it starts after the next expected byte. -/
theorem push_whole_iff {r : Reassembler} (h : r.Whole) (seq : Seq) {data : Bytes}
    (hdata : data.isEmpty = false) (nowUs : Nat) :
    (r.push seq data nowUs).1.Whole ↔ seqDelta seq (r.start seq).nextSeq ≤ 0 := by
  have hstart := (whole_start r seq).mpr h
  simp only [push, hdata, Bool.false_eq_true, if_false, pushData]
  by_cases hdue : seqDelta seq (r.start seq).nextSeq ≤ 0
  · simp only [hdue, if_true, iff_true]
    split
    · exact hstart
    · have hempty : ((r.start seq).append
          (data.drop ((r.start seq).overlap seq))).ooo = [] := hstart.1
      rw [drain_ooo_of_none (by rw [hempty]; rfl), if_pos (by rw [hempty]; rfl)]
      exact ⟨hempty, hstart.2⟩
  · simp only [hdue, if_false, iff_false]
    split
    · rintro ⟨-, hgaps⟩
      rw [forceGap, gaps_drain_ooo] at hgaps
      cases hgaps
    · rintro ⟨hooo, -⟩
      simp [hold] at hooo

end Reassembler

/-- The reassembler after a feed is the one after the push, but for the buffer. -/
theorem Direction.whole_feed [HuffmanDecoding] (d : Direction) (seq : Seq) (data : Bytes)
    (nowUs : Nat) : (d.feed seq data nowUs).1.reasm.Whole ↔
      (d.reasm.push seq data nowUs).1.Whole := by
  rw [Direction.feed, Reassembler.whole_congr (Direction.outside_parse _)]
  unfold Direction.withReassembled
  split <;> exact Iff.rfl

namespace Report

/-- One of the loss indicators is not zero. -/
def ShowsLoss (rep : Report) : Prop :=
  0 < rep.decodeFailures ∨ 0 < rep.framesDropped ∨ 0 < rep.connsMisaligned ∨
    0 < rep.preSnapshotBytes ∨ 0 < rep.blocksPartial ∨ 0 < rep.unresolvedRefs

/-- The indicators that are counted packet by packet show a loss. -/
def LossCounted (rep : Report) : Prop :=
  0 < rep.decodeFailures ∨ 0 < rep.framesDropped ∨ 0 < rep.blocksPartial ∨ 0 < rep.unresolvedRefs

instance (rep : Report) : Decidable rep.ShowsLoss := inferInstanceAs (Decidable (_ ∨ _))

instance (rep : Report) : Decidable rep.LossCounted := inferInstanceAs (Decidable (_ ∨ _))

/-- The indicators of `rep'` are not less than those of `rep`. -/
structure CountsOn (rep rep' : Report) : Prop where
  decodeFailures : rep.decodeFailures ≤ rep'.decodeFailures
  framesDropped : rep.framesDropped ≤ rep'.framesDropped
  blocksPartial : rep.blocksPartial ≤ rep'.blocksPartial
  unresolvedRefs : rep.unresolvedRefs ≤ rep'.unresolvedRefs

theorem counts_on_refl (rep : Report) : rep.CountsOn rep :=
  ⟨le_refl _, le_refl _, le_refl _, le_refl _⟩

theorem CountsOn.trans {rep rep' rep'' : Report} (h : rep.CountsOn rep')
    (h' : rep'.CountsOn rep'') : rep.CountsOn rep'' :=
  ⟨h.decodeFailures.trans h'.decodeFailures, h.framesDropped.trans h'.framesDropped,
    h.blocksPartial.trans h'.blocksPartial, h.unresolvedRefs.trans h'.unresolvedRefs⟩

/-- A counted loss is not forgotten. -/
theorem CountsOn.loss_counted {rep rep' : Report} (h : rep.CountsOn rep')
    (hloss : rep.LossCounted) : rep'.LossCounted := by
  obtain ⟨hdecode, hframes, hblocks, hrefs⟩ := h
  unfold LossCounted at hloss ⊢
  omega

theorem counts_on_frames (frames : List ProcessedFrame) (rep : Report) :
    rep.CountsOn (frames.foldl countFrame rep) := by
  induction frames generalizing rep with
  | nil => exact counts_on_refl rep
  | cons f frames ih =>
      refine CountsOn.trans ?_ (ih _)
      unfold countFrame
      split
      · exact ⟨le_refl _, Nat.le_succ _, le_refl _, le_refl _⟩
      · split
        · split
          · exact counts_on_refl rep
          · exact ⟨le_refl _, le_refl _, Nat.le_add_right _ _, Nat.le_add_right _ _⟩
        · exact counts_on_refl rep

theorem counts_on_failures (rep : Report) (n : Nat) : rep.CountsOn (rep.countFailures n).1 := by
  unfold countFailures
  split
  · next hmore => exact ⟨hmore.le, le_refl _, le_refl _, le_refl _⟩
  · exact counts_on_refl rep

end Report

namespace Replay

/-- No direction of a connection has a hole. -/
def Whole (r : Replay) : Prop :=
  ∀ k cs, r.conns.lookup k = some cs → ∀ isC2s, (cs.dir isC2s).dir.reasm.Whole

/-- A hole is not hidden: with one, the report shows a loss. -/
def HolesVisible (r : Replay) : Prop := ¬ r.Whole → r.finalReport.ShowsLoss

/-- What is counted packet by packet is not changed when the loop is over. -/
theorem counts_on_final_report (r : Replay) : r.report.CountsOn r.finalReport := by
  have hfold : ∀ (conns : List ConnState) (rep : Report), rep.CountsOn
    (conns.foldl countConn rep) := by
    intro conns
    induction conns with
    | nil => exact fun rep => Report.counts_on_refl rep
    | cons cs conns ih =>
        intro rep
        have hsame : rep.CountsOn (countConn rep cs) :=
          ⟨le_refl _, le_refl _, le_refl _, le_refl _⟩
        exact hsame.trans (ih _)
  exact hfold _ _

/-- So it shows in the end. -/
theorem shows_loss_of_counted (r : Replay) (hloss : r.report.LossCounted) :
    r.finalReport.ShowsLoss := by
  have hfinal := (counts_on_final_report r).loss_counted hloss
  unfold Report.LossCounted at hfinal
  unfold Report.ShowsLoss
  omega

variable [HuffmanDecoding] (seeds : Table (String × String) Seed)

/-- The payload of a segment does not start after the next byte that its direction expects. -/
def NotAheadOf (r : Replay) (seg : EthSegment) (ts : Nat) : Prop :=
  seg.payload.isEmpty = true ∨
    seqDelta seg.seq (((r.touched seeds seg ts).dir (r.sentByClient seg ts)).dir.reasm.start
      seg.seq).nextSeq ≤ 0

/-- The payload of a packet, if it has one, does not start after the next byte that its direction
expects. -/
def NotAhead (r : Replay) (packet : Packet) : Prop :=
  match Pkt.parseEthernet packet.2 with
  | none => True
  | some seg => r.NotAheadOf seeds seg packet.1

/-- A packet opens no hole, or something else was lost before it. -/
def OpensNoHole (r : Replay) (packet : Packet) : Prop :=
  r.NotAhead seeds packet ∨ r.report.LossCounted

omit [HuffmanDecoding] in
instance (r : Replay) (seg : EthSegment) (ts : Nat) : Decidable (r.NotAheadOf seeds seg ts) :=
  inferInstanceAs (Decidable (_ ∨ _))

omit [HuffmanDecoding] in
instance (r : Replay) (packet : Packet) : Decidable (r.NotAhead seeds packet) := by
  unfold NotAhead
  split <;> infer_instance

omit [HuffmanDecoding] in
instance (r : Replay) (packet : Packet) : Decidable (r.OpensNoHole seeds packet) :=
  inferInstanceAs (Decidable (_ ∨ _))

/-! ## One packet -/

omit [HuffmanDecoding] in
/-- The connection that a segment touches has no hole, if there is none anywhere. -/
theorem whole_touched {r : Replay} (h : r.Whole) (seg : EthSegment) (ts : Nat) (isC2s : Bool) :
    ((r.touched seeds seg ts).dir isC2s).dir.reasm.Whole := by
  have hfound : ∀ isC2s, ((r.found seg ts).dir isC2s).dir.reasm.Whole := by
    intro isC2s
    refine found_rule (Q := fun ds => ds.dir.reasm.Whole) h seg ts (fun isC2s => ?_) isC2s
    unfold ConnState.opened ConnState.dir
    cases isC2s <;> cases seg.freshSyn <;> exact ⟨rfl, rfl⟩
  rcases Bool.eq_or_eq_not isC2s (r.sentByClient seg ts) with rfl | rfl
  · rw [touched, ConnState.touch_dir]
    exact ConnState.touched_dir_rule (P := fun d => d.reasm.Whole) (hfound _)
      (fun _ _ _ => hfound _) (fun d seq hd => (Reassembler.whole_note_syn _ seq).mpr hd) _ seg
  · rw [touched, ConnState.touch_dir_not]
    exact hfound _

/-- A segment opens a hole exactly if it starts after the next expected byte. -/
theorem whole_on_segment {r : Replay} (h : r.Whole) (seg : EthSegment) (ts : Nat) :
    (r.onSegment seeds seg ts).1.Whole ↔ r.NotAheadOf seeds seg ts := by
  have htouched := whole_touched seeds h seg ts
  have hinsert : ∀ (cs : ConnState) (order : List Key) (report : Report),
      (⟨r.conns.insert (keyOf seg.src seg.dst) cs, order, report⟩ : Replay).Whole ↔
        ∀ isC2s, (cs.dir isC2s).dir.reasm.Whole := by
    intro cs order report
    constructor
    · exact fun hall isC2s => hall _ cs (AList.lookup_insert _) isC2s
    · exact fun hcs => Table.lookup_insert_rule hcs h
  cases hpayload : seg.payload.isEmpty with
  | true =>
      rw [on_segment_of_empty seeds hpayload, hinsert]
      exact iff_of_true htouched (Or.inl hpayload)
  | false =>
      rw [on_segment_of_payload seeds hpayload, hinsert]
      have hfed : (r.fed seeds seg ts).1.reasm.Whole ↔ r.NotAheadOf seeds seg ts := by
        rw [fed, Direction.whole_feed, Reassembler.push_whole_iff (htouched _) _ hpayload,
          NotAheadOf, hpayload]
        simp
      rw [← hfed]
      constructor
      · intro hall
        have hdir := hall (r.sentByClient seg ts)
        rwa [absorbed, ConnState.absorb_dir] at hdir
      · intro hwhole isC2s
        rcases Bool.eq_or_eq_not isC2s (r.sentByClient seg ts) with rfl | rfl
        · rw [absorbed, ConnState.absorb_dir]
          exact hwhole
        · rw [absorbed, ConnState.absorb_dir_not, Direction.reasm_peer_capacities]
          exact htouched _

/-- A packet opens a hole exactly if it starts after the next expected byte. -/
theorem whole_step {r : Replay} (h : r.Whole) (packet : Packet) :
    (r.step seeds packet).1.Whole ↔ r.NotAhead seeds packet := by
  unfold NotAhead
  cases hseg : Pkt.parseEthernet packet.2 with
  | none =>
      rw [step_of_none seeds hseg]
      exact iff_of_true h trivial
  | some seg =>
      rw [step_of_segment seeds hseg]
      exact whole_on_segment (r := r.countPacket) seeds h seg packet.1

/-- No packet takes back what was counted. -/
theorem counts_on_step (r : Replay) (packet : Packet) :
    r.report.CountsOn (r.step seeds packet).1.report := by
  have hsame : r.report.CountsOn r.countPacket.report :=
    ⟨le_refl _, le_refl _, le_refl _, le_refl _⟩
  have hsegment : ∀ (r : Replay) (seg : EthSegment) (ts : Nat),
      r.report.CountsOn (r.onSegment seeds seg ts).1.report := by
    intro r seg ts
    have htouched : r.report.CountsOn (r.touchedReport seeds seg ts) :=
      ⟨le_refl _, le_refl _, le_refl _, le_refl _⟩
    cases hpayload : seg.payload.isEmpty with
    | true =>
        rw [on_segment_of_empty seeds hpayload]
        exact htouched
    | false =>
        rw [on_segment_of_payload seeds hpayload]
        exact htouched.trans
          ((Report.counts_on_frames _ _).trans (Report.counts_on_failures _ _))
  cases hseg : Pkt.parseEthernet packet.2 with
  | none =>
      rw [step_of_none seeds hseg]
      exact hsame
  | some seg =>
      rw [step_of_segment seeds hseg]
      exact hsame.trans (hsegment r.countPacket seg packet.1)

/-! ## Every packet -/

/-- If no packet starts after the next byte that its direction expects, unless a loss was counted
before it, then no hole is ever hidden. And while the report shows no loss at all, no hole is hidden
exactly if no packet starts after the next expected byte. -/
theorem holes_visible (packets : List Packet) :
    (Guarded (step seeds) (OpensNoHole seeds) start packets →
      Always (step seeds) HolesVisible start packets) ∧
    (Always (step seeds) (fun r => ¬ r.finalReport.ShowsLoss) start packets →
      (Always (step seeds) HolesVisible start packets ↔
        Guarded (step seeds) (NotAhead seeds) start packets)) := by
  have hstart : start.Whole := fun k cs hlookup => by simp [start] at hlookup
  constructor
  · intro hguard
    have hall := hguard.always (P := fun r => r.Whole ∨ r.report.LossCounted)
      (fun r packet h hopens => by
        rcases h with hwhole | hloss
        · rcases hopens with hahead | hloss
          · exact Or.inl ((whole_step seeds hwhole packet).mpr hahead)
          · exact Or.inr ((counts_on_step seeds r packet).loss_counted hloss)
        · exact Or.inr ((counts_on_step seeds r packet).loss_counted hloss)) (Or.inl hstart)
    refine hall.imp fun r h hhole => ?_
    exact shows_loss_of_counted r (h.resolve_left hhole)
  · intro hlossless
    have hwhole : Always (step seeds) Whole start packets ↔
        Guarded (step seeds) (NotAhead seeds) start packets :=
      always_iff_guarded (J := fun _ => True) (C := fun _ => True) (fun _ _ _ _ _ => trivial)
        (fun r packet _ h _ => whole_step seeds h packet) trivial hstart fun _ _ => trivial
    rw [← hwhole]
    constructor
    · intro hvisible
      refine (hlossless.and hvisible).imp ?_
      rintro r ⟨hnone, hvisible⟩
      by_contra hhole
      exact hnone (hvisible hhole)
    · exact fun h => h.imp fun r hwhole hhole => absurd hwhole hhole

end Replay

end H2Tap
