import H2Tap.Conn.Arrival
import H2Tap.Conn.Seek
import H2Tap.Hpack.Table
import H2Tap.Lib.Run

/-!
# A seeded table is used at its target or not at all

A direction that was seeded from a snapshot drops bytes until its target. Segments may come in any
order, gaps may be declared and sequence numbers wrap. `seeded_table_at_target` says that no frame
is returned before the target, and that a direction which moves past its target has forgotten the
seeded table before it returns a frame.
-/

namespace H2Tap

open Lib

/-! ## Where the reassembler stands -/

/-- The distance to an offset, when it is less than half of the number space. -/
theorem seq_delta_offset (target base : Seq) {n : Nat}
    (hnear : -2 ^ 31 ≤ seqDelta target base - n) :
    seqDelta target (base + BitVec.ofNat 32 n) = seqDelta target base - n := by
  have hsub : target - (base + BitVec.ofNat 32 n) = target - base - BitVec.ofNat 32 n := by
    generalize BitVec.ofNat 32 n = x
    bv_omega
  have hlt : seqDelta target base < 2 ^ 31 := by
    have := BitVec.toInt_lt (x := target - base)
    simpa [seqDelta] using this
  rw [seqDelta, hsub, BitVec.toInt_sub, BitVec.toInt_ofNat', Int.sub_bmod_bmod]
  exact Int.bmod_eq_of_le_mul_two (by unfold seqDelta at hnear; omega)
    (by unfold seqDelta at hlt; omega)

namespace Reassembler

/-- The reassembler has been given bytes of the stream that starts at `base`. -/
structure Placed (base : Seq) (r : Reassembler) : Prop where
  initialized : r.initialized = true
  baseSeq : r.baseSeq = base
  nextSeq : r.nextSeq = base + BitVec.ofNat 32 r.deliveredOff
  received : r.bufOff + r.available.length = r.deliveredOff

/-- Everything held comes after the next expected byte. -/
def HoldsAhead (r : Reassembler) : Prop := ∀ segment ∈ r.ooo, r.due segment = false

variable {base : Seq} {r : Reassembler}

theorem Placed.consume (h : r.Placed base) (n : Nat) : (r.consume n).Placed base := by
  obtain ⟨hnext, hbase, -, -, -, -, -, hinit, hdelivered, -⟩ :=
    reads_of_outside_eq (outside_consume r n)
  have hreceived := h.received
  refine ⟨hinit.trans h.initialized, hbase.trans h.baseSeq, ?_, ?_⟩
  · rw [hnext, h.nextSeq, hdelivered]
  · rw [bufOff_consume, available_consume, List.length_drop, hdelivered]
    omega

theorem HoldsAhead.consume (h : r.HoldsAhead) (n : Nat) : (r.consume n).HoldsAhead := by
  obtain ⟨hnext, -, hooo, -⟩ := reads_of_outside_eq (outside_consume r n)
  intro segment hsegment
  rw [hooo] at hsegment
  simpa only [due, hnext] using h segment hsegment

theorem Placed.append (h : r.Placed base) (data : Bytes) : (r.append data).Placed base where
  initialized := h.initialized
  baseSeq := h.baseSeq
  nextSeq := by
    show r.nextSeq + BitVec.ofNat 32 data.length =
      base + BitVec.ofNat 32 (r.deliveredOff + data.length)
    rw [h.nextSeq, BitVec.ofNat_add, BitVec.add_assoc]
  received := by
    have hreceived := h.received
    show r.bufOff + (r.append data).available.length = r.deliveredOff + data.length
    rw [available_append, List.length_append]
    omega

/-- Releasing held segments delivers bytes and leaves nothing due. -/
theorem Placed.drain_ooo (h : r.Placed base) :
    r.drainOoo.Placed base ∧ r.drainOoo.HoldsAhead ∧ r.drainOoo.bufOff = r.bufOff := by
  induction r using drainOoo.induct with
  | case1 r segment hfind ih =>
      rw [drain_ooo_of_due hfind]
      have hreleased : (r.release segment).Placed base :=
        ⟨h.initialized, h.baseSeq, h.nextSeq, h.received⟩
      have htail : ((r.release segment).appendTail segment).Placed base ∧
          ((r.release segment).appendTail segment).bufOff = r.bufOff := by
        unfold appendTail
        split
        · exact ⟨hreleased.append _, rfl⟩
        · exact ⟨hreleased, rfl⟩
      obtain ⟨hplaced, hahead, hbufOff⟩ := ih htail.1
      exact ⟨hplaced, hahead, hbufOff.trans htail.2⟩
  | case2 r hfind hempty =>
      rw [drain_ooo_of_none hfind, if_pos hempty]
      refine ⟨⟨h.initialized, h.baseSeq, h.nextSeq, h.received⟩, ?_, rfl⟩
      intro segment hsegment
      rw [List.isEmpty_iff.mp hempty] at hsegment
      cases hsegment
  | case3 r hfind hempty =>
      rw [drain_ooo_of_none hfind, if_neg hempty]
      exact ⟨h, by simpa [HoldsAhead] using hfind, rfl⟩

/-- What reassembly does to the place: it moves on only over a hole that was given up, and by less
than half of the number space. -/
structure Reached (base : Seq) (r : Reassembler) (pushed : Reassembler × Bool) : Prop where
  placed : pushed.1.Placed base
  ahead : pushed.1.HoldsAhead
  bufOff_le : r.bufOff ≤ pushed.1.bufOff
  bufOff_lt : pushed.1.bufOff < r.deliveredOff + 2 ^ 31
  no_gap : pushed.2 = false → pushed.1.bufOff = r.bufOff

theorem Placed.force_gap (h : r.Placed base) (hahead : r.HoldsAhead) :
    Reached base r (r.forceGap, true) := by
  have hjump : (r.gapTarget - r.nextSeq).toNat < 2 ^ 31 := by
    unfold gapTarget
    cases hmin : (r.ooo.map Prod.fst).argmin fun s => (s - r.nextSeq).toNat with
    | none => simp
    | some s =>
        obtain ⟨segment, hsegment, rfl⟩ := List.mem_map.mp (List.argmin_mem hmin)
        have hnot : 0 < (segment.1 - r.nextSeq).toInt := by
          simpa [due, seqDelta] using hahead segment hsegment
        rw [BitVec.toInt_eq_toNat_cond] at hnot
        simp only [Option.getD_some]
        omega
  have htarget : r.nextSeq + BitVec.ofNat 32 (r.gapTarget - r.nextSeq).toNat = r.gapTarget := by
    rw [BitVec.ofNat_toNat, BitVec.setWidth_eq]
    bv_omega
  have hreceived := h.received
  have hmoved : ({ r with
      gaps := r.gaps + 1
      deliveredOff := r.deliveredOff + (r.gapTarget - r.nextSeq).toNat
      nextSeq := r.gapTarget
      buf := []
      pos := 0
      bufOff := r.deliveredOff + (r.gapTarget - r.nextSeq).toNat
      oooSinceUs := none
      pos_le := le_refl 0 } : Reassembler).Placed base := by
    refine ⟨h.initialized, h.baseSeq, ?_, rfl⟩
    show r.gapTarget = base + BitVec.ofNat 32 (r.deliveredOff + (r.gapTarget - r.nextSeq).toNat)
    rw [BitVec.ofNat_add, ← BitVec.add_assoc, ← h.nextSeq, htarget]
  obtain ⟨hplaced, hahead', hbufOff⟩ := hmoved.drain_ooo
  refine ⟨hplaced, hahead', ?_, ?_, fun hfalse => by cases hfalse⟩
  · show r.bufOff ≤ r.forceGap.bufOff
    rw [forceGap, hbufOff]
    show r.bufOff ≤ r.deliveredOff + _
    omega
  · show r.forceGap.bufOff < _
    rw [forceGap, hbufOff]
    show r.deliveredOff + _ < r.deliveredOff + 2 ^ 31
    omega

/-- A segment. -/
theorem Placed.push (h : r.Placed base) (hahead : r.HoldsAhead) (seq : Seq) (data : Bytes)
    (nowUs : Nat) : Reached base r (r.push seq data nowUs) := by
  have hreceived := h.received
  have hsame : Reached base r (r, false) :=
    ⟨h, hahead, le_refl _, by show r.bufOff < _; omega, fun _ => rfl⟩
  have hstart : r.start seq = r := by rw [start, if_pos h.initialized]
  unfold Reassembler.push
  split
  · exact hsame
  · rw [hstart, pushData]
    split
    · split
      · exact hsame
      · obtain ⟨hplaced, hahead', hbufOff⟩ := (h.append (data.drop (r.overlap seq))).drain_ooo
        have hbufOff' : (r.append (data.drop (r.overlap seq))).drainOoo.bufOff = r.bufOff := hbufOff
        exact ⟨hplaced, hahead', hbufOff'.ge, by rw [hbufOff']; omega, fun _ => hbufOff'⟩
    · next hlater =>
        have hhold : (r.hold seq data nowUs).Placed base :=
          ⟨h.initialized, h.baseSeq, h.nextSeq, h.received⟩
        have hheld : (r.hold seq data nowUs).HoldsAhead := by
          intro segment hsegment
          rcases List.mem_append.mp hsegment with hsegment | hsegment
          · exact hahead segment hsegment
          · rw [List.mem_singleton.mp hsegment]
            simpa [due, hold] using hlater
        split
        · obtain ⟨hplaced, hahead', hle, hlt, -⟩ := hhold.force_gap hheld
          exact ⟨hplaced, hahead', hle, hlt, fun hfalse => by cases hfalse⟩
        · exact ⟨hhold, hheld, le_refl _, by show r.bufOff < _; omega, fun _ => rfl⟩

/-- A timeout. -/
theorem Placed.check_timeout (h : r.Placed base) (hahead : r.HoldsAhead) (nowUs : Nat) :
    Reached base r (r.checkTimeout nowUs) := by
  have hreceived := h.received
  have hsame : Reached base r (r, false) :=
    ⟨h, hahead, le_refl _, by show r.bufOff < _; omega, fun _ => rfl⟩
  unfold Reassembler.checkTimeout
  split
  · split
    · exact h.force_gap hahead
    · exact hsame
  · exact hsame

/-- The first segment. -/
theorem first_push (seq : Seq) {data : Bytes} (hdata : data ≠ []) (nowUs : Nat) :
    Reached seq (new.start seq) (new.push seq data nowUs) ∧ (new.push seq data nowUs).2 = false ∧
      (new.push seq data nowUs).1.offset = 0 := by
  have hstarted : (new.start seq).Placed seq := ⟨rfl, rfl, by simp [start, new], rfl⟩
  have hreached := hstarted.push (fun segment hsegment => by cases hsegment) seq data nowUs
  have hgap := (push_in_order (in_order_start seq) data nowUs).1
  simp only [BitVec.add_zero] at hgap
  rw [push_start _ _ hdata]
  exact ⟨hreached, hgap, hreached.no_gap hgap⟩

end Reassembler

namespace Direction

/-! ## The turns of a run -/

/-- The frame that a turn returns. -/
def Progress.frame : Progress → Option ProcessedFrame
  | .stop _ => none
  | .more _ frame => frame

/-- Whether an operation is one that the callers perform: they feed no empty segment. -/
def DirOp.hasData : DirOp → Bool
  | .feed _ data _ => !data.isEmpty
  | .tick _ => true
  | .applyPeerCapacity _ => true

/-- The sequence number of the first segment. -/
def firstSeq : List DirOp → Option Seq
  | [] => none
  | .feed seq _ _ :: _ => some seq
  | .tick _ :: ops => firstSeq ops
  | .applyPeerCapacity _ :: ops => firstSeq ops

variable [HuffmanDecoding]

/-- The direction at the start of every turn of the loop in a run. -/
def runTurns : Direction → List DirOp → List Direction
  | _, [] => []
  | d, op :: ops => d.opTurns op ++ runTurns (d.perform op).1 ops

/-- The loop returns the frames of its turns. -/
theorem parse_frames (d : Direction) :
    d.parse.2 = d.turns.filterMap fun t => t.parseStep.frame := by
  induction hwork : d.work using Nat.strongRecOn generalizing d with
  | ind n ih =>
      subst hwork
      cases hturn : d.parseStep with
      | stop d' =>
          rw [parse_of_stop hturn, turns_of_stop hturn]
          simp [hturn, Progress.frame]
      | more d' frame =>
          rw [parse_of_more hturn, turns_of_more hturn, ih _ (work_parse_step hturn) d' rfl]
          cases frame <;> simp [hturn, Progress.frame]

/-- A run returns the frames of its turns. -/
theorem run_frames (d : Direction) (ops : List DirOp) :
    (run perform d ops).2.flatten = (d.runTurns ops).filterMap fun t => t.parseStep.frame := by
  induction ops generalizing d with
  | nil => rfl
  | cons op ops ih =>
      have hop : (d.perform op).2 = (d.opTurns op).filterMap fun t => t.parseStep.frame := by
        cases op with
        | feed seq data nowUs => exact parse_frames _
        | tick nowUs =>
            simp only [perform, tick, opTurns]
            split
            · exact parse_frames _
            · rfl
        | applyPeerCapacity n => rfl
      rw [run, runTurns, List.filterMap_append, List.flatten_cons, hop, ih]

section

variable {P Q : List Direction → Direction → Prop}

/-- What every turn keeps, with the turns before it, holds at each turn of the loop. -/
theorem parse_history
    (hstop : ∀ past d d', P past d → d.parseStep = .stop d' → Q (past ++ [d]) d')
    (hmore : ∀ past d d' frame, P past d → d.parseStep = .more d' frame → P (past ++ [d]) d')
    {past : List Direction} {d : Direction} (h : P past d) :
    AtEach P past d.turns ∧ Q (past ++ d.turns) d.parse.1 := by
  induction hwork : d.work using Nat.strongRecOn generalizing past d with
  | ind n ih =>
      subst hwork
      cases hturn : d.parseStep with
      | stop d' =>
          rw [parse_of_stop hturn, turns_of_stop hturn]
          exact ⟨⟨h, trivial⟩, hstop past d d' h hturn⟩
      | more d' frame =>
          obtain ⟨hlater, hend⟩ := ih _ (work_parse_step hturn) (hmore past d d' frame h hturn) rfl
          rw [parse_of_more hturn, turns_of_more hturn]
          refine ⟨⟨h, hlater⟩, ?_⟩
          rwa [List.append_assoc] at hend

/-- What operations and turns keep, with the turns before them, holds at each turn of a run. -/
theorem run_history
    (hstop : ∀ past d d', P past d → d.parseStep = .stop d' → Q (past ++ [d]) d')
    (hmore : ∀ past d d' frame, P past d → d.parseStep = .more d' frame → P (past ++ [d]) d')
    (hfeed : ∀ past d seq data nowUs, Q past d → data ≠ [] →
      P past (d.withReassembled (d.reasm.push seq data nowUs)))
    (htimeout : ∀ past d nowUs, Q past d →
      P past (d.withReassembled (d.reasm.checkTimeout nowUs)))
    (hcapacity : ∀ past d n, Q past d → Q past (d.applyPeerCapacity n))
    {past : List Direction} {d : Direction} (h : Q past d) {ops : List DirOp}
    (hdata : ∀ op ∈ ops, op.hasData = true) : AtEach P past (d.runTurns ops) := by
  induction ops generalizing past d with
  | nil => trivial
  | cons op ops ih =>
      have hlater := fun op hop => hdata op (List.mem_cons_of_mem _ hop)
      have hop := hdata op List.mem_cons_self
      cases op with
      | feed seq data nowUs =>
          obtain ⟨hturns, hend⟩ :=
            parse_history hstop hmore
              (hfeed past d seq data nowUs h (by simpa [DirOp.hasData] using hop))
          exact at_each_append hturns (ih hend hlater)
      | tick nowUs =>
          simp only [runTurns, opTurns, perform]
          split
          · next hgap =>
              obtain ⟨hturns, hend⟩ := parse_history hstop hmore (htimeout past d nowUs h)
              rw [tick, if_pos hgap]
              exact at_each_append hturns (ih hend hlater)
          · next hgap =>
              rw [tick_same (by simpa using hgap)]
              exact ih h hlater
      | applyPeerCapacity n => exact ih (hcapacity past d n h) hlater

end

/-! ## Before the target and after it -/

/-- The direction drops bytes on the way to its target. -/
structure OnTheWay (target base : Seq) (d : Direction) : Prop where
  pending : d.pendingStartSeq = some target
  discard : d.discard = 0
  near : -2 ^ 31 ≤ seqDelta target base - d.reasm.offset

/-- The direction has moved past its target, and has forgotten the table. -/
structure MovedPast (past : List Direction) (d : Direction) : Prop where
  table : d.dec.table = []
  desynced : d.desynced = true ∨ ∃ t ∈ past, t.desynced = true
  misaligned : d.snapshotMisaligned = true

/-- The direction has left its target behind: it has stopped there, has returned a frame since, or
has moved past it. -/
structure Beyond (target base : Seq) (past : List Direction) (d : Direction) : Prop where
  pending : d.pendingStartSeq = none
  offset : seqDelta target base ≤ d.reasm.offset
  history : (∃ t ∈ past, (t.reasm.offset : Int) = seqDelta target base) ∨
    (∃ t ∈ past, t.parseStep.frame.isSome = true) ∨ MovedPast past d

/-- Where a seeded direction is at the start of a turn. -/
structure AtTurn (target base : Seq) (past : List Direction) (d : Direction) : Prop where
  placed : d.reasm.Placed base
  ahead : d.reasm.HoldsAhead
  phase : OnTheWay target base d ∨ Beyond target base past d

/-- Where a seeded direction is between operations: on the way, it has dropped all it was given. -/
structure Between (target base : Seq) (past : List Direction) (d : Direction) : Prop where
  placed : d.reasm.Placed base
  ahead : d.reasm.HoldsAhead
  phase : OnTheWay target base d ∧ d.reasm.offset = d.reasm.deliveredOff ∧
      (d.reasm.offset : Int) < seqDelta target base ∨
    Beyond target base past d

section

variable {target base : Seq} {past : List Direction} {d : Direction}

/-- A turn on the way, by how many bytes are missing to the target. -/
theorem OnTheWay.turn (h : OnTheWay target base d) (hbase : d.reasm.baseSeq = base) :
    d.parseStep =
      if seqDelta target base - d.reasm.offset > 0 then
        if min (seqDelta target base - d.reasm.offset).toNat d.reasm.available.length = 0 then
          .stop d
        else
          .more { d with
            reasm := d.reasm.consume
              (min (seqDelta target base - d.reasm.offset).toNat d.reasm.available.length)
            preSnapshotSkipped := d.preSnapshotSkipped +
              min (seqDelta target base - d.reasm.offset).toNat d.reasm.available.length } none
      else if seqDelta target base - d.reasm.offset < 0 then
        .more { d with
          snapshotMisaligned := true
          dec := d.dec.resetPartial
          desynced := true
          pendingStartSeq := none } none
      else .more { d with pendingStartSeq := none } none := by
  have hdelta : seqDelta target d.reasm.nextUnparsedSeq =
      seqDelta target base - d.reasm.offset := by
    rw [Reassembler.nextUnparsedSeq, Reassembler.seqAt, hbase]
    exact seq_delta_offset target base h.near
  simp only [parseStep, h.discard, gt_iff_lt, lt_self_iff_false, if_false, h.pending, seekStep,
    hdelta]

omit [HuffmanDecoding] in
/-- A direction that has moved past its target stays so, with more turns before it. -/
theorem MovedPast.later {d' : Direction} (h : MovedPast past d) (t : Direction)
    (htable : d'.dec.table = []) (hdesynced : d'.desynced = d.desynced ∨ t.desynced = d.desynced)
    (hmisaligned : d'.snapshotMisaligned = true) : MovedPast (past ++ [t]) d' := by
  refine ⟨htable, ?_, hmisaligned⟩
  rcases h.desynced with hlost | ⟨t', ht', hlost⟩
  · rcases hdesynced with hsame | hsame
    · exact Or.inl (hsame.trans hlost)
    · exact Or.inr ⟨t, by simp, hsame.trans hlost⟩
  · exact Or.inr ⟨t', List.mem_append_left _ ht', hlost⟩

/-- The history of a direction beyond its target, with one turn more. -/
theorem Beyond.later {d' : Direction} (h : Beyond target base past d) (t : Direction)
    (hpending : d'.pendingStartSeq = none) (hoffset : d.reasm.offset ≤ d'.reasm.offset)
    (hhistory : MovedPast past d → t.parseStep.frame.isSome = true ∨ MovedPast (past ++ [t]) d') :
    Beyond target base (past ++ [t]) d' := by
  have hle := h.offset
  refine ⟨hpending, by omega, ?_⟩
  rcases h.history with ⟨t', ht', hstopped⟩ | ⟨t', ht', hframe⟩ | hmoved
  · exact Or.inl ⟨t', List.mem_append_left _ ht', hstopped⟩
  · exact Or.inr (Or.inl ⟨t', List.mem_append_left _ ht', hframe⟩)
  · rcases hhistory hmoved with hframe | hmoved'
    · exact Or.inr (Or.inl ⟨t, by simp, hframe⟩)
    · exact Or.inr (Or.inr hmoved')

/-- A turn that stops. -/
theorem AtTurn.stop (h : AtTurn target base past d) {d' : Direction}
    (hturn : d.parseStep = .stop d') : Between target base (past ++ [d]) d' := by
  rcases h.phase with hway | hbeyond
  · rw [hway.turn h.placed.baseSeq] at hturn
    split at hturn
    · next hahead =>
        split at hturn
        · next hdry =>
            cases hturn
            have hreceived := h.placed.received
            refine ⟨h.placed, h.ahead, Or.inl ⟨hway, ?_, by omega⟩⟩
            simp only [Reassembler.offset] at hahead hdry ⊢
            omega
        · cases hturn
    · split at hturn <;> cases hturn
  · rcases parse_step_stops hturn with rfl | ⟨-, n, rfl⟩
    · exact ⟨h.placed, h.ahead, Or.inr (hbeyond.later d' hbeyond.pending (le_refl _) fun hmoved =>
        Or.inr (hmoved.later d' hmoved.table (Or.inl rfl) hmoved.misaligned))⟩
    · refine ⟨h.placed.consume n, h.ahead.consume n, Or.inr (hbeyond.later d hbeyond.pending ?_ ?_)⟩
      · simp only [Reassembler.offset, Reassembler.bufOff_consume]
        omega
      · exact fun hmoved => Or.inr (hmoved.later d hmoved.table (Or.inl rfl) hmoved.misaligned)

/-- Only a turn that seeks a target finds a misalignment. -/
theorem misaligned_parse_step (d : Direction) (h : d.pendingStartSeq = none) :
    d.parseStep.next.snapshotMisaligned = d.snapshotMisaligned := by
  simp only [parseStep, h]
  split
  · simp only [discardStep]
    split <;> rfl
  · split
    · rw [resync_step_eq]
      split
      · rfl
      · split
        · rfl
        · rfl
        · split
          · rw [Progress.next]
          · rfl
    · split
      · simp only [prefaceStep]
        split
        · rfl
        · split <;> rfl
      · unfold frameStep
        split
        · rfl
        · split
          · split
            · rfl
            · exact (same_position_handle_frame _ _ _ _ _).snapshotMisaligned
          · rfl

/-- A turn that goes on. -/
theorem AtTurn.more (h : AtTurn target base past d) {d' : Direction} {frame : Option ProcessedFrame}
    (hturn : d.parseStep = .more d' frame) : AtTurn target base (past ++ [d]) d' := by
  rcases h.phase with hway | hbeyond
  · have hnear := hway.near
    rw [hway.turn h.placed.baseSeq] at hturn
    split at hturn
    · split at hturn
      · cases hturn
      · cases hturn
        refine ⟨h.placed.consume _, h.ahead.consume _, Or.inl ⟨hway.pending, hway.discard, ?_⟩⟩
        simp only [Reassembler.offset, Reassembler.bufOff_consume] at hnear ⊢
        omega
    · split at hturn
      · cases hturn
        exact ⟨h.placed, h.ahead, Or.inr ⟨rfl, by simp only; omega,
          Or.inr (Or.inr ⟨rfl, Or.inl rfl, rfl⟩)⟩⟩
      · cases hturn
        have hstopped : (d.reasm.offset : Int) = seqDelta target base := by omega
        exact ⟨h.placed, h.ahead, Or.inr ⟨rfl, hstopped.ge, Or.inl ⟨d, by simp, hstopped⟩⟩⟩
  · obtain ⟨hmoves, hpending, -⟩ := parse_step_moves hbeyond.pending hturn
    have hnext : d'.reasm = d.reasm ∨ ∃ n, d'.reasm = d.reasm.consume n := by
      have hstep := reasm_parse_step d
      rwa [hturn] at hstep
    have hplace : d'.reasm.Placed base ∧ d'.reasm.HoldsAhead := by
      rcases hnext with hsame | ⟨n, hconsumed⟩
      · rw [hsame]
        exact ⟨h.placed, h.ahead⟩
      · rw [hconsumed]
        exact ⟨h.placed.consume n, h.ahead.consume n⟩
    refine ⟨hplace.1, hplace.2, Or.inr (hbeyond.later d hpending hmoves.offset_le fun hmoved => ?_)⟩
    have hmisaligned := (misaligned_parse_step d hbeyond.pending).trans hmoved.misaligned
    have hcases := turn_cases d
    rw [hturn] at hmisaligned hcases ⊢
    -- a turn that returns no frame does not touch the empty table
    cases hcases with
    | move _ hsame =>
        exact Or.inr (hmoved.later d ((congrArg Decoder.table hsame.dec).trans hmoved.table)
          (Or.inr rfl) hmisaligned)
    | misaligned _ hsame =>
        exact Or.inr (hmoved.later d (congrArg Decoder.table hsame.dec) (Or.inr rfl) hmisaligned)
    | skip hdr hat hparse hwant => exact Or.inl rfl
    | take hdr payload hframe => exact Or.inl rfl

/-- What an operation does before it parses. -/
theorem AtTurn.of_reached {pushed : Reassembler × Bool}
    (hreached : Reassembler.Reached base d.reasm pushed)
    (h : OnTheWay target base { d with reasm := pushed.1 } ∨ Beyond target base past d) :
    AtTurn target base past (d.withReassembled pushed) := by
  unfold withReassembled
  split
  · refine ⟨hreached.placed, hreached.ahead, ?_⟩
    rcases h with hway | hbeyond
    · exact Or.inl ⟨hway.pending, rfl, hway.near⟩
    · have hoffset := hbeyond.offset
      have hle := hreached.bufOff_le
      refine Or.inr ⟨hbeyond.pending, ?_, ?_⟩
      · simp only [Reassembler.offset, onGap] at hoffset ⊢
        omega
      · exact hbeyond.history.imp_right fun hlater => hlater.imp_right fun hmoved =>
          ⟨rfl, Or.inl rfl, hmoved.misaligned⟩
  · refine ⟨hreached.placed, hreached.ahead, h.imp_right fun hbeyond => ⟨hbeyond.pending, ?_, ?_⟩⟩
    · have hoffset := hbeyond.offset
      have hle := hreached.bufOff_le
      simp only [Reassembler.offset] at hoffset ⊢
      omega
    · exact hbeyond.history.imp_right fun hlater => hlater.imp_right fun hmoved =>
        ⟨hmoved.table, hmoved.desynced, hmoved.misaligned⟩

/-- A segment or a timeout. -/
theorem Between.reassembled (h : Between target base past d) {pushed : Reassembler × Bool}
    (hreached : Reassembler.Reached base d.reasm pushed) :
    AtTurn target base past (d.withReassembled pushed) := by
  refine AtTurn.of_reached hreached (h.phase.imp_left fun ⟨hway, hdry, hbefore⟩ => ?_)
  have hlt := hreached.bufOff_lt
  refine ⟨hway.pending, hway.discard, ?_⟩
  simp only [Reassembler.offset] at hdry hbefore ⊢
  omega

/-- A table size of the opposite direction. -/
theorem Between.capacity (h : Between target base past d) (n : Nat) :
    Between target base past (d.applyPeerCapacity n) := by
  refine ⟨h.placed, h.ahead, h.phase.imp (fun ⟨hway, hplace⟩ => ⟨⟨hway.pending, hway.discard,
    hway.near⟩, hplace⟩) fun hbeyond => ⟨hbeyond.pending, hbeyond.offset, ?_⟩⟩
  refine hbeyond.history.imp_right fun hlater => hlater.imp_right fun hmoved => ?_
  have htable := Decoder.apply_peer_capacity_table_isPrefix d.dec n
  rw [hmoved.table, List.prefix_nil] at htable
  exact ⟨htable, hmoved.desynced, hmoved.misaligned⟩

/-- From the first segment on. -/
theorem seeded_history {ops : List DirOp} (hfresh : d.reasm = .new)
    (hpending : d.pendingStartSeq = some target) (hdiscard : d.discard = 0)
    (hfirst : firstSeq ops = some base) (hdata : ∀ op ∈ ops, op.hasData = true) :
    AtEach (AtTurn target base) [] (d.runTurns ops) := by
  induction ops generalizing d with
  | nil => trivial
  | cons op ops ih =>
      have hlater := fun op hop => hdata op (List.mem_cons_of_mem _ hop)
      have hop := hdata op List.mem_cons_self
      cases op with
      | feed seq data nowUs =>
          obtain rfl : seq = base := Option.some.inj hfirst
          have hne : data ≠ [] := by simpa [DirOp.hasData] using hop
          obtain ⟨hreached, -, hoffset⟩ := Reassembler.first_push seq hne nowUs
          have hnear : -2 ^ 31 ≤ seqDelta target seq := by
            have := BitVec.le_toInt (x := target - seq)
            simpa [seqDelta] using this
          have hstart : AtTurn target seq [] (d.withReassembled (d.reasm.push seq data nowUs)) := by
            rw [hfresh]
            refine AtTurn.of_reached (d := { d with reasm := Reassembler.new.start seq }) hreached
              (Or.inl ⟨hpending, hdiscard, ?_⟩)
            simp only [hoffset, Nat.cast_zero, sub_zero]
            exact hnear
          obtain ⟨hturns, hend⟩ := parse_history (Q := Between target seq)
            (fun past d d' h hturn => h.stop hturn)
            (fun past d d' frame h hturn => h.more hturn) hstart
          refine at_each_append hturns (run_history (fun past d d' h hturn => h.stop hturn)
            (fun past d d' frame h hturn => h.more hturn)
            (fun past d seq data nowUs h _ => h.reassembled (h.placed.push h.ahead seq data nowUs))
            (fun past d nowUs h => h.reassembled (h.placed.check_timeout h.ahead nowUs))
            (fun past d n h => h.capacity n) hend hlater)
      | tick nowUs =>
          have hidle : (d.reasm.checkTimeout nowUs).2 = false := by rw [hfresh]; rfl
          simp only [runTurns, opTurns, hidle, Bool.false_eq_true, if_false,
            List.nil_append, perform,
            tick_same hidle]
          exact ih hfresh hpending hdiscard hfirst hlater
      | applyPeerCapacity n => exact ih hfresh hpending hdiscard hfirst hlater

/-- A turn on the way returns no frame and decodes nothing. -/
theorem OnTheWay.silent (h : OnTheWay target base d) (hbase : d.reasm.baseSeq = base) :
    d.parseStep.frame = none ∧ d.blockToDecode = none := by
  constructor
  · rw [h.turn hbase]
    split
    · split <;> rfl
    · split <;> rfl
  · have hat : d.atFrame = false := by simp [atFrame, h.pending]
    simp only [blockToDecode, turnFrame, hat, Bool.false_eq_true, if_false]

end

/-- What a run does about a target `skip` bytes after the first byte of its first segment. -/
structure SafeAtTarget (skip : Int) (d : Direction) (ops : List DirOp) : Prop where
  /-- Before the target no frame is returned and no block is decoded. -/
  silent : ∀ t ∈ d.runTurns ops, (t.reasm.offset : Int) < skip →
    t.parseStep.frame = none ∧ t.blockToDecode = none
  /-- No frame starts before the target. -/
  frames : ∀ pf ∈ (run perform d ops).2.flatten, skip ≤ pf.startOff
  /-- The first frame after the target was missed finds no entry of the table left. -/
  missed : ∀ before t after, d.runTurns ops = before ++ t :: after → skip < t.reasm.offset →
    (∀ t' ∈ before ++ [t], (t'.reasm.offset : Int) ≠ skip) →
    (∀ t' ∈ before, t'.parseStep.frame = none) → t.parseStep.frame.isSome = true →
      t.dec.table = [] ∧ (∃ t' ∈ before, t'.desynced = true) ∧
        (t.snapshotMisaligned = true ∨ t.poisoned = true)

/-- A direction that is seeded from a snapshot returns no frame and decodes nothing before its
target. If it moves past its target without stopping there, then it has forgotten the table, has
lost its place and says so before it returns a frame. -/
theorem seeded_table_at_target (keepPayloads : Bool) (entries : List Field) (maxSize : Nat)
    (target : Seq) {ops : List DirOp} {base : Seq} (hfirst : firstSeq ops = some base)
    (hdata : ∀ op ∈ ops, op.hasData = true) :
    SafeAtTarget (seqDelta target base)
      ((joinedMidstream keepPayloads).seedFromSnapshot entries maxSize target) ops := by
  set seeded := (joinedMidstream keepPayloads).seedFromSnapshot entries maxSize target
  have hhistory : AtEach (AtTurn target base) [] (seeded.runTurns ops) :=
    seeded_history rfl rfl rfl hfirst hdata
  have hturn : ∀ t ∈ seeded.runTurns ops, ∃ past, AtTurn target base past t := by
    intro t ht
    obtain ⟨before, after, hsplit⟩ := List.append_of_mem ht
    rw [hsplit] at hhistory
    exact ⟨_, hhistory.split⟩
  refine ⟨fun t ht hbefore => ?_, fun pf hpf => ?_, ?_⟩
  · obtain ⟨past, hat⟩ := hturn t ht
    rcases hat.phase with hway | hbeyond
    · exact hway.silent hat.placed.baseSeq
    · exact absurd hbeyond.offset (not_le.mpr hbefore)
  · rw [run_frames] at hpf
    obtain ⟨t, ht, hframe⟩ := List.mem_filterMap.mp hpf
    obtain ⟨past, hat⟩ := hturn t ht
    rcases hat.phase with hway | hbeyond
    · rw [(hway.silent hat.placed.baseSeq).1] at hframe
      cases hframe
    · cases hstep : t.parseStep with
      | stop t' => simp [hstep, Progress.frame] at hframe
      | more t' frame =>
          simp only [hstep, Progress.frame] at hframe
          rw [(parse_step_moves hbeyond.pending hstep).2.2 pf hframe]
          exact hbeyond.offset
  · intro before t after hsplit _ hnever hsilent hframe
    rw [hsplit] at hhistory
    have hat := hhistory.split
    rw [List.nil_append] at hat
    rcases hat.phase with hway | hbeyond
    · rw [(hway.silent hat.placed.baseSeq).1] at hframe
      cases hframe
    · rcases hbeyond.history with ⟨t', ht', hstopped⟩ | ⟨t', ht', hearlier⟩ | hmoved
      · exact absurd hstopped (hnever t' (List.mem_append_left _ ht'))
      · rw [hsilent t' ht'] at hearlier
        cases hearlier
      · refine ⟨hmoved.table, hmoved.desynced.resolve_left fun hlost => ?_,
          Or.inl hmoved.misaligned⟩
        -- a turn that hunts for a frame boundary returns no frame
        have hnone : t.parseStep.frame = none := by
          simp only [parseStep, hbeyond.pending, hlost, if_true]
          split
          · simp only [discardStep]
            split <;> rfl
          · rw [resync_step_eq]
            split
            · rfl
            · split
              · rfl
              · rfl
              · split <;> rfl
        rw [hnone] at hframe
        cases hframe

omit [HuffmanDecoding] in
/-- A direction whose target lies 5 bytes on misses it: the bytes in between never come, and a
timeout gives up on them. -/
theorem seeded_table_at_missed_target :
    let _ := noHuffman.toHuffmanDecoding
    SafeAtTarget 5 ((joinedMidstream false).seedFromSnapshot [] 4096 (105 : Seq))
      [.feed 100 [0, 0] 0, .feed 110 [0, 0, 0] 0, .tick 3000000] := by
  intro _
  have hsafe : SafeAtTarget (seqDelta 105 100)
      ((joinedMidstream false).seedFromSnapshot [] 4096 (105 : Seq))
      [.feed 100 [0, 0] 0, .feed 110 [0, 0, 0] 0, .tick 3000000] :=
    seeded_table_at_target false [] 4096 105 rfl (by decide)
  have hskip : seqDelta 105 100 = 5 := by decide
  rwa [hskip] at hsafe

end Direction

end H2Tap
