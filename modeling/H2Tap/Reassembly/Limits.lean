import H2Tap.Reassembly.Release

/-!
# The limits on what is held

`reassembly.rs`. A hole is given up once the data behind it is too much or too old. Both limits hold
as long as one gap is enough: `force_gap` stops the timer, and jumps once. A hole behind the first
run of held segments has no timer then (`hole_under_timer`), and the data behind it may be more than
the limit (`held_within_limit`).
-/

namespace H2Tap

open Lib

namespace Reassembler

variable {r : Reassembler}

/-! ## The timer -/

/-- Where something is held the timer is set, and the first check after it ran out declares a
gap. -/
def UnderTimer (r : Reassembler) : Prop :=
  r.ooo ≠ [] → ∃ since, r.oooSinceUs = some since ∧
    ∀ nowUs, r.oooTimeoutUs < nowUs - since → (r.checkTimeout nowUs).2 = true

theorem under_timer_iff (r : Reassembler) :
    r.UnderTimer ↔ (r.ooo ≠ [] → r.oooSinceUs.isSome = true) := by
  refine forall_congr' fun _ => ⟨fun ⟨since, hsince, _⟩ => by rw [hsince]; rfl, fun hset => ?_⟩
  obtain ⟨since, hsince⟩ := Option.isSome_iff_exists.mp hset
  refine ⟨since, hsince, fun nowUs hlate => ?_⟩
  simp only [checkTimeout, hsince, if_pos hlate]

/-- Every held segment lies in the first run of them. -/
def OneRun (spans : List (Nat × Nat)) : Prop := ∀ s ∈ spans, s.1 ≤ runEnd spans

instance (spans : List (Nat × Nat)) : Decidable (OneRun spans) :=
  inferInstanceAs (Decidable (∀ s ∈ spans, _ ≤ _))

/-- A gap stops the timer, so it has to release everything. -/
theorem under_timer_force_gap (h : r.Accounted) (hbudget : r.heldBytes < 2 ^ 31) :
    r.forceGap.UnderTimer ↔ OneRun r.spans := by
  have hstopped : r.forceGap.oooSinceUs = none := by
    have hsince := (drained_force_gap h.toBalanced).oooSinceUs
    have hjump : r.jump.oooSinceUs = none := rfl
    rw [hsince, hjump, ite_self]
  have hnone : r.forceGap.UnderTimer ↔ r.forceGap.ooo = [] := by
    rw [under_timer_iff, hstopped]
    simp
  rw [hnone, force_gap_held h.ahead hbudget, List.filter_eq_nil_iff, OneRun, spans,
    List.forall_mem_map]
  simp only [decide_eq_true_eq, not_lt]

/-- A call leaves a hole without a timer exactly if it declares a gap and another hole is left. -/
theorem under_timer_perform (h : r.Accounted) (htimer : r.UnderTimer) {op : ReasmOp}
    (hbudget : r.DeclaresGap op → r.oooBytes + op.data.length < 2 ^ 31) :
    (r.perform op).1.UnderTimer ↔ (r.DeclaresGap op → OneRun (r.spansAt op)) := by
  rcases perform_cases h op with ⟨hgap, full, hfull, hspans, hheld, heq⟩ | ⟨hquiet, hcases⟩
  · have hsmall := hbudget hgap
    rw [h.oooBytes] at hsmall
    rw [heq, under_timer_force_gap hfull (by omega), hspans]
    exact ⟨fun hrun _ => hrun, fun hrun => hrun hgap⟩
  · refine iff_of_true ?_ fun hgap => absurd hgap hquiet
    rw [under_timer_iff] at htimer ⊢
    intro hooo
    rcases hcases with ⟨hkept, hsince⟩ | ⟨-, hset⟩
    · rw [hsince hooo]
      refine htimer fun hnone => hooo ?_
      rw [hnone] at hkept
      exact List.sublist_nil.mp hkept
    · exact hset

/-! ## The amount -/

/-- What is held is within the limit. -/
def WithinLimit (r : Reassembler) : Prop := r.oooBytes ≤ r.oooLimit

instance (r : Reassembler) : Decidable r.WithinLimit := inferInstanceAs (Decidable (_ ≤ _))

/-- A call leaves more than the limit exactly if it declares a gap and more than that is held after
the first run. -/
theorem within_limit_perform (h : r.Accounted) (hwithin : r.WithinLimit) {op : ReasmOp}
    (hbudget : r.oooBytes + op.data.length < 2 ^ 31) :
    (r.perform op).1.WithinLimit ↔
      (r.DeclaresGap op → beyondRun (r.spansAt op) ≤ r.oooLimit) := by
  have hlimit := limits_perform h op
  have hafter := (h.perform op).oooBytes
  rw [h.oooBytes] at hbudget
  rw [WithinLimit, hlimit, hafter]
  rcases perform_cases h op with ⟨hgap, full, hfull, hspans, hheld, heq⟩ | ⟨hquiet, hcases⟩
  · rw [heq, force_gap_held_bytes hfull.ahead (by omega), hspans]
    exact ⟨fun hrun _ => hrun, fun hrun => hrun hgap⟩
  · refine iff_of_true ?_ fun hgap => absurd hgap hquiet
    rcases hcases with ⟨hkept, -⟩ | ⟨hle, -⟩
    · have hless : (r.perform op).1.heldBytes ≤ r.heldBytes :=
        (hkept.map _).sum_le_sum fun _ _ => Nat.zero_le _
      have hbefore := h.oooBytes
      have hbound : r.oooBytes ≤ r.oooLimit := hwithin
      omega
    · rw [← hafter]
      exact hle

/-- What a direction is known to be while both limits hold. -/
structure Bounded (r : Reassembler) : Prop where
  accounted : r.Accounted
  limit : r.oooLimit = defaultOooLimit
  within : r.WithinLimit

theorem bounded_new : new.Bounded := ⟨accounted_new, rfl, Nat.zero_le _⟩

/-- Segments of TCP never bring the held ones near half of the number space. -/
theorem Bounded.budget (h : r.Bounded) {op : ReasmOp} (hsmall : op.data.length ≤ maxSegment) :
    r.oooBytes + op.data.length < 2 ^ 31 := by
  have hwithin : r.oooBytes ≤ r.oooLimit := h.within
  rw [h.limit, defaultOooLimit] at hwithin
  simp only [maxSegment] at hsmall
  omega

/-- A gap after which no hole is left releases everything. -/
theorem Bounded.perform (h : r.Bounded) {op : ReasmOp} (hsmall : op.data.length ≤ maxSegment)
    (htimer : (r.perform op).1.UnderTimer) : (r.perform op).1.Bounded := by
  have hlimit := limits_perform h.accounted op
  refine ⟨h.accounted.perform op, hlimit.trans h.limit, ?_⟩
  refine (within_limit_perform h.accounted h.within (h.budget hsmall)).mpr fun hgap => ?_
  rcases perform_cases h.accounted op with ⟨-, full, hfull, hspans, hheld, heq⟩ | ⟨hquiet, -⟩
  · have hbudget := h.budget hsmall
    rw [h.accounted.oooBytes] at hbudget
    rw [heq] at htimer
    have hrun := (under_timer_force_gap hfull (by omega)).mp htimer
    rw [hspans] at hrun
    have hnone : (r.spansAt op).filter (fun s => runEnd (r.spansAt op) < s.1) = [] := by
      rw [List.filter_eq_nil_iff]
      intro s hs
      rw [decide_eq_true_eq, not_lt]
      exact hrun s hs
    rw [beyondRun, hnone]
    exact Nat.zero_le _
  · exact absurd hgap hquiet

end Reassembler

open Reassembler

/-- A hole is under a timer in every state of a run in which every declared gap leaves no other
hole. For segments of TCP this is the only way in which one can be without. -/
theorem hole_under_timer (ops : List ReasmOp) :
    (Guarded perform (fun r op => r.DeclaresGap op →
        r.oooBytes + op.data.length < 2 ^ 31 ∧ OneRun (r.spansAt op)) .new ops →
      Always perform UnderTimer .new ops) ∧
    ((∀ op ∈ ops, op.data.length ≤ maxSegment) →
      (Always perform UnderTimer .new ops ↔
        Guarded perform (fun r op => r.DeclaresGap op → OneRun (r.spansAt op)) .new ops)) := by
  have hnew : Reassembler.new.UnderTimer := fun hooo => absurd rfl hooo
  constructor
  · intro hguard
    have hstep (r : Reassembler) (op : ReasmOp) (h : r.Accounted ∧ r.UnderTimer)
        (hop : r.DeclaresGap op →
          r.oooBytes + op.data.length < 2 ^ 31 ∧ OneRun (r.spansAt op)) :
        (r.perform op).1.Accounted ∧ (r.perform op).1.UnderTimer :=
      ⟨h.1.perform op, (under_timer_perform h.1 h.2 fun hgap => (hop hgap).1).mpr
        fun hgap => (hop hgap).2⟩
    exact (hguard.always hstep ⟨accounted_new, hnew⟩).imp fun r h => h.2
  · intro hsmall
    exact always_iff_guarded (J := Bounded) (C := fun op => op.data.length ≤ maxSegment)
      (fun r op h hop htimer => h.perform hop htimer)
      (fun r op h htimer hop => under_timer_perform h.accounted htimer fun _ => h.budget hop)
      bounded_new hnew hsmall

/-- A hole before two segments that follow each other, given up on after three seconds. -/
def oneHole : List ReasmOp :=
  [.noteSyn 99, .push 102 (asciiBytes "c") 0, .push 103 (asciiBytes "d") 1, .checkTimeout 3000000]

theorem hole_under_timer_one_hole :
    Always perform UnderTimer .new oneHole ∧
      (Always perform UnderTimer .new oneHole ↔
        Guarded perform (fun r op => r.DeclaresGap op → OneRun (r.spansAt op)) .new oneHole) :=
  ⟨(hole_under_timer oneHole).1 (by decide +kernel), (hole_under_timer oneHole).2 (by decide)⟩

/-- The same with a second hole, between the two segments. -/
def twoHoles : List ReasmOp :=
  [.noteSyn 99, .push 102 (asciiBytes "c") 0, .push 104 (asciiBytes "e") 1, .checkTimeout 3000000]

/-- The second hole is left without a timer when the first one is given up. -/
theorem second_hole_without_timer : ¬Always perform UnderTimer .new twoHoles := by
  intro h
  have hfinal := (under_timer_iff _).mp h.final
  have hheld : (run perform .new twoHoles).1.ooo ≠ [] := by decide +kernel
  have hstopped : (run perform .new twoHoles).1.oooSinceUs = none := by decide +kernel
  have hset := hfinal hheld
  rw [hstopped] at hset
  cases hset

/-- What is held stays within its limit exactly in the runs in which, whenever a gap is declared,
the held segments after the first run are within it. -/
theorem held_within_limit (ops : List ReasmOp) (hsmall : ∀ op ∈ ops, op.data.length ≤ maxSegment) :
    Always perform WithinLimit .new ops ↔
      Guarded perform (fun r op =>
        r.DeclaresGap op → beyondRun (r.spansAt op) ≤ r.oooLimit) .new ops := by
  have hbounded (r : Reassembler) (h : r.Accounted ∧ r.oooLimit = defaultOooLimit)
      (hwithin : r.WithinLimit) : r.Bounded := ⟨h.1, h.2, hwithin⟩
  exact always_iff_guarded (J := fun r => r.Accounted ∧ r.oooLimit = defaultOooLimit)
    (C := fun op => op.data.length ≤ maxSegment)
    (fun r op h _ _ => ⟨h.1.perform op, (limits_perform h.1 op).trans h.2⟩)
    (fun r op h hwithin hop =>
      within_limit_perform h.1 hwithin ((hbounded r h hwithin).budget hop))
    ⟨accounted_new, rfl⟩ bounded_new.within hsmall

theorem held_within_limit_one_hole : Always perform WithinLimit .new oneHole :=
  (held_within_limit oneHole (by decide)).mpr (by decide +kernel)

/-- Segments that are all pushed at once. -/
def pushes (segments : List (Seq × Bytes)) : List ReasmOp :=
  segments.map fun segment => .push segment.1 segment.2 0

/-- Segments ahead of the next byte that fit within the limit are all held. -/
theorem run_pushes {r : Reassembler} (hinit : r.initialized = true)
    {segments : List (Seq × Bytes)}
    (hahead : ∀ segment ∈ segments, segment.2 ≠ [] ∧ 0 < seqDelta segment.1 r.nextSeq)
    (hfits : r.oooBytes + (segments.map fun segment => segment.2.length).sum ≤ r.oooLimit) :
    let held := (run perform r (pushes segments)).1
    held.initialized = true ∧ held.nextSeq = r.nextSeq ∧ held.oooLimit = r.oooLimit ∧
      held.ooo = r.ooo ++ segments := by
  induction segments generalizing r with
  | nil => exact ⟨hinit, rfl, rfl, (List.append_nil _).symm⟩
  | cons segment segments ih =>
      obtain ⟨⟨hdata, hlater⟩, hrest⟩ := List.forall_mem_cons.mp hahead
      rw [List.map_cons, List.sum_cons, ← Nat.add_assoc] at hfits
      have hheld : (r.push segment.1 segment.2 0).1 = r.hold segment.1 segment.2 0 := by
        have hstart : r.start segment.1 = r := by rw [Reassembler.start, if_pos hinit]
        have hwithin : ¬(r.hold segment.1 segment.2 0).oooBytes > r.oooLimit := by
          show ¬r.oooBytes + segment.2.length > r.oooLimit
          omega
        rw [Reassembler.push, if_neg (by simpa using hdata), hstart, Reassembler.pushData,
          if_neg (not_le.mpr hlater), if_neg hwithin]
      have hrun : (run perform r (pushes (segment :: segments))).1 =
          (run perform (r.hold segment.1 segment.2 0) (pushes segments)).1 := by
        rw [← hheld]
        rfl
      obtain ⟨hinit', hnext, hlimit, hooo⟩ :=
        ih (r := r.hold segment.1 segment.2 0) hinit hrest hfits
      simp only [hrun]
      refine ⟨hinit', hnext, hlimit, hooo.trans ?_⟩
      simp [Reassembler.hold]

/-- A large segment that follows the byte at 3 and `i` others. -/
def largeSegment (i : Nat) : Seq × Bytes :=
  (BitVec.ofNat 32 (4 + 65535 * i), List.replicate 65535 0)

/-- The distances of a large segment from sequence number zero. -/
theorem span_from_large {i : Nat} (hi : i < 17) :
    spanFrom 0 (largeSegment i) = (4 + 65535 * i, 4 + 65535 * i + 65535) := by
  have hstart : (BitVec.ofNat 32 (4 + 65535 * i) - 0 : Seq).toNat = 4 + 65535 * i := by
    rw [BitVec.ofNat_eq_ofNat, BitVec.sub_zero, BitVec.toNat_ofNat, Nat.mod_eq_of_lt (by omega)]
  simp only [spanFrom, largeSegment, hstart, List.length_replicate]

/-- One byte behind a hole, and seventeen large segments behind a second one. -/
def smallThenLarge : List ReasmOp :=
  .noteSyn 4294967295 :: pushes ((2, [0]) :: (List.range 17).map largeSegment)

theorem large_segment_length (i : Nat) : (largeSegment i).2.length = 65535 := by
  rw [largeSegment, List.length_replicate]

theorem large_segment_ahead {i : Nat} (hi : i < 17) :
    (largeSegment i).2 ≠ [] ∧ 0 < seqDelta (largeSegment i).1 0 := by
  have hlength := large_segment_length i
  have hahead : ∀ i < 17, 0 < seqDelta (BitVec.ofNat 32 (4 + 65535 * i)) 0 := by decide
  refine ⟨fun hnone => ?_, hahead i hi⟩
  rw [hnone] at hlength
  cases hlength

/-- The byte and the large segments before the last one. -/
def beforeLast : List (Seq × Bytes) := (2, [0]) :: (List.range 16).map largeSegment

theorem before_last_total : (beforeLast.map fun segment => segment.2.length).sum = 1048561 := by
  simp only [beforeLast, List.map_cons, List.map_map, Function.comp_def, large_segment_length]
  decide

/-- Where the last large segment overflows the limit, the gap reaches the byte at 2 only. -/
theorem exceeds_of_before_last {held : Reassembler} (h : held.Accounted)
    (hinit : held.initialized = true) (hnext : held.nextSeq = 0)
    (hlimit : held.oooLimit = defaultOooLimit) (hooo : held.ooo = beforeLast) :
    ¬(held.perform (.push (largeSegment 16).1 (largeSegment 16).2 0)).1.WithinLimit := by
  have hbytes : held.oooBytes = 1048561 := by
    rw [h.oooBytes, heldBytes, hooo, before_last_total]
  have hlength := large_segment_length 16
  obtain ⟨hdata, hahead⟩ := large_segment_ahead (i := 16) (by decide)
  have hgap : held.DeclaresGap (.push (largeSegment 16).1 (largeSegment 16).2 0) := by
    refine ⟨hdata, hinit, by rw [hnext]; exact hahead, ?_⟩
    rw [hbytes, hlength, hlimit]
    decide
  have hspans : held.spansAt (.push (largeSegment 16).1 (largeSegment 16).2 0) =
      (2, 3) :: (List.range 17).map fun i => (4 + 65535 * i, 4 + 65535 * i + 65535) := by
    have hall : beforeLast ++ [largeSegment 16] = (2, [0]) :: (List.range 17).map largeSegment := by
      rw [beforeLast, List.range_succ (n := 16), List.map_append]
      rfl
    rw [spansAt, hooo, hnext, hall, List.map_cons, List.map_map]
    refine congrArg₂ List.cons (by decide) (List.map_congr_left fun i hi => ?_)
    exact span_from_large (List.mem_range.mp hi)
  have hwithin : held.WithinLimit := by
    rw [WithinLimit, hbytes, hlimit]
    decide
  have hbudget : held.oooBytes +
      (ReasmOp.push (largeSegment 16).1 (largeSegment 16).2 0).data.length < 2 ^ 31 := by
    rw [hbytes, ReasmOp.data, hlength]
    decide
  intro hfinal
  have hbeyond := (within_limit_perform h hwithin hbudget).mp hfinal hgap
  rw [hspans, hlimit] at hbeyond
  revert hbeyond
  decide +kernel

/-- The gap releases one byte, and all of the large segments stay held. -/
theorem limit_exceeded :
    (∀ op ∈ smallThenLarge, op.data.length ≤ maxSegment) ∧
      ¬Always perform WithinLimit .new smallThenLarge := by
  constructor
  · intro op hop
    simp only [smallThenLarge, pushes, List.map_cons, List.map_map, List.mem_cons, List.mem_map]
      at hop
    rcases hop with rfl | rfl | ⟨i, -, rfl⟩
    · exact Nat.zero_le _
    · show 1 ≤ 65535
      decide
    · rw [Function.comp, ReasmOp.data, large_segment_length, maxSegment]
  · intro h
    have hops : smallThenLarge = .noteSyn 4294967295 :: (pushes beforeLast ++
        [.push (largeSegment 16).1 (largeSegment 16).2 0]) := by
      simp only [smallThenLarge, beforeLast, pushes, List.range_succ (n := 16), List.map_append,
        List.map_cons, List.map_nil, List.cons_append]
    have hahead : ∀ segment ∈ beforeLast, segment.2 ≠ [] ∧ 0 < seqDelta segment.1 0 := by
      simp only [beforeLast, List.forall_mem_cons, List.forall_mem_map, List.mem_range]
      exact ⟨by decide, fun i hi => large_segment_ahead (by omega)⟩
    obtain ⟨hinit, hnext, hlimit, hooo⟩ :=
      run_pushes (r := Reassembler.new.noteSyn 4294967295) rfl hahead
        (by rw [before_last_total]; decide)
    have haccounted :
        (run perform (Reassembler.new.noteSyn 4294967295) (pushes beforeLast)).1.Accounted :=
      (run_invariant perform (Q := fun _ => True) (fun r op h _ => ⟨h.perform op, trivial⟩)
        (accounted_new.note_syn 4294967295) (guarded_true _ _)).1
    have hsyn : perform .new (.noteSyn 4294967295) =
        (Reassembler.new.noteSyn 4294967295, false) := rfl
    have hfinal := h.final
    rw [hops, run_cons_fst, run_concat_fst, hsyn] at hfinal
    exact exceeds_of_before_last haccounted hinit hnext hlimit hooo hfinal

end H2Tap
