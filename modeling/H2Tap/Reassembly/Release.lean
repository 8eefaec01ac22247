import H2Tap.Lib.Reach
import H2Tap.Reassembly.Accounting

/-!
# What a gap releases

`reassembly.rs`. `drain_ooo` follows the held segments from the next byte on, as `reach` follows
spans: what starts later stays held (`drain_ooo_reach`). A gap therefore releases the first run of
held segments and no more (`force_gap_held`), whatever bytes they carry.
-/

namespace H2Tap

open Lib

/-- Where the first of some spans starts. -/
def firstStart (spans : List (Nat × Nat)) : Nat := (spans.map Prod.fst).min?.getD 0

/-- Where the run of connected spans ends that the first of them starts. -/
def runEnd (spans : List (Nat × Nat)) : Nat := reach spans (firstStart spans)

/-- The bytes of the spans after the first run. -/
def beyondRun (spans : List (Nat × Nat)) : Nat :=
  ((spans.filter fun s => runEnd spans < s.1).map fun s => s.2 - s.1).sum

namespace Reassembler

/-- A segment by its distances from a sequence number. -/
def spanFrom (o : Seq) (segment : Seq × Bytes) : Nat × Nat :=
  ((segment.1 - o).toNat, (segment.1 - o).toNat + segment.2.length)

/-- The held segments by their distances from the next byte. -/
def spans (r : Reassembler) : List (Nat × Nat) := r.ooo.map (spanFrom r.nextSeq)

variable {r : Reassembler}

/-- A sequence number by its distance. -/
theorem seq_eq_add_distance (o seq : Seq) : seq = o + BitVec.ofNat 32 (seq - o).toNat := by
  rw [BitVec.ofNat_toNat, BitVec.setWidth_eq]
  bv_omega

/-- What is ahead lies less than half of the number space away. -/
theorem distance_of_ahead {o seq : Seq} (h : 0 < seqDelta seq o) :
    0 < (seq - o).toNat ∧ (seq - o).toNat < 2 ^ 31 := by
  rw [seqDelta, BitVec.toInt_eq_toNat_cond] at h
  split at h <;> omega

/-- Whether a held segment is due, and how much of it is old, by distances. -/
theorem due_by_distance {o : Seq} {m : Nat} (hnext : r.nextSeq = o + BitVec.ofNat 32 m)
    {segment : Seq × Bytes} (hlow : m < (spanFrom o segment).1 + 2 ^ 31)
    (hhigh : (spanFrom o segment).1 < m + 2 ^ 31) :
    (r.due segment = true ↔ (spanFrom o segment).1 ≤ m) ∧
      r.overlap segment.1 = m - (spanFrom o segment).1 := by
  have hdelta : seqDelta segment.1 r.nextSeq = ((spanFrom o segment).1 : Int) - m := by
    rw [hnext]
    conv_lhs => rw [seq_eq_add_distance o segment.1]
    exact seq_delta_near o hhigh hlow
  constructor
  · simp only [due, hdelta, decide_eq_true_eq]
    omega
  · simp only [overlap, hdelta]
    omega

/-- Taking a due segment out moves the next byte to its end, unless it is past that already. -/
theorem next_seq_release {o : Seq} {m : Nat} (hnext : r.nextSeq = o + BitVec.ofNat 32 m)
    {segment : Seq × Bytes} (hdue : (spanFrom o segment).1 ≤ m)
    (hlow : m < (spanFrom o segment).1 + 2 ^ 31) :
    ((r.release segment).appendTail segment).nextSeq =
      o + BitVec.ofNat 32 (max m (spanFrom o segment).2) := by
  have hreleased : (r.release segment).nextSeq = o + BitVec.ofNat 32 m := hnext
  have hoverlap := (due_by_distance hreleased hlow (by omega)).2
  have hend : (spanFrom o segment).2 = (spanFrom o segment).1 + segment.2.length := rfl
  unfold appendTail
  rw [hoverlap]
  split
  · show r.nextSeq + BitVec.ofNat 32 (segment.2.drop _).length = _
    rw [hnext, BitVec.add_assoc, ← BitVec.ofNat_add, List.length_drop, max_eq_right (by omega)]
    congr 2
    omega
  · rw [max_eq_left (by omega)]
    exact hnext

/-- `drain_ooo` follows the held segments from the next byte, and keeps what starts after the end
of that run. -/
theorem drain_ooo_reach {o : Seq} (low : Nat) {m : Nat} (hnext : r.nextSeq = o + BitVec.ofNat 32 m)
    (hnear : ∀ segment ∈ r.ooo, low ≤ (spanFrom o segment).1 ∧
      (spanFrom o segment).1 < low + 2 ^ 31) (hle : low ≤ m)
    (hbudget : m - low + r.heldBytes < 2 ^ 31) :
    r.drainOoo.nextSeq = o + BitVec.ofNat 32 (reach (r.ooo.map (spanFrom o)) m) ∧
      r.drainOoo.ooo =
        r.ooo.filter fun s => reach (r.ooo.map (spanFrom o)) m < (spanFrom o s).1 := by
  induction r using drainOoo.induct generalizing m with
  | case1 r segment hfind ih =>
      rw [drain_ooo_of_due hfind]
      obtain ⟨before, after, hooo, hkept⟩ := exists_due hfind
      have hheld := held_bytes_release hfind
      have hmem := List.mem_of_find?_eq_some hfind
      obtain ⟨hlow, hhigh⟩ := hnear segment hmem
      have hdue := (due_by_distance hnext (by omega) (by omega)).1.mp (List.find?_some hfind)
      have hend : (spanFrom o segment).2 = (spanFrom o segment).1 + segment.2.length := rfl
      have hsame : ((r.release segment).appendTail segment).ooo = before ++ after := by
        rw [← hkept]
        unfold appendTail
        split <;> rfl
      have hperm : (r.ooo.map (spanFrom o)).Perm
          (spanFrom o segment :: (before ++ after).map (spanFrom o)) := by
        rw [hooo, ← List.map_cons]
        exact List.perm_middle.map _
      have hstop := reach_of_mem hperm hdue
      have hnear' : ∀ other ∈ ((r.release segment).appendTail segment).ooo,
          low ≤ (spanFrom o other).1 ∧ (spanFrom o other).1 < low + 2 ^ 31 := by
        intro other hother
        refine hnear other ?_
        rw [hsame, List.mem_append] at hother
        rw [hooo, List.mem_append, List.mem_cons]
        tauto
      have hheld' : ((r.release segment).appendTail segment).heldBytes =
          (r.release segment).heldBytes := by rw [heldBytes, heldBytes, hsame, hkept]
      obtain ⟨hfinal, hstays⟩ := ih (next_seq_release hnext hdue (by omega)) hnear' (by omega)
        (by omega)
      rw [hsame, hstop] at hfinal hstays
      refine ⟨hfinal, hstays.trans ?_⟩
      have hbehind : ¬reach (r.ooo.map (spanFrom o)) m < (spanFrom o segment).1 := by
        have := le_reach (r.ooo.map (spanFrom o)) m
        omega
      generalize reach (r.ooo.map (spanFrom o)) m = stop at hbehind
      simp [hooo, hbehind]
  | case2 r hfind hempty =>
      have hnone : r.ooo = [] := List.isEmpty_iff.mp hempty
      rw [drain_ooo_of_none hfind, if_pos hempty]
      rw [reach_of_later (by simp [hnone])]
      exact ⟨hnext, by simp [hnone]⟩
  | case3 r hfind hempty =>
      rw [drain_ooo_of_none hfind, if_neg hempty]
      have hlater : ∀ segment ∈ r.ooo, m < (spanFrom o segment).1 := by
        intro segment hsegment
        obtain ⟨hlow, hhigh⟩ := hnear segment hsegment
        have hdue : r.due segment = true ↔ (spanFrom o segment).1 ≤ m :=
          (due_by_distance hnext (by omega) (by omega)).1
        have hnot := List.find?_eq_none.mp hfind segment hsegment
        by_contra hle
        exact hnot (hdue.mpr (not_lt.mp hle))
      rw [reach_of_later (List.forall_mem_map.mpr hlater)]
      refine ⟨hnext, (List.filter_eq_self.mpr fun segment hsegment => ?_).symm⟩
      rw [decide_eq_true_eq]
      exact hlater segment hsegment

/-! ## Gaps -/

/-- A gap jumps to where the first held segment starts. -/
theorem gap_distance (hooo : r.ooo ≠ []) :
    (r.gapTarget - r.nextSeq).toNat = firstStart r.spans := by
  obtain ⟨segment, hsegment, htarget, hfirst⟩ := exists_gap_target hooo
  have hmin : (r.spans.map Prod.fst).min? = some (segment.1 - r.nextSeq).toNat := by
    rw [List.min?_eq_some_iff]
    simp only [spans, List.map_map, List.mem_map, Function.comp, spanFrom, forall_exists_index,
      and_imp, forall_apply_eq_imp_iff₂]
    exact ⟨⟨segment, hsegment, rfl⟩, hfirst⟩
  rw [firstStart, hmin, htarget, Option.getD_some]

/-- A gap keeps the held segments that start after the first run of them. -/
theorem force_gap_held (hahead : ∀ segment ∈ r.ooo, 0 < seqDelta segment.1 r.nextSeq)
    (hbudget : r.heldBytes < 2 ^ 31) :
    r.forceGap.ooo = r.ooo.filter fun s => runEnd r.spans < (spanFrom r.nextSeq s).1 := by
  by_cases hooo : r.ooo = []
  · have hempty : r.jump.ooo = [] := hooo
    rw [force_gap_eq, drain_ooo_of_none (by rw [hempty]; rfl), if_pos (by rw [hempty]; rfl), hooo]
    exact hooo
  · have hnext : r.jump.nextSeq = r.nextSeq + BitVec.ofNat 32 (firstStart r.spans) := by
      rw [← gap_distance hooo]
      exact seq_eq_add_distance r.nextSeq r.gapTarget
    obtain ⟨segment, hsegment, htarget, hfirst⟩ := exists_gap_target hooo
    have hstart := gap_distance hooo
    rw [htarget] at hstart
    refine (drain_ooo_reach (firstStart r.spans) hnext (fun other hother => ?_) (le_refl _)
      ?_).2
    · have hle := hfirst other hother
      have hdistance := distance_of_ahead (hahead other hother)
      simp only [spanFrom]
      omega
    · show firstStart r.spans - firstStart r.spans + r.heldBytes < 2 ^ 31
      omega

/-- The bytes that a gap keeps. -/
theorem force_gap_held_bytes (hahead : ∀ segment ∈ r.ooo, 0 < seqDelta segment.1 r.nextSeq)
    (hbudget : r.heldBytes < 2 ^ 31) : r.forceGap.heldBytes = beyondRun r.spans := by
  rw [heldBytes, force_gap_held hahead hbudget, beyondRun]
  generalize runEnd r.spans = stop
  rw [spans, List.filter_map, List.map_map]
  congr 2
  funext segment
  simp [spanFrom]

/-! ## Which calls declare a gap -/

/-- The call declares a gap: a held segment overflows the limit, or the timer ran out. -/
def DeclaresGap (r : Reassembler) : ReasmOp → Prop
  | .push seq data _ => data ≠ [] ∧ r.initialized = true ∧ 0 < seqDelta seq r.nextSeq ∧
      r.oooLimit < r.oooBytes + data.length
  | .checkTimeout nowUs => ∃ since ∈ r.oooSinceUs, r.oooTimeoutUs < nowUs - since
  | _ => False

instance (r : Reassembler) : (op : ReasmOp) → Decidable (r.DeclaresGap op)
  | .noteSyn _ => isFalse id
  | .push .. => inferInstanceAs (Decidable (_ ∧ _ ∧ _ ∧ _))
  | .checkTimeout _ => inferInstanceAs (Decidable (∃ since ∈ _, _))
  | .consume _ => isFalse id

/-- The segments that are held when a call declares a gap, the pushed one included, by their
distances from the next byte. -/
def spansAt (r : Reassembler) : ReasmOp → List (Nat × Nat)
  | .push seq data _ => (r.ooo ++ [(seq, data)]).map (spanFrom r.nextSeq)
  | _ => r.spans

/-- A call that declares no gap releases held segments at most. -/
def Releases (r r' : Reassembler) : Prop :=
  r'.ooo.Sublist r.ooo ∧ (r'.ooo ≠ [] → r'.oooSinceUs = r.oooSinceUs)

/-- Or it holds one more, within the limit and under the timer. -/
def Holds (r r' : Reassembler) : Prop :=
  r'.oooBytes ≤ r.oooLimit ∧ r'.oooSinceUs.isSome = true

/-- A gap is declared once the pushed segment is held, too. -/
def Jumps (r : Reassembler) (op : ReasmOp) (r' : Reassembler) : Prop :=
  ∃ full : Reassembler, full.Accounted ∧ full.spans = r.spansAt op ∧
    full.heldBytes = r.heldBytes + op.data.length ∧ r' = full.forceGap

theorem releases_refl (r : Reassembler) : r.Releases r := ⟨List.Sublist.refl _, fun _ => rfl⟩

/-- Draining after an append releases at most. -/
theorem Drained.releases {r' : Reassembler} (h : Drained r r') : r.Releases r' :=
  ⟨h.kept, fun hooo => by rw [h.oooSinceUs, if_neg hooo]⟩

/-- What a call can do: declare a gap, or release or hold within the limit. -/
def Outcome (r : Reassembler) (op : ReasmOp) (r' : Reassembler) : Prop :=
  (r.DeclaresGap op ∧ r.Jumps op r') ∨ (¬r.DeclaresGap op ∧ (r.Releases r' ∨ r.Holds r'))

/-- What a push can do to a direction that was started. -/
theorem push_data_cases (h : r.Accounted) (hinit : r.initialized = true) {seq : Seq} {data : Bytes}
    (hdata : data ≠ []) (nowUs : Nat) :
    r.Outcome (.push seq data nowUs) (r.pushData seq data nowUs).1 := by
  unfold Reassembler.pushData
  by_cases hahead : 0 < seqDelta seq r.nextSeq
  · rw [if_neg (not_le.mpr hahead)]
    by_cases hover : (r.hold seq data nowUs).oooBytes > r.oooLimit
    · rw [if_pos hover]
      exact Or.inl ⟨⟨hdata, hinit, hahead, hover⟩, _, h.hold hinit hahead data nowUs, rfl,
        held_bytes_hold r seq data nowUs, rfl⟩
    · rw [if_neg hover]
      refine Or.inr ⟨fun hgap => hover hgap.2.2.2, Or.inr ⟨not_lt.mp hover, ?_⟩⟩
      simp [hold]
  · rw [if_pos (not_lt.mp hahead)]
    refine Or.inr ⟨fun hgap => hahead hgap.2.2.1, Or.inl ?_⟩
    split
    · exact releases_refl r
    · exact (drained_drain_ooo (h.toBalanced.append _)).releases

theorem push_cases (h : r.Accounted) (seq : Seq) (data : Bytes) (nowUs : Nat) :
    r.Outcome (.push seq data nowUs) (r.push seq data nowUs).1 := by
  by_cases hempty : data = []
  · subst hempty
    exact Or.inr ⟨fun hgap => hgap.1 rfl, Or.inl (releases_refl r)⟩
  · have hpushed : r.push seq data nowUs = (r.start seq).pushData seq data nowUs := by
      rw [Reassembler.push, if_neg (by simpa using hempty)]
    rw [hpushed]
    by_cases hinit : r.initialized = true
    · rw [Reassembler.start, if_pos hinit]
      exact push_data_cases h hinit hempty nowUs
    · -- the first segment is in order, since it fixes what is expected
      obtain ⟨hstart, hstarted⟩ := h.start seq
      rw [Reassembler.start, if_neg hinit] at hstart hstarted ⊢
      have houtcome : Outcome _ (.push seq data nowUs) _ :=
        push_data_cases hstart hstarted hempty nowUs
      rcases houtcome with hgap | ⟨-, hquiet⟩
      · have hahead := hgap.1.2.2.1
        rw [seq_delta_self] at hahead
        exact absurd hahead (lt_irrefl _)
      · exact Or.inr ⟨fun hgap => hinit hgap.2.1, hquiet⟩

theorem check_timeout_cases (h : r.Accounted) (nowUs : Nat) :
    r.Outcome (.checkTimeout nowUs) (r.checkTimeout nowUs).1 := by
  unfold Reassembler.checkTimeout
  cases hsince : r.oooSinceUs with
  | none => exact Or.inr ⟨by simp [DeclaresGap, hsince], Or.inl (releases_refl r)⟩
  | some since =>
      by_cases hlate : nowUs - since > r.oooTimeoutUs
      · simp only [hlate, if_true]
        exact Or.inl ⟨⟨since, hsince, hlate⟩, r, h, rfl, rfl, rfl⟩
      · simp only [hlate, if_false]
        exact Or.inr ⟨by simpa [DeclaresGap, hsince] using hlate, Or.inl (releases_refl r)⟩

/-- What any call can do. -/
theorem perform_cases (h : r.Accounted) (op : ReasmOp) : r.Outcome op (r.perform op).1 := by
  cases op with
  | noteSyn seq =>
      refine Or.inr ⟨id, Or.inl ?_⟩
      show r.Releases (r.noteSyn seq)
      unfold Reassembler.noteSyn
      split <;> exact releases_refl r
  | push seq data nowUs => exact push_cases h seq data nowUs
  | checkTimeout nowUs => exact check_timeout_cases h nowUs
  | consume n =>
      obtain ⟨-, -, hooo, -, -, hsince, -⟩ := reads_of_outside_eq (outside_consume r n)
      exact Or.inr ⟨id, Or.inl ⟨hooo ▸ List.Sublist.refl _, fun _ => hsince⟩⟩

/-- No call changes the limits. -/
theorem limits_perform (h : r.Accounted) (op : ReasmOp) :
    (r.perform op).1.oooLimit = r.oooLimit := by
  have hforce : ∀ {r : Reassembler}, r.Accounted → r.forceGap.oooLimit = r.oooLimit :=
    fun h => (drained_force_gap h.toBalanced).oooLimit
  cases op with
  | noteSyn seq =>
      show (r.noteSyn seq).oooLimit = r.oooLimit
      unfold Reassembler.noteSyn
      split <;> rfl
  | push seq data nowUs =>
      show (r.push seq data nowUs).1.oooLimit = r.oooLimit
      have hstart : (r.start seq).oooLimit = r.oooLimit := by
        unfold Reassembler.start
        split <;> rfl
      obtain ⟨hstarted, hinit⟩ := h.start seq
      unfold Reassembler.push Reassembler.pushData
      split
      · rfl
      · split
        · split
          · exact hstart
          · exact (drained_drain_ooo (hstarted.toBalanced.append _)).oooLimit.trans hstart
        · next hlater =>
            split
            · exact (hforce (hstarted.hold hinit (not_le.mp hlater) data nowUs)).trans hstart
            · exact hstart
  | checkTimeout nowUs =>
      show (r.checkTimeout nowUs).1.oooLimit = r.oooLimit
      unfold Reassembler.checkTimeout
      split
      · split
        · exact hforce h
        · rfl
      · rfl
  | consume n => exact (reads_of_outside_eq (outside_consume r n)).2.2.2.2.1

end Reassembler

end H2Tap
