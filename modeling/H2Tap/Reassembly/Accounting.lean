import H2Tap.Delivery
import H2Tap.Lib.Run

/-!
# What the counters of a reassembler count

`reassembly.rs`, any operations in any order. `ReasmOp.perform` is one call. The counters of every
reachable reassembler agree with what it holds (`Accounted`): stream offsets count the bytes up to
the end of the buffer, sequence numbers follow the offsets, and what is held comes after what was
delivered. Appending and releasing keep the part of this that also holds inside `drain_ooo`
(`Balanced`); the end of the loop restores the rest.
-/

namespace H2Tap

open Lib

/-- A call of a reassembler. -/
inductive ReasmOp where
  | noteSyn (seq : Seq)
  | push (seq : Seq) (data : Bytes) (nowUs : Nat)
  | checkTimeout (nowUs : Nat)
  | consume (n : Nat)
  deriving DecidableEq

/-- The reassembler after a call, and whether the call declared a gap. -/
def Reassembler.perform (r : Reassembler) : ReasmOp → Reassembler × Bool
  | .noteSyn seq => (r.noteSyn seq, false)
  | .push seq data nowUs => r.push seq data nowUs
  | .checkTimeout nowUs => r.checkTimeout nowUs
  | .consume n => (r.consume n, false)

/-- The bytes of a call that pushes a segment. -/
def ReasmOp.data : ReasmOp → Bytes
  | .push _ data _ => data
  | _ => []

/-- TCP segments carry at most 65535 bytes. -/
def maxSegment : Nat := 65535

namespace Reassembler

/-- The offset and the sequence number of the next byte agree, and so do the held bytes and their
number. -/
structure Balanced (r : Reassembler) : Prop where
  received : r.bufOff + r.available.length = r.deliveredOff
  nextSeq : r.nextSeq = r.seqAt r.deliveredOff
  oooBytes : r.oooBytes = r.heldBytes

/-- The counters of a reassembler between two calls. -/
structure Accounted (r : Reassembler) : Prop extends r.Balanced where
  pos_le : r.pos ≤ r.buf.length
  ahead : ∀ segment ∈ r.ooo, 0 < seqDelta segment.1 r.nextSeq
  unstarted : r.initialized = false → r.deliveredOff = 0 ∧ r.ooo = []

variable {r : Reassembler}

theorem accounted_new : new.Accounted where
  received := rfl
  nextSeq := by simp [new, seqAt]
  oooBytes := rfl
  pos_le := le_refl 0
  ahead := by simp [new]
  unstarted _ := ⟨rfl, rfl⟩

/-! ## Appending and releasing -/

theorem seq_at_add (r : Reassembler) (off n : Nat) :
    r.seqAt off + BitVec.ofNat 32 n = r.seqAt (off + n) := by
  rw [seqAt, seqAt, BitVec.add_assoc, ← BitVec.ofNat_add]

theorem Balanced.append (h : r.Balanced) (data : Bytes) : (r.append data).Balanced where
  received := by
    have hreceived := h.received
    show r.bufOff + (r.append data).available.length = r.deliveredOff + data.length
    rw [available_append, List.length_append]
    omega
  nextSeq := by
    show r.nextSeq + BitVec.ofNat 32 data.length = r.seqAt (r.deliveredOff + data.length)
    rw [h.nextSeq, seq_at_add]
  oooBytes := h.oooBytes

/-- What holds of a reassembler and is kept by appending holds after the tail of a segment was
appended. -/
theorem append_tail_induction {P : Reassembler → Prop} (happend : ∀ data, P r → P (r.append data))
    (h : P r) (segment : Seq × Bytes) : P (r.appendTail segment) := by
  unfold appendTail
  split
  · exact happend _ h
  · exact h

/-- Releasing delivers no more than was held. -/
theorem delivered_drain_ooo (r : Reassembler) : r.deliveredOff ≤ r.drainOoo.deliveredOff ∧
    r.drainOoo.deliveredOff + r.drainOoo.heldBytes ≤ r.deliveredOff + r.heldBytes := by
  induction r using drainOoo.induct with
  | case1 r segment hfind ih =>
      rw [drain_ooo_of_due hfind]
      have hheld := held_bytes_release hfind
      have htail : r.deliveredOff ≤ ((r.release segment).appendTail segment).deliveredOff ∧
          ((r.release segment).appendTail segment).deliveredOff ≤
            r.deliveredOff + segment.2.length ∧
          ((r.release segment).appendTail segment).heldBytes = (r.release segment).heldBytes := by
        unfold appendTail
        split
        · refine ⟨Nat.le_add_right _ _, ?_, rfl⟩
          show r.deliveredOff + (segment.2.drop _).length ≤ _
          rw [List.length_drop]
          omega
        · exact ⟨le_rfl, Nat.le_add_right _ _, rfl⟩
      omega
  | case2 r hfind hempty =>
      rw [drain_ooo_of_none hfind, if_pos hempty]
      exact ⟨le_rfl, le_rfl⟩
  | case3 r hfind hempty =>
      rw [drain_ooo_of_none hfind, if_neg hempty]
      exact ⟨le_rfl, le_rfl⟩

theorem Balanced.release (h : r.Balanced) {segment : Seq × Bytes}
    (hfind : r.ooo.find? r.due = some segment) :
    ((r.release segment).appendTail segment).Balanced := by
  refine append_tail_induction (fun data hreleased => hreleased.append data) ?_ segment
  have hheld := held_bytes_release hfind
  refine ⟨h.received, h.nextSeq, ?_⟩
  show r.oooBytes - segment.2.length = (r.release segment).heldBytes
  rw [h.oooBytes]
  omega

/-- Releasing held segments keeps the counters, the limits and whether the direction started. -/
structure Drained (r r' : Reassembler) : Prop where
  balanced : r'.Balanced
  ahead : ∀ segment ∈ r'.ooo, 0 < seqDelta segment.1 r'.nextSeq
  kept : r'.ooo.Sublist r.ooo
  initialized : r'.initialized = r.initialized
  baseSeq : r'.baseSeq = r.baseSeq
  oooLimit : r'.oooLimit = r.oooLimit
  oooTimeoutUs : r'.oooTimeoutUs = r.oooTimeoutUs
  oooSinceUs : r'.oooSinceUs = if r'.ooo = [] then none else r.oooSinceUs

theorem drained_drain_ooo (h : r.Balanced) : Drained r r.drainOoo := by
  induction r using drainOoo.induct with
  | case1 r segment hfind ih =>
      rw [drain_ooo_of_due hfind]
      obtain ⟨hbalanced, hahead, hkept, hinit, hbase, hlimit, htimeout, hsince⟩ :=
        ih (h.release hfind)
      have hsame : ∀ r' : Reassembler, (r'.appendTail segment).ooo = r'.ooo ∧
          (r'.appendTail segment).initialized = r'.initialized ∧
          (r'.appendTail segment).baseSeq = r'.baseSeq ∧
          (r'.appendTail segment).oooLimit = r'.oooLimit ∧
          (r'.appendTail segment).oooTimeoutUs = r'.oooTimeoutUs ∧
          (r'.appendTail segment).oooSinceUs = r'.oooSinceUs := by
        intro r'
        unfold appendTail
        split <;> exact ⟨rfl, rfl, rfl, rfl, rfl, rfl⟩
      obtain ⟨hooo', hinit', hbase', hlimit', htimeout', hsince'⟩ := hsame (r.release segment)
      rw [hsince'] at hsince
      rw [hooo'] at hkept
      exact ⟨hbalanced, hahead, hkept.trans List.eraseP_sublist, hinit.trans hinit',
        hbase.trans hbase', hlimit.trans hlimit', htimeout.trans htimeout', hsince⟩
  | case2 r hfind hempty =>
      rw [drain_ooo_of_none hfind, if_pos hempty]
      have hnone : r.ooo = [] := List.isEmpty_iff.mp hempty
      refine ⟨⟨h.received, h.nextSeq, h.oooBytes⟩, ?_, List.Sublist.refl _, rfl, rfl, rfl, rfl,
        (if_pos hnone).symm⟩
      intro segment hsegment
      rw [hnone] at hsegment
      cases hsegment
  | case3 r hfind hempty =>
      rw [drain_ooo_of_none hfind, if_neg hempty]
      have hsome : r.ooo ≠ [] := fun hnone => hempty (List.isEmpty_iff.mpr hnone)
      refine ⟨h, ?_, List.Sublist.refl _, rfl, rfl, rfl, rfl, (if_neg hsome).symm⟩
      intro segment hsegment
      have hnot := List.find?_eq_none.mp hfind segment hsegment
      simpa [due] using hnot

/-! ## Gaps -/

/-- Nothing of an empty buffer is consumed. -/
theorem empty_pos_le : 0 ≤ ([] : Bytes).length := le_refl 0

/-- `force_gap` before it releases what the jump reached. -/
def jump (r : Reassembler) : Reassembler :=
  { r with
    gaps := r.gaps + 1
    deliveredOff := r.deliveredOff + (r.gapTarget - r.nextSeq).toNat
    nextSeq := r.gapTarget
    buf := []
    pos := 0
    bufOff := r.deliveredOff + (r.gapTarget - r.nextSeq).toNat
    oooSinceUs := none
    pos_le := empty_pos_le }

theorem force_gap_eq (r : Reassembler) : r.forceGap = r.jump.drainOoo := rfl

/-- Without a held segment there is nothing to jump to. -/
theorem gap_target_of_empty (h : r.ooo = []) : r.gapTarget = r.nextSeq := by
  simp [gapTarget, h]

/-- The jump goes to the held segment that starts first. -/
theorem exists_gap_target (h : r.ooo ≠ []) :
    ∃ segment ∈ r.ooo, r.gapTarget = segment.1 ∧
      ∀ other ∈ r.ooo, (segment.1 - r.nextSeq).toNat ≤ (other.1 - r.nextSeq).toNat := by
  have hstarts : r.ooo.map Prod.fst ≠ [] := by simpa using h
  obtain ⟨target, htarget⟩ : ∃ target,
      (r.ooo.map Prod.fst).argmin (fun s => (s - r.nextSeq).toNat) = some target := by
    rw [← Option.ne_none_iff_exists']
    simpa [List.argmin_eq_none] using hstarts
  have heq : r.gapTarget = target := by rw [gapTarget, htarget, Option.getD_some]
  obtain ⟨segment, hsegment, rfl⟩ := List.mem_map.mp (List.argmin_mem htarget)
  refine ⟨segment, hsegment, heq, fun other hother => ?_⟩
  have hstart : other.1 ∈ r.ooo.map Prod.fst := List.mem_map_of_mem hother
  exact List.le_of_mem_argmin (f := fun s => (s - r.nextSeq).toNat) hstart htarget

theorem Balanced.jump (h : r.Balanced) : r.jump.Balanced where
  received := rfl
  nextSeq := by
    show r.gapTarget = r.seqAt (r.deliveredOff + (r.gapTarget - r.nextSeq).toNat)
    rw [← seq_at_add, ← h.nextSeq, BitVec.ofNat_toNat, BitVec.setWidth_eq]
    bv_omega
  oooBytes := h.oooBytes

/-- A declared gap. -/
theorem drained_force_gap (h : r.Balanced) : Drained r.jump r.forceGap :=
  drained_drain_ooo h.jump

/-! ## Calls -/

theorem Accounted.note_syn (h : r.Accounted) (seq : Seq) : (r.noteSyn seq).Accounted := by
  unfold Reassembler.noteSyn
  split
  · exact h
  · next hinit =>
      obtain ⟨hdelivered, hooo⟩ := h.unstarted (by simpa using hinit)
      refine { received := h.received, nextSeq := ?_, oooBytes := h.oooBytes, pos_le := h.pos_le,
               ahead := ?_, unstarted := fun hnot => nomatch hnot }
      · simp [seqAt, hdelivered]
      · simp [hooo]

theorem Accounted.start (h : r.Accounted) (seq : Seq) :
    (r.start seq).Accounted ∧ (r.start seq).initialized = true := by
  unfold Reassembler.start
  split
  · next hinit => exact ⟨h, hinit⟩
  · next hinit =>
      obtain ⟨hdelivered, hooo⟩ := h.unstarted (by simpa using hinit)
      refine ⟨{ received := h.received, nextSeq := ?_, oooBytes := h.oooBytes, pos_le := h.pos_le,
                ahead := ?_, unstarted := fun hnot => nomatch hnot }, rfl⟩
      · simp [seqAt, hdelivered]
      · simp [hooo]

/-- Draining a reassembler that was started ends between two calls. -/
theorem Drained.accounted {r' : Reassembler} (h : Drained r r') (hinit : r.initialized = true) :
    r'.Accounted where
  toBalanced := h.balanced
  pos_le := r'.pos_le
  ahead := h.ahead
  unstarted hnot := by
    rw [h.initialized, hinit] at hnot
    cases hnot

/-- A gap is declared only where something is held, or nothing changes but the buffer. -/
theorem Accounted.force_gap (h : r.Accounted) : r.forceGap.Accounted := by
  have hdrained := drained_force_gap h.toBalanced
  by_cases hinit : r.initialized = true
  · exact hdrained.accounted hinit
  · obtain ⟨hdelivered, hooo⟩ := h.unstarted (by simpa using hinit)
    have hempty : r.jump.ooo = [] := hooo
    have hforce : r.forceGap = { r.jump with oooSinceUs := none } := by
      rw [force_gap_eq, drain_ooo_of_none (by rw [hempty]; rfl), if_pos (by rw [hempty]; rfl)]
    refine { toBalanced := hdrained.balanced, pos_le := r.forceGap.pos_le, ahead := hdrained.ahead,
             unstarted := fun _ => ?_ }
    rw [hforce]
    refine ⟨?_, hooo⟩
    show r.deliveredOff + (r.gapTarget - r.nextSeq).toNat = 0
    rw [gap_target_of_empty hooo, hdelivered]
    simp

theorem held_bytes_hold (r : Reassembler) (seq : Seq) (data : Bytes) (nowUs : Nat) :
    (r.hold seq data nowUs).heldBytes = r.heldBytes + data.length := by
  simp [heldBytes, hold]

/-- A segment that starts after the next byte is held. -/
theorem Accounted.hold (h : r.Accounted) (hinit : r.initialized = true) {seq : Seq}
    (hahead : 0 < seqDelta seq r.nextSeq) (data : Bytes) (nowUs : Nat) :
    (r.hold seq data nowUs).Accounted where
  received := h.received
  nextSeq := h.nextSeq
  oooBytes := by
    rw [held_bytes_hold, ← h.oooBytes]
    rfl
  pos_le := h.pos_le
  ahead segment hsegment := by
    rcases List.mem_append.mp hsegment with hheld | hnew
    · exact h.ahead segment hheld
    · obtain rfl := List.mem_singleton.mp hnew
      exact hahead
  unstarted hnot := by
    have hstarted : r.initialized = false := hnot
    rw [hinit] at hstarted
    cases hstarted

theorem Accounted.push_data (h : r.Accounted) (hinit : r.initialized = true) (seq : Seq)
    (data : Bytes) (nowUs : Nat) : (r.pushData seq data nowUs).1.Accounted := by
  unfold Reassembler.pushData
  split
  · split
    · exact h
    · exact (drained_drain_ooo (h.toBalanced.append _)).accounted hinit
  · next hahead =>
      have hheld := h.hold hinit (not_le.mp hahead) data nowUs
      split
      · exact hheld.force_gap
      · exact hheld

theorem Accounted.push (h : r.Accounted) (seq : Seq) (data : Bytes) (nowUs : Nat) :
    (r.push seq data nowUs).1.Accounted := by
  unfold Reassembler.push
  split
  · exact h
  · obtain ⟨hstart, hinit⟩ := h.start seq
    exact hstart.push_data hinit seq data nowUs

theorem Accounted.check_timeout (h : r.Accounted) (nowUs : Nat) :
    (r.checkTimeout nowUs).1.Accounted := by
  unfold Reassembler.checkTimeout
  split
  · split
    · exact h.force_gap
    · exact h
  · exact h

theorem Accounted.consume (h : r.Accounted) (n : Nat) : (r.consume n).Accounted := by
  have hfields := reads_of_outside_eq (outside_consume r n)
  obtain ⟨hnext, hbase, hooo, hbytes, -, -, -, hinit, hdelivered, -⟩ := hfields
  have hreceived := h.received
  refine { received := ?_, nextSeq := ?_, oooBytes := ?_, pos_le := (r.consume n).pos_le,
           ahead := ?_, unstarted := ?_ }
  · rw [bufOff_consume, available_consume, List.length_drop, hdelivered]
    omega
  · rw [hnext, hdelivered, h.nextSeq, seqAt, seqAt, hbase]
  · rw [heldBytes, hooo, hbytes]
    exact h.oooBytes
  · rw [hooo, hnext]
    exact h.ahead
  · rw [hinit, hdelivered, hooo]
    exact h.unstarted

/-- Every call keeps the counters. -/
theorem Accounted.perform (h : r.Accounted) (op : ReasmOp) : (r.perform op).1.Accounted := by
  cases op with
  | noteSyn seq => exact h.note_syn seq
  | push seq data nowUs => exact h.push seq data nowUs
  | checkTimeout nowUs => exact h.check_timeout nowUs
  | consume n => exact h.consume n

end Reassembler

end H2Tap
