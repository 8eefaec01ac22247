import H2Tap.Delivery

/-!
# No byte that was pushed is lost

As long as no gap is declared, every byte of a slice that was pushed was delivered to the buffer or
is held (`has_byte_push`). What is held comes after a hole, so once every byte of the stream was
pushed, all of it was delivered (`delivered_of_all`).
-/

namespace H2Tap.Reassembler

/-- Byte `i` of the stream that starts at `base` was delivered, or is part of a segment that is held
and starts less than half of the number space after `low`. -/
def HasByte (base : Seq) (low : Nat) (r : Reassembler) (i : Nat) : Prop :=
  i < r.deliveredOff ∨ ∃ segment ∈ r.ooo, ∃ a, segment.1 = base + BitVec.ofNat 32 a ∧ low < a ∧
    a < low + 2 ^ 31 ∧ a ≤ i ∧ i < a + segment.2.length

variable {base : Seq} {stream : Bytes} {low k i : Nat} {r : Reassembler}

/-- Taking a due segment out and appending what it adds. -/
theorem has_byte_release (h : r.Collecting base stream low k) {segment : Seq × Bytes}
    (hfind : r.ooo.find? r.due = some segment) (hbyte : r.HasByte base low i) :
    ((r.release segment).appendTail segment).HasByte base low i := by
  obtain ⟨hdue, before, after, hooo, hnone⟩ := List.find?_eq_some_iff_append.mp hfind
  have herase : r.ooo.eraseP r.due = before ++ after := by
    rw [hooo, List.eraseP_append_right _ (by simpa using hnone), List.eraseP_cons_of_pos hdue]
  have hkept : ((r.release segment).appendTail segment).ooo = before ++ after := by
    rw [← herase]
    unfold appendTail
    split <;> rfl
  have hmore : r.deliveredOff ≤ ((r.release segment).appendTail segment).deliveredOff := by
    unfold appendTail
    split
    · exact Nat.le_add_right _ _
    · exact le_refl _
  rcases hbyte with hdelivered | ⟨other, hother, a, hseq, hlow, hhigh, hle, hlt⟩
  · exact Or.inl (hdelivered.trans_le hmore)
  · by_cases hsame : other = segment
    · subst hsame
      left
      obtain ⟨hdue_iff, hoverlap⟩ := h.due_iff hseq hlow hhigh
      have ha := hdue_iff.mp hdue
      have hoverlap' : (r.release other).overlap other.1 = k - a := hoverlap ha
      have hdelivered := h.deliveredOff
      unfold appendTail
      rw [hoverlap']
      split
      · show i < r.deliveredOff + (other.2.drop (k - a)).length
        rw [List.length_drop]
        omega
      · show i < r.deliveredOff
        omega
    · refine Or.inr ⟨other, ?_, a, hseq, hlow, hhigh, hle, hlt⟩
      rw [hooo, List.mem_append, List.mem_cons] at hother
      rw [hkept, List.mem_append]
      exact hother.imp_right fun hafter => hafter.resolve_left hsame

/-- Releasing what is due loses nothing. -/
theorem has_byte_drain_ooo (h : r.Collecting base stream low k) (hbyte : r.HasByte base low i) :
    r.drainOoo.HasByte base low i := by
  induction r using drainOoo.induct generalizing k with
  | case1 r segment hfind ih =>
      rw [drain_ooo_of_due hfind]
      obtain ⟨⟨data, -, -, hcollecting⟩, -⟩ := extends_release h hfind
      exact ih hcollecting (has_byte_release h hfind hbyte)
  | case2 r hfind hempty =>
      rw [drain_ooo_of_none hfind, if_pos hempty]
      exact hbyte
  | case3 r hfind hempty =>
      rw [drain_ooo_of_none hfind, if_neg hempty]
      exact hbyte

/-- With nothing due, all that is held comes after what was delivered. -/
theorem HasByte.collected (h : r.Collecting base stream low k)
    (hnone : ∀ segment ∈ r.ooo, r.due segment = false) (hbyte : r.HasByte base low i) :
    r.HasByte base k i := by
  refine hbyte.imp_right fun ⟨segment, hsegment, a, hseq, hlow, hhigh, hle, hlt⟩ => ?_
  have hlow_le := h.low_le
  have hlater : k < a := by
    by_contra hnot
    have hdue := (h.due_iff hseq hlow hhigh).1.mpr (not_lt.mp hnot)
    rw [hnone segment hsegment] at hdue
    cases hdue
  exact ⟨segment, hsegment, a, hseq, hlater, by omega, hle, hlt⟩

/-- Data within the window that is pushed without a gap: its bytes are had, and no other is lost. -/
theorem has_byte_push (h : r.Collected base stream k) {a : Nat} {data : Bytes}
    (hlow : k < a + 2 ^ 31) (hhigh : a < k + 2 ^ 31) (hlength : data.length < 2 ^ 30) (nowUs : Nat)
    (hgap : (r.push (base + BitVec.ofNat 32 a) data nowUs).2 = false)
    (hbyte : r.HasByte base k i ∨ a ≤ i ∧ i < a + data.length) :
    let pushed := (r.push (base + BitVec.ofNat 32 a) data nowUs).1
    pushed.HasByte base pushed.deliveredOff i := by
  have hdelivered := h.collecting.deliveredOff
  by_cases hempty : data.isEmpty = true
  · simp only [push, hempty, if_true]
    rw [List.isEmpty_iff.mp hempty, List.length_nil] at hbyte
    rw [hdelivered]
    exact hbyte.resolve_right (by omega)
  · have hstart : r.start (base + BitVec.ofNat 32 a) = r := by
      simp only [start, h.collecting.initialized, if_true]
    have hdelta : seqDelta (base + BitVec.ofNat 32 a) r.nextSeq = (a : Int) - k := by
      rw [h.collecting.nextSeq]
      exact seq_delta_near base hhigh hlow
    have hoverlap : r.overlap (base + BitVec.ofNat 32 a) = k - a := by
      simp only [overlap, hdelta]
      omega
    have hheld := h.collecting.oooBytes
    have hwithin := h.within
    have hlimit := h.limit
    simp only [defaultOooLimit] at hlimit
    revert hgap
    simp only [push, hempty, hstart, pushData, hdelta, hoverlap, Bool.false_eq_true, if_false]
    by_cases hdue : (a : Int) - k ≤ 0
    · simp only [hdue, if_true]
      split
      · intro _
        rw [hdelivered]
        refine hbyte.elim id fun hnew => Or.inl ?_
        show i < r.deliveredOff
        omega
      · intro _
        have hbudget : k + (data.drop (k - a)).length - k + r.heldBytes < 2 ^ 31 := by
          rw [List.length_drop]
          omega
        have happend := h.collecting.append hbudget
        have hbyte' : (r.append (data.drop (k - a))).HasByte base k i := by
          rcases hbyte with (hold | hheld) | hnew
          · exact Or.inl (Nat.lt_of_lt_of_le hold (Nat.le_add_right _ _))
          · exact Or.inr hheld
          · left
            show i < r.deliveredOff + (data.drop (k - a)).length
            rw [List.length_drop]
            omega
        obtain ⟨⟨⟨later, -, -, hcollecting⟩, -⟩, hnone⟩ := extends_drain_ooo happend
        rw [hcollecting.deliveredOff]
        exact (has_byte_drain_ooo happend hbyte').collected hcollecting hnone
    · simp only [hdue, if_false]
      split
      · intro hgap
        cases hgap
      · intro _
        show (r.hold (base + BitVec.ofNat 32 a) data nowUs).HasByte base r.deliveredOff i
        rw [hdelivered]
        rcases hbyte with (hold | ⟨segment, hsegment, hplace⟩) | hnew
        · exact Or.inl hold
        · exact Or.inr ⟨segment, List.mem_append_left _ hsegment, hplace⟩
        · exact Or.inr ⟨(base + BitVec.ofNat 32 a, data), by simp [hold], a, rfl, by omega, hhigh,
            hnew.1, hnew.2⟩

/-- Once every byte of the stream was pushed, all of it was delivered. -/
theorem delivered_of_all {n : Nat} (hall : ∀ i < n, r.HasByte base r.deliveredOff i) :
    n ≤ r.deliveredOff := by
  by_contra hnot
  rcases hall r.deliveredOff (not_le.mp hnot) with hlt | ⟨_, -, a, -, hlow, -, hle, -⟩
  · exact absurd hlt (lt_irrefl _)
  · omega

/-- Which bytes are had does not depend on the buffer. -/
theorem has_byte_congr {r' : Reassembler} (h : r'.outside = r.outside) :
    r'.HasByte base low i ↔ r.HasByte base low i := by
  obtain ⟨-, -, hooo, -, -, -, -, -, hdelivered, -⟩ := reads_of_outside_eq h
  rw [HasByte, HasByte, hooo, hdelivered]

end H2Tap.Reassembler
