import H2Tap.Reassembly.Accounting

/-!
# Where the bytes of a reassembler come from

`reassembly.rs`, segments in any order. What is true of every byte of the segments that are pushed,
with its sequence number, is true of every byte that is available and of every byte that is held
(`Backed`). No other byte gets in, and a gap only throws some away. Until there is one, it is true
of every byte that the parser has taken, too, from the base on (`Traced`).
-/

namespace H2Tap

/-- `K` is true of every byte of `data`, the first of which has the number `seq`. -/
def EachAt (K : Seq → UInt8 → Prop) (seq : Seq) (data : Bytes) : Prop :=
  ∀ (i : Nat) (b : UInt8), data[i]? = some b → K (seq + BitVec.ofNat 32 i) b

variable {K L : Seq → UInt8 → Prop} {seq : Seq} {data : Bytes}

theorem each_at_nil : EachAt K seq [] := fun _ _ hb => nomatch hb

theorem EachAt.imp (himp : ∀ seq b, K seq b → L seq b) (h : EachAt K seq data) :
    EachAt L seq data := fun i b hb => himp _ b (h i b hb)

theorem EachAt.append (h : EachAt K seq data) {later : Bytes}
    (hlater : EachAt K (seq + BitVec.ofNat 32 data.length) later) :
    EachAt K seq (data ++ later) := by
  intro i b hb
  rcases Nat.lt_or_ge i data.length with hi | hi
  · rw [List.getElem?_append_left hi] at hb
    exact h i b hb
  · rw [List.getElem?_append_right hi] at hb
    have hb := hlater _ b hb
    rwa [BitVec.add_assoc, ← BitVec.ofNat_add, Nat.add_sub_cancel' hi] at hb

theorem EachAt.drop (h : EachAt K seq data) (n : Nat) :
    EachAt K (seq + BitVec.ofNat 32 n) (data.drop n) := by
  intro i b hb
  rw [List.getElem?_drop] at hb
  have hb := h _ b hb
  rwa [BitVec.ofNat_add, ← BitVec.add_assoc] at hb

namespace Reassembler

/-- Every byte that the reassembler has and the parser has not taken is one of which `K` is true. -/
structure Backed (K : Seq → UInt8 → Prop) (r : Reassembler) : Prop where
  available : EachAt K r.nextUnparsedSeq r.available
  held : ∀ segment ∈ r.ooo, EachAt K segment.1 segment.2

variable {r : Reassembler}

theorem backed_of_empty (havailable : r.available = []) (hooo : r.ooo = []) : r.Backed K := by
  constructor
  · rw [havailable]
    exact each_at_nil
  · simp [hooo]

theorem Backed.imp (himp : ∀ seq b, K seq b → L seq b) (h : r.Backed K) : r.Backed L :=
  ⟨h.available.imp himp, fun segment hsegment => (h.held segment hsegment).imp himp⟩

theorem Backed.consume (h : r.Backed K) (n : Nat) : (r.consume n).Backed K := by
  have hsame : (r.consume n).baseSeq = r.baseSeq ∧ (r.consume n).ooo = r.ooo := by
    unfold Reassembler.consume compact
    split <;> exact ⟨rfl, rfl⟩
  obtain ⟨hbase, hooo⟩ := hsame
  constructor
  · rw [available_consume]
    by_cases hn : n ≤ r.available.length
    · have hnext : (r.consume n).nextUnparsedSeq = r.nextUnparsedSeq + BitVec.ofNat 32 n := by
        rw [nextUnparsedSeq, nextUnparsedSeq, seqAt, seqAt, hbase, bufOff_consume, min_eq_left hn,
          BitVec.ofNat_add, BitVec.add_assoc]
      rw [hnext]
      exact h.available.drop n
    · rw [List.drop_eq_nil_of_le (by omega)]
      exact each_at_nil
  · rw [hooo]
    exact h.held

/-- The next byte comes after the available ones. -/
theorem Balanced.next_seq_eq (h : r.Balanced) :
    r.nextSeq = r.nextUnparsedSeq + BitVec.ofNat 32 r.available.length := by
  rw [h.nextSeq, ← h.received, nextUnparsedSeq, seq_at_add]

theorem Backed.append (h : r.Backed K) (hbalanced : r.Balanced) (hdata : EachAt K r.nextSeq data) :
    (r.append data).Backed K := by
  constructor
  · rw [available_append]
    rw [hbalanced.next_seq_eq] at hdata
    exact h.available.append hdata
  · exact h.held

/-- What a segment adds comes next. -/
theorem each_at_tail (hdue : seqDelta seq r.nextSeq ≤ 0) (h : EachAt K seq data) :
    EachAt K r.nextSeq (data.drop (r.overlap seq)) := by
  have hnext : r.nextSeq = seq + BitVec.ofNat 32 (r.overlap seq) := by
    have hint : BitVec.ofInt 32 (seqDelta seq r.nextSeq) = seq - r.nextSeq := BitVec.ofInt_toInt
    have hneg : seqDelta seq r.nextSeq = -(r.overlap seq : Nat) := by
      rw [overlap]
      omega
    rw [hneg, BitVec.ofInt_neg, BitVec.ofInt_natCast] at hint
    generalize BitVec.ofNat 32 (r.overlap seq) = x at hint ⊢
    bv_omega
  have htail := h.drop (r.overlap seq)
  rwa [← hnext] at htail

theorem Backed.release (h : r.Backed K) (hbalanced : r.Balanced) {segment : Seq × Bytes}
    (hfind : r.ooo.find? r.due = some segment) :
    ((r.release segment).appendTail segment).Backed K := by
  have hreleased : (r.release segment).Backed K :=
    ⟨h.available, fun other hother => h.held other (List.mem_of_mem_eraseP hother)⟩
  have hbalanced' : (r.release segment).Balanced := by
    have hheld := held_bytes_release hfind
    refine ⟨hbalanced.received, hbalanced.nextSeq, ?_⟩
    show r.oooBytes - segment.2.length = _
    rw [hbalanced.oooBytes]
    omega
  have hdue : seqDelta segment.1 r.nextSeq ≤ 0 := by simpa [due] using List.find?_some hfind
  unfold appendTail
  split
  · have htail := each_at_tail hdue (h.held segment (List.mem_of_find?_eq_some hfind))
    exact hreleased.append hbalanced' htail
  · exact hreleased

theorem Backed.drain_ooo (h : r.Backed K) (hbalanced : r.Balanced) : r.drainOoo.Backed K := by
  induction r using drainOoo.induct with
  | case1 r segment hfind ih =>
      rw [drain_ooo_of_due hfind]
      exact ih (h.release hbalanced hfind) (hbalanced.release hfind)
  | case2 r hfind hempty =>
      rw [drain_ooo_of_none hfind, if_pos hempty]
      exact ⟨h.available, h.held⟩
  | case3 r hfind hempty =>
      rw [drain_ooo_of_none hfind, if_neg hempty]
      exact h

/-- A gap throws the available bytes away. -/
theorem Backed.force_gap (h : r.Backed K) (hbalanced : r.Balanced) : r.forceGap.Backed K := by
  rw [force_gap_eq]
  exact Backed.drain_ooo ⟨each_at_nil, h.held⟩ hbalanced.jump

theorem Backed.check_timeout (h : r.Backed K) (hbalanced : r.Balanced) (nowUs : Nat) :
    (r.checkTimeout nowUs).1.Backed K := by
  unfold checkTimeout
  split
  · split
    · exact h.force_gap hbalanced
    · exact h
  · exact h

/-- Before the first byte nothing is there. -/
theorem Accounted.empty_of_unstarted (h : r.Accounted) (hinit : r.initialized = false) :
    r.available = [] ∧ r.ooo = [] := by
  obtain ⟨hdelivered, hooo⟩ := h.unstarted hinit
  have hreceived := h.received
  exact ⟨List.eq_nil_of_length_eq_zero (by omega), hooo⟩

theorem Backed.note_syn (h : r.Backed K) (haccounted : r.Accounted) (seq : Seq) :
    (r.noteSyn seq).Backed K := by
  unfold noteSyn
  split
  · exact h
  · next hinit =>
      obtain ⟨havailable, hooo⟩ := haccounted.empty_of_unstarted (by simpa using hinit)
      exact backed_of_empty havailable hooo

theorem Backed.start (h : r.Backed K) (haccounted : r.Accounted) (seq : Seq) :
    (r.start seq).Backed K := by
  unfold Reassembler.start
  split
  · exact h
  · next hinit =>
      obtain ⟨havailable, hooo⟩ := haccounted.empty_of_unstarted (by simpa using hinit)
      exact backed_of_empty havailable hooo

theorem Backed.push (h : r.Backed K) (haccounted : r.Accounted) (hdata : EachAt K seq data)
    (nowUs : Nat) : (r.push seq data nowUs).1.Backed K := by
  unfold Reassembler.push
  split
  · exact h
  · have hstarted := h.start haccounted seq
    obtain ⟨hbalanced, hinit⟩ := haccounted.start seq
    have hheld : ((r.start seq).hold seq data nowUs).Backed K := by
      refine ⟨hstarted.available, fun segment hsegment => ?_⟩
      rcases List.mem_append.mp hsegment with hold | hnew
      · exact hstarted.held segment hold
      · rw [List.mem_singleton.mp hnew]
        exact hdata
    unfold pushData
    split
    · next hdue =>
        split
        · exact hstarted
        · exact (hstarted.append hbalanced.toBalanced (each_at_tail hdue hdata)).drain_ooo
            (hbalanced.toBalanced.append _)
    · next hahead =>
        split
        · exact hheld.force_gap (hbalanced.hold hinit (not_le.mp hahead) data nowUs).toBalanced
        · exact hheld

/-! ## Until the first gap -/

/-- The parser has taken `taken`, and `K` is true of these bytes and of all that it can still take.
The first of them has the number `base`. -/
structure Traced (K : Seq → UInt8 → Prop) (base : Seq) (taken : Bytes) (r : Reassembler) :
    Prop where
  accounted : r.Accounted
  backed : r.Backed K
  base_eq : r.initialized = true → r.baseSeq = base
  length_eq : taken.length = r.bufOff
  each : EachAt K base taken

variable {base : Seq} {taken : Bytes}

theorem traced_new : new.Traced K base [] :=
  ⟨accounted_new, backed_of_empty rfl rfl, fun hinit => Bool.noConfusion hinit, rfl, each_at_nil⟩

/-- Where the parser stands. -/
theorem Traced.next_unparsed_seq (h : r.Traced K base taken) (hinit : r.initialized = true) :
    r.nextUnparsedSeq = base + BitVec.ofNat 32 taken.length := by
  rw [nextUnparsedSeq, seqAt, h.base_eq hinit, h.length_eq]

theorem Traced.consume (h : r.Traced K base taken) (n : Nat) :
    (r.consume n).Traced K base (taken ++ r.available.take n) := by
  have hsame : (r.consume n).initialized = r.initialized ∧ (r.consume n).baseSeq = r.baseSeq := by
    unfold Reassembler.consume compact
    split <;> exact ⟨rfl, rfl⟩
  refine ⟨h.accounted.consume n, h.backed.consume n, ?_, ?_, ?_⟩
  · rw [hsame.1, hsame.2]
    exact h.base_eq
  · rw [List.length_append, List.length_take, bufOff_consume, h.length_eq]
  · cases hinit : r.initialized with
    | false =>
        rw [(h.accounted.empty_of_unstarted hinit).1, List.take_nil, List.append_nil]
        exact h.each
    | true =>
        refine h.each.append ?_
        rw [← h.next_unparsed_seq hinit]
        intro i b hb
        rw [List.getElem?_take] at hb
        split at hb
        · exact h.backed.available i b hb
        · cases hb

/-- A SYN, whose number is the one before the first byte. -/
theorem Traced.note_syn (h : r.Traced K base taken) {seq : Seq} (hseq : seq + 1 = base) :
    (r.noteSyn seq).Traced K base taken := by
  refine ⟨h.accounted.note_syn seq, h.backed.note_syn h.accounted seq, ?_, ?_, h.each⟩
  · unfold noteSyn
    split
    · exact h.base_eq
    · exact fun _ => hseq
  · unfold noteSyn
    split
    · exact h.length_eq
    · exact h.length_eq

/-- A push without a gap does not move the parser, and starts the direction at its segment if
nothing did before. -/
theorem push_base (haccounted : r.Accounted) (hne : data ≠ []) (nowUs : Nat)
    (hgap : (r.push seq data nowUs).2 = false) :
    (r.push seq data nowUs).1.bufOff = r.bufOff ∧
      (r.push seq data nowUs).1.baseSeq = (r.start seq).baseSeq := by
  constructor
  · rcases push_both (rfl : r.outside = r.outside) seq data nowUs with
      ⟨received, hboth, -, -⟩ | ⟨-, hpushed⟩
    · exact hboth.left.bufOff_eq
    · rw [hgap] at hpushed
      cases hpushed
  · have hbalanced := (haccounted.start seq).1.toBalanced
    revert hgap
    rw [push, if_neg (by simpa using hne), pushData]
    split
    · split
      · exact fun _ => rfl
      · exact fun _ => (drained_drain_ooo (hbalanced.append _)).baseSeq
    · split
      · exact fun hgap => Bool.noConfusion hgap
      · exact fun _ => rfl

/-- A push without a gap. If nothing has started the direction, the segment has the first byte. -/
theorem Traced.push (h : r.Traced K base taken) (hdata : EachAt K seq data)
    (hfirst : r.initialized = false → data ≠ [] → seq = base) (nowUs : Nat)
    (hgap : (r.push seq data nowUs).2 = false) :
    (r.push seq data nowUs).1.Traced K base taken := by
  by_cases hne : data = []
  · rw [Reassembler.push, hne]
    exact h
  · obtain ⟨hoff, hbase⟩ := push_base h.accounted hne nowUs hgap
    refine ⟨h.accounted.push seq data nowUs, h.backed.push h.accounted hdata nowUs, fun _ => ?_,
      h.length_eq.trans hoff.symm, h.each⟩
    rw [hbase, Reassembler.start]
    split
    · next hinit => exact h.base_eq hinit
    · next hinit => exact hfirst (by simpa using hinit) hne

end Reassembler

end H2Tap
