import H2Tap.Conn.Carrier
import H2Tap.Tracker.Tracker

/-!
# Where payload bytes land

A segment says by its sequence number where its payload belongs in the stream of its direction; a
SYN takes a number of its own, before the first byte. `Sent` is what an endpoint sends, and `Reads`
what the parser finds: the stream from where it stands, as far as it was seen. A segment that leaves
no hole is read in its place unless it is a SYN with new data (`reads_receive_iff`), which
`on_segment` pushes one byte too early.
-/

namespace H2Tap

open Lib

/-- The sequence number of the first byte of the payload. -/
def TcpSegment.dataSeq (seg : TcpSegment) : Seq :=
  if seg.has TcpFlags.syn then seg.seq + 1 else seg.seq

theorem TcpSegment.has_syn_of_fresh {seg : TcpSegment} (h : seg.freshSyn = true) :
    seg.has TcpFlags.syn = true := (Bool.and_eq_true_iff.mp h).1

/-- One direction of a TCP connection: its initial sequence number, and the bytes that are sent. -/
structure Sent where
  isn : Seq
  stream : Bytes

namespace Reassembler

/-- Releasing held segments declares no gap and starts nothing. -/
theorem drain_ooo_keeps (r : Reassembler) :
    r.drainOoo.gaps = r.gaps ∧ r.drainOoo.initialized = r.initialized := by
  induction r using drainOoo.induct with
  | case1 r segment hfind ih =>
      have hsame : ((r.release segment).appendTail segment).gaps = r.gaps ∧
          ((r.release segment).appendTail segment).initialized = r.initialized := by
        unfold appendTail
        split <;> exact ⟨rfl, rfl⟩
      rw [drain_ooo_of_due hfind]
      exact ⟨ih.1.trans hsame.1, ih.2.trans hsame.2⟩
  | case2 r hfind hempty =>
      rw [drain_ooo_of_none hfind, if_pos hempty]
      exact ⟨rfl, rfl⟩
  | case3 r hfind hempty =>
      rw [drain_ooo_of_none hfind, if_neg hempty]
      exact ⟨rfl, rfl⟩

/-- A push that declares no gap counts none. A push of data starts the direction. -/
theorem push_keeps (r : Reassembler) (seq : Seq) (data : Bytes) (nowUs : Nat) :
    ((r.push seq data nowUs).2 = false → (r.push seq data nowUs).1.gaps = r.gaps) ∧
      (data ≠ [] → (r.push seq data nowUs).1.initialized = true) := by
  have hstart : (r.start seq).gaps = r.gaps ∧ (r.start seq).initialized = true := by
    unfold start
    split
    · exact ⟨rfl, by assumption⟩
    · exact ⟨rfl, rfl⟩
  by_cases hempty : data = []
  · subst hempty
    exact ⟨fun _ => rfl, fun h => absurd rfl h⟩
  rw [push, if_neg (by simpa using hempty), pushData]
  split
  · split
    · exact ⟨fun _ => hstart.1, fun _ => hstart.2⟩
    · obtain ⟨hgaps, hinit⟩ := drain_ooo_keeps
        ((r.start seq).append (data.drop ((r.start seq).overlap seq)))
      exact ⟨fun _ => hgaps.trans hstart.1, fun _ => hinit.trans hstart.2⟩
  · split
    · refine ⟨fun hgap => absurd hgap.symm Bool.false_ne_true, fun _ => ?_⟩
      exact (drain_ooo_keeps _).2.trans hstart.2
    · exact ⟨fun _ => hstart.1, fun _ => hstart.2⟩

/-- A push that repeats bytes pushes the rest of them. -/
theorem push_repeated {r : Reassembler} (hinit : r.initialized = true) {seq : Seq} {data : Bytes}
    {n : Nat} (hdelta : seqDelta seq r.nextSeq = -n) (nowUs : Nat) :
    r.push seq data nowUs = r.push r.nextSeq (data.drop n) nowUs := by
  have hfixed (seq : Seq) : r.start seq = r := by rw [start, if_pos hinit]
  have hoverlap : r.overlap seq = n := by
    rw [overlap, hdelta]
    omega
  have hnone : r.overlap r.nextSeq = 0 := by
    rw [overlap, seq_delta_self]
    rfl
  have hdue : seqDelta seq r.nextSeq ≤ 0 := by omega
  by_cases hold : data.length ≤ n
  · have hempty : data.drop n = [] := List.drop_eq_nil_of_le hold
    rw [hempty, push, push, hfixed, pushData, if_pos hdue, hoverlap, if_pos hold]
    split <;> rfl
  · have hdata : ¬data.isEmpty = true := by
      rw [List.isEmpty_iff]
      rintro rfl
      exact hold (Nat.zero_le n)
    have hrest : ¬(data.drop n).isEmpty = true := by
      rw [List.isEmpty_iff, List.drop_eq_nil_iff]
      exact hold
    have hnew : ¬(data.drop n).length ≤ 0 := by
      rw [List.length_drop]
      omega
    rw [push, push, if_neg hdata, if_neg hrest, hfixed, hfixed, pushData, pushData, if_pos hdue,
      if_pos (seq_delta_self _).le, hoverlap, hnone, if_neg hold, if_neg hnew, List.drop_zero]

end Reassembler

namespace Sent

/-- How far before the end of the bytes seen so far a segment starts. -/
def back (s : Sent) (seen : Nat) (seg : TcpSegment) : Nat :=
  (s.isn + 1 + BitVec.ofNat 32 seen - seg.dataSeq).toNat

/-- A segment of the stream that leaves no hole after the first `seen` bytes. It may repeat some of
them, less than half of the number space. -/
structure Continues (s : Sent) (seen : Nat) (seg : TcpSegment) : Prop where
  syn : seg.has TcpFlags.syn = true → seg.seq = s.isn
  place : seg.payload ≠ [] → s.back seen seg ≤ seen ∧ s.back seen seg < 2 ^ 31 ∧
    seg.payload <+: s.stream.drop (seen - s.back seen seg)

instance (s : Sent) (seen : Nat) (seg : TcpSegment) : Decidable (s.Continues seen seg) :=
  decidable_of_iff ((seg.has TcpFlags.syn = true → seg.seq = s.isn) ∧ (seg.payload ≠ [] →
      s.back seen seg ≤ seen ∧ s.back seen seg < 2 ^ 31 ∧
        seg.payload <+: s.stream.drop (seen - s.back seen seg)))
    ⟨fun h => ⟨h.1, h.2⟩, fun h => ⟨h.syn, h.place⟩⟩

/-- How many bytes are seen with a segment. -/
def seenAfter (s : Sent) (seen : Nat) (seg : TcpSegment) : Nat :=
  max seen (seen - s.back seen seg + seg.payload.length)

/-- What a parser finds that reads the stream: its bytes from where it stands, at their sequence
numbers, and no gap. -/
structure Reads (s : Sent) (seen : Nat) (r : Reassembler) : Prop where
  available_eq : r.available = (s.stream.take seen).drop r.offset
  offset_le : r.offset ≤ seen
  seq : r.initialized = true → r.nextUnparsedSeq = s.isn + 1 + BitVec.ofNat 32 r.offset
  gaps : r.gaps = 0

/-- A reassembler that has received the stream in order. -/
structure Follows (s : Sent) (seen : Nat) (r : Reassembler) : Prop where
  carries : r.Carries (s.isn + 1) s.stream seen
  unstarted : r.initialized = false → seen = 0
  gaps : r.gaps = 0

variable {s : Sent} {seen : Nat} {seg : TcpSegment} {r : Reassembler}

theorem follows_new (s : Sent) : s.Follows 0 .new :=
  ⟨Reassembler.carries_new _ _, fun _ => rfl, rfl⟩

theorem Follows.consume (h : s.Follows seen r) (n : Nat) : s.Follows seen (r.consume n) := by
  have hsame : (r.consume n).initialized = r.initialized ∧ (r.consume n).gaps = r.gaps := by
    unfold Reassembler.consume Reassembler.compact
    split <;> exact ⟨rfl, rfl⟩
  obtain ⟨hinit, hgaps⟩ := hsame
  exact ⟨h.carries.consume n, hinit ▸ h.unstarted, hgaps.trans h.gaps⟩

/-- A parser reads what was received in order. -/
theorem Follows.reads (h : s.Follows seen r) : s.Reads seen r := by
  have horder := h.carries.order
  have hreceived := horder.received
  have hsame : (r.start (s.isn + 1)).bufOff = r.bufOff := by
    unfold Reassembler.start
    split <;> rfl
  refine ⟨h.carries.bytes, ?_, fun hinit => ?_, h.gaps⟩
  · rw [hsame] at hreceived
    exact hreceived ▸ Nat.le_add_right _ _
  · have hbase := horder.baseSeq
    rw [Reassembler.start, if_pos hinit] at hbase
    rw [Reassembler.nextUnparsedSeq, Reassembler.seqAt, hbase]
    rfl

/-- The SYN only fixes the base. -/
theorem Follows.note_syn (h : s.Follows seen r) : s.Follows seen (r.noteSyn s.isn) := by
  cases hinit : r.initialized with
  | true => rwa [Reassembler.noteSyn, if_pos hinit]
  | false =>
      have hseen := h.unstarted hinit
      have hsyn : r.noteSyn s.isn = { r with
          baseSeq := s.isn + 1, nextSeq := s.isn + 1, initialized := true, sawSyn := true } := by
        rw [Reassembler.noteSyn, hinit]
        rfl
      have hstart : r.start (s.isn + 1) = { r with
          baseSeq := s.isn + 1, nextSeq := s.isn + 1, initialized := true } := by
        rw [Reassembler.start, hinit]
        rfl
      have horder := h.carries.order
      rw [hstart] at horder
      rw [hsyn]
      exact ⟨⟨⟨rfl, horder.ooo, rfl, horder.nextSeq, horder.received⟩, h.carries.bytes⟩,
        fun hnot => absurd hnot.symm Bool.false_ne_true, h.gaps⟩

/-- A segment that repeats `back` of the bytes seen has the sequence number of the place before
them. -/
theorem data_seq_eq (hback : s.back seen seg ≤ seen) :
    seg.dataSeq = s.isn + 1 + BitVec.ofNat 32 (seen - s.back seen seg) := by
  have hdistance : BitVec.ofNat 32 (s.back seen seg) =
      s.isn + 1 + BitVec.ofNat 32 seen - seg.dataSeq := by
    rw [back, BitVec.ofNat_toNat, BitVec.setWidth_eq]
  have hsum : BitVec.ofNat 32 seen =
      BitVec.ofNat 32 (seen - s.back seen seg) + BitVec.ofNat 32 (s.back seen seg) := by
    rw [← BitVec.ofNat_add, Nat.sub_add_cancel hback]
  generalize BitVec.ofNat 32 (s.back seen seg) = x at hdistance hsum
  generalize BitVec.ofNat 32 (seen - s.back seen seg) = y at hsum ⊢
  rw [hsum] at hdistance
  bv_omega

/-- The next byte is the one after those seen. -/
theorem Follows.next_seq (h : s.Follows seen r) (hinit : r.initialized = true) :
    r.nextSeq = s.isn + 1 + BitVec.ofNat 32 seen := by
  have hnext := h.carries.order.nextSeq
  rwa [Reassembler.start, if_pos hinit] at hnext

/-- A segment without holes, pushed where its payload belongs. -/
theorem Follows.push (h : s.Follows seen r) (hseg : s.Continues seen seg) (nowUs : Nat) :
    s.Follows (s.seenAfter seen seg) (r.push seg.dataSeq seg.payload nowUs).1 := by
  by_cases hempty : seg.payload = []
  · have hsame : s.seenAfter seen seg = seen := by
      rw [seenAfter, hempty, List.length_nil]
      omega
    rw [hsame, hempty]
    exact h
  obtain ⟨hback, hnear, hslice⟩ := hseg.place hempty
  have hseq := data_seq_eq hback
  obtain ⟨hgaps, hinit'⟩ := r.push_keeps seg.dataSeq seg.payload nowUs
  -- what the segment repeats is cut off, and the rest comes next
  have hpush : ∃ data, seg.payload.drop (s.back seen seg) = data ∧
      r.push seg.dataSeq seg.payload nowUs =
        r.push (s.isn + 1 + BitVec.ofNat 32 seen) data nowUs := by
    refine ⟨_, rfl, ?_⟩
    by_cases hzero : s.back seen seg = 0
    · rw [hseq, hzero, Nat.sub_zero, List.drop_zero]
    · have hinit : r.initialized = true := by
        by_contra hnot
        have hseen := h.unstarted (by simpa using hnot)
        omega
      have hdelta : seqDelta seg.dataSeq r.nextSeq = -(s.back seen seg : Nat) := by
        rw [hseq, h.next_seq hinit, seq_delta_near _ (by omega) (by omega)]
        omega
      rw [Reassembler.push_repeated hinit hdelta, h.next_seq hinit]
  obtain ⟨data, hdata, hpush⟩ := hpush
  have hrest : data <+: s.stream.drop seen := by
    rw [← hdata]
    have hdrop := hslice.drop (s.back seen seg)
    rwa [List.drop_drop, Nat.sub_add_cancel hback] at hdrop
  obtain ⟨hgap, -, -, hcarries⟩ := h.carries.push hrest nowUs
  rw [← hpush] at hgap hcarries
  have hseen : s.seenAfter seen seg = seen + data.length := by
    rw [seenAfter, ← hdata, List.length_drop]
    omega
  rw [hseen]
  exact ⟨hcarries, fun hnot => absurd (hinit' hempty) (by rw [hnot]; exact Bool.noConfusion),
    (hgaps hgap).trans h.gaps⟩

end Sent

/-- What the parser finds when a segment arrives: the reassembler after the SYN was noted and the
payload pushed. -/
def Reassembler.onSegment (r : Reassembler) (seg : TcpSegment) (nowUs : Nat) : Reassembler :=
  ((if seg.has TcpFlags.syn then r.noteSyn seg.seq else r).push seg.seq seg.payload nowUs).1

namespace Sent

variable {s : Sent} {seen : Nat} {seg : TcpSegment} {r : Reassembler}

/-- A sequence number that lies before another one. -/
theorem seq_delta_before (seq : Seq) {n : Nat} (hn : n ≤ 2 ^ 31) :
    seqDelta seq (seq + BitVec.ofNat 32 n) = -n := by
  have hsub : seq - (seq + BitVec.ofNat 32 n) = -BitVec.ofNat 32 n := by
    generalize BitVec.ofNat 32 n = x
    bv_omega
  rw [seqDelta, hsub, BitVec.toInt_eq_toNat_cond, BitVec.toNat_neg, BitVec.toNat_ofNat]
  omega

/-- A SYN has the number before the bytes that it repeats. -/
theorem seq_delta_syn (h : s.Follows seen r) (hinit : r.initialized = true)
    (hseg : s.Continues seen seg) (hhas : seg.has TcpFlags.syn = true)
    (hnear : s.back seen seg < 2 ^ 31) :
    seqDelta seg.seq r.nextSeq = -(s.back seen seg + 1 : Nat) := by
  have hdata : seg.dataSeq = s.isn + 1 := by rw [TcpSegment.dataSeq, hhas, hseg.syn hhas]; rfl
  have hrepeated : BitVec.ofNat 32 (s.back seen seg) = BitVec.ofNat 32 seen := by
    rw [back, hdata, BitVec.ofNat_toNat, BitVec.setWidth_eq]
    generalize BitVec.ofNat 32 seen = x
    bv_omega
  have hnext : r.nextSeq = seg.seq + BitVec.ofNat 32 (s.back seen seg + 1) := by
    rw [h.next_seq hinit, hseg.syn hhas, ← hrepeated, BitVec.ofNat_add]
    generalize BitVec.ofNat 32 (s.back seen seg) = x
    bv_omega
  rw [hnext]
  exact seq_delta_before _ (by omega)

/-- What a SYN with a payload pushes: the payload without the first byte that is new. -/
theorem receive_syn (h : s.Follows seen r) (hseg : s.Continues seen seg)
    (hhas : seg.has TcpFlags.syn = true) (hdata : seg.payload ≠ []) (nowUs : Nat) :
    r.onSegment seg nowUs = ((r.noteSyn s.isn).push (s.isn + 1 + BitVec.ofNat 32 seen)
      (seg.payload.drop (s.back seen seg + 1)) nowUs).1 := by
  have hnoted := h.note_syn
  have hinit : (r.noteSyn s.isn).initialized = true := by
    unfold Reassembler.noteSyn
    split
    · assumption
    · rfl
  have hdelta := seq_delta_syn hnoted hinit hseg hhas (hseg.place hdata).2.1
  rw [Reassembler.onSegment, if_pos hhas, hseg.syn hhas]
  rw [hseg.syn hhas] at hdelta
  rw [Reassembler.push_repeated hinit hdelta, hnoted.next_seq hinit]

/-- A segment is read in its place if it is not a SYN with new data. -/
theorem follows_receive (h : s.Follows seen r) (hseg : s.Continues seen seg)
    (hsyn : seg.has TcpFlags.syn = true → s.seenAfter seen seg = seen) (nowUs : Nat) :
    s.Follows (s.seenAfter seen seg) (r.onSegment seg nowUs) := by
  cases hhas : seg.has TcpFlags.syn with
  | false =>
      have hplace : seg.dataSeq = seg.seq := by rw [TcpSegment.dataSeq, hhas]; rfl
      have hpushed := h.push hseg nowUs
      rw [Reassembler.onSegment, hhas]
      rwa [hplace] at hpushed
  | true =>
      have hsame := hsyn hhas
      rw [hsame]
      by_cases hempty : seg.payload = []
      · rw [Reassembler.onSegment, if_pos hhas, hempty, hseg.syn hhas]
        exact h.note_syn
      · obtain ⟨hback, -, -⟩ := hseg.place hempty
        have hrepeats : seg.payload.length ≤ s.back seen seg + 1 := by
          rw [seenAfter] at hsame
          omega
        rw [receive_syn h hseg hhas hempty, List.drop_eq_nil_of_le hrepeats]
        exact h.note_syn

/-- A SYN whose payload is new is read one byte short. -/
theorem not_reads_receive (h : s.Follows seen r) (hseg : s.Continues seen seg)
    (hhas : seg.has TcpFlags.syn = true) (hnew : s.seenAfter seen seg ≠ seen) (nowUs : Nat) :
    ¬s.Reads (s.seenAfter seen seg) (r.onSegment seg nowUs) := by
  intro hreads
  have hdata : seg.payload ≠ [] := by
    intro hempty
    rw [seenAfter, hempty, List.length_nil] at hnew
    omega
  obtain ⟨hback, -, hslice⟩ := hseg.place hdata
  have hmore : s.seenAfter seen seg = seen - s.back seen seg + seg.payload.length ∧
      seen < seen - s.back seen seg + seg.payload.length := by
    rw [seenAfter] at hnew ⊢
    omega
  have hnoted := h.note_syn.carries.order
  have hinit : (r.noteSyn s.isn).initialized = true := by
    unfold Reassembler.noteSyn
    split
    · assumption
    · rfl
  rw [Reassembler.start, if_pos hinit] at hnoted
  obtain ⟨-, havailable, horder⟩ :=
    Reassembler.push_in_order hnoted (seg.payload.drop (s.back seen seg + 1)) nowUs
  have hreceived := hnoted.received
  have hreceived' := horder.received
  have hread := hreads.available_eq
  rw [receive_syn h hseg hhas hdata] at hread
  -- the stream is long enough for what was seen, so the lengths tell
  have hstream : s.seenAfter seen seg ≤ s.stream.length := by
    have hle := hslice.length_le
    rw [List.length_drop] at hle
    have hpos := List.length_pos_iff.mpr hdata
    omega
  have hlength := congrArg List.length hread
  rw [List.length_drop, List.length_take, Reassembler.offset, min_eq_left hstream,
    hmore.1] at hlength
  have hadded := congrArg List.length havailable
  rw [List.length_append, List.length_drop] at hadded
  rw [List.length_drop] at hreceived'
  omega

/-- The parser reads the stream when a segment without holes arrives, if and only if the segment is
not a SYN with new data. -/
theorem reads_receive_iff (h : s.Follows seen r) (hseg : s.Continues seen seg)
    (nowUs : Nat) : s.Reads (s.seenAfter seen seg) (r.onSegment seg nowUs) ↔
      (seg.has TcpFlags.syn = true → s.seenAfter seen seg = seen) := by
  constructor
  · intro hreads hhas
    by_contra hnew
    exact not_reads_receive h hseg hhas hnew nowUs hreads
  · exact fun hsyn => (follows_receive h hseg hsyn nowUs).reads

/-- No more is seen than was sent. -/
theorem seen_after_le (hle : seen ≤ s.stream.length) (hseg : s.Continues seen seg) :
    s.seenAfter seen seg ≤ s.stream.length := by
  rw [seenAfter]
  refine max_le hle ?_
  by_cases hempty : seg.payload = []
  · rw [hempty, List.length_nil]
    omega
  · have hslice := (hseg.place hempty).2.2.length_le
    have hpos := List.length_pos_iff.mpr hempty
    rw [List.length_drop] at hslice
    omega

/-- A parser that has received nothing reads the stream only as long as nothing was seen. -/
theorem unseen_of_reads_new (hle : seen ≤ s.stream.length) (hreads : s.Reads seen .new) :
    seen = 0 := by
  have hlength := congrArg List.length hreads.available_eq
  have hnone : Reassembler.new.available = [] ∧ Reassembler.new.offset = 0 := ⟨rfl, rfl⟩
  rw [hnone.1, hnone.2, List.length_drop, List.length_take, min_eq_left hle,
    List.length_nil] at hlength
  omega

/-- A parser that starts with a SYN reads the stream only if nothing is seen with the SYN. -/
theorem unseen_of_reads_syn (hle : seen ≤ s.stream.length) (hseg : s.Continues seen seg)
    (hhas : seg.has TcpFlags.syn = true) {nowUs : Nat}
    (hreads : s.Reads (s.seenAfter seen seg) (Reassembler.new.onSegment seg nowUs)) :
    s.seenAfter seen seg = 0 := by
  have hnoted := Reassembler.in_order_note_syn s.isn
  -- the first byte of the payload stands before the base, and is dropped
  have hreceive : Reassembler.new.onSegment seg nowUs =
      ((Reassembler.new.noteSyn s.isn).push (s.isn + 1 + BitVec.ofNat 32 0)
        (seg.payload.drop 1) nowUs).1 := by
    have hdelta : seqDelta s.isn (Reassembler.new.noteSyn s.isn).nextSeq = -(1 : Nat) :=
      seq_delta_before s.isn (n := 1) (by decide)
    rw [Reassembler.onSegment, if_pos hhas, hseg.syn hhas,
      Reassembler.push_repeated hnoted.initialized hdelta, hnoted.nextSeq]
  obtain ⟨-, havailable, horder⟩ := Reassembler.push_in_order hnoted (seg.payload.drop 1) nowUs
  rw [← hreceive] at havailable horder
  have hreceived := horder.received
  have hlength := congrArg List.length hreads.available_eq
  rw [List.length_drop, List.length_take, Reassembler.offset,
    min_eq_left (seen_after_le hle hseg)] at hlength
  have hadded := congrArg List.length havailable
  have hnone : (Reassembler.new.noteSyn s.isn).available = [] := rfl
  rw [hnone, List.nil_append, List.length_drop] at hadded
  rw [List.length_drop] at hreceived
  have hseen : seg.payload.length ≤ s.seenAfter seen seg := by
    rw [seenAfter]
    omega
  omega

end Sent

/-! ## Tracked connections -/

section

variable [HuffmanDecoding] {P : Reassembler → Prop} (hconsume : ∀ r n, P r → P (r.consume n))

omit [HuffmanDecoding] in
/-- A segment is pushed after its SYN was noted. -/
theorem Direction.reasm_received (d : Direction) (seg : TcpSegment) (nowUs : Nat) :
    d.reasm.onSegment seg nowUs = ((d.noted seg).reasm.push seg.seq seg.payload nowUs).1 := by
  unfold noted Reassembler.onSegment
  split <;> rfl

include hconsume in
/-- What a segment does to the reassembler of its direction: the parser takes bytes from the front
of it. -/
theorem Direction.reasm_on_segment {d : Direction} {seg : TcpSegment} {nowUs : Nat}
    (h : P (d.reasm.onSegment seg nowUs)) : P (d.onSegment seg nowUs).1.reasm := by
  rw [reasm_received] at h
  unfold onSegment
  split
  · next hempty =>
      rw [List.isEmpty_iff.mp hempty] at h
      exact h
  · exact reasm_feed hconsume h

namespace Conn

/-- What the parser finds when a connection gets a segment. -/
def parserInput (c : Conn) (isC2s : Bool) (seg : TcpSegment) (nowUs : Nat) : Reassembler :=
  (((c.noteFlags isC2s seg nowUs).dir isC2s).dir.reasm.push seg.seq seg.payload nowUs).1

omit [HuffmanDecoding] in
theorem parser_input_eq (c : Conn) (isC2s : Bool) (seg : TcpSegment) (nowUs : Nat) :
    c.parserInput isC2s seg nowUs = (c.dir isC2s).dir.reasm.onSegment seg nowUs := by
  rw [parserInput, (track_note_flags c isC2s seg nowUs).1]
  exact (Direction.reasm_received (c.dirs isC2s) seg nowUs).symm

include hconsume in
/-- What a segment does to the reassemblers of a connection: the parser takes bytes from the front
of the one that received it, and the other one stays as it is. -/
theorem reasm_on_segment {c : Conn} {isC2s : Bool} {seg : TcpSegment} {nowUs : Nat}
    (h : P (c.parserInput isC2s seg nowUs)) :
    P ((c.onSegment isC2s seg nowUs).1.dir isC2s).dir.reasm ∧
      ((c.onSegment isC2s seg nowUs).1.dir (!isC2s)).dir.reasm = (c.dir (!isC2s)).dir.reasm := by
  have hne : (!isC2s) ≠ isC2s := by simp
  rw [parser_input_eq] at h
  show P ((c.onSegment isC2s seg nowUs).1.dirs isC2s).reasm ∧
    ((c.onSegment isC2s seg nowUs).1.dirs (!isC2s)).reasm = _
  rw [dirs_on_segment, Direction.bothOnSegment, Direction.bothOnSegment, if_pos rfl, if_neg hne]
  exact ⟨Direction.reasm_on_segment hconsume h, Direction.reasm_peer_capacities _ _⟩

end Conn

namespace Tracker

omit [HuffmanDecoding] in
/-- The connection that a segment is handed to: the one that uses its addresses, or a new one if
there is room for it. -/
def target (t : Tracker) (seg : EthSegment) (nowUs : Nat) : Option TrackedConn :=
  let k := keyOf seg.src seg.dst
  let conns := if seg.freshSyn then t.conns.erase k else t.conns
  match conns.lookup k with
  | some c => some c
  | none => if conns.entries.length ≥ t.maxConns then none else some (t.openConn seg nowUs)

/-- A segment changes no connection but its own. -/
theorem lookup_on_segment_ne (t : Tracker) {seg : EthSegment} (nowUs : Nat) {k : Key}
    (hne : k ≠ keyOf seg.src seg.dst) :
    (t.onSegment seg nowUs).conns.lookup k = t.conns.lookup k := by
  have hdeliver (t' : Tracker) (c : TrackedConn) (hsame : t'.conns.lookup k = t.conns.lookup k) :
      (t'.deliver (keyOf seg.src seg.dst) c seg nowUs).conns.lookup k = t.conns.lookup k := by
    rw [deliver, AList.lookup_insert_ne hne, hsame]
  -- the table without the connection that a bare SYN replaces
  have hcontinue (t' : Tracker) (hsame : t'.conns.lookup k = t.conns.lookup k) :
      (match t'.conns.lookup (keyOf seg.src seg.dst) with
        | some c => t'.deliver (keyOf seg.src seg.dst) c seg nowUs
        | none =>
            if t'.conns.entries.length ≥ t'.maxConns then
              { t' with rejectedFull := t'.rejectedFull + 1 }
            else t'.deliver (keyOf seg.src seg.dst) (t'.openConn seg nowUs) seg
              nowUs).conns.lookup k = t.conns.lookup k := by
    split
    · exact hdeliver t' _ hsame
    · split
      · exact hsame
      · exact hdeliver t' _ hsame
  refine hcontinue _ ?_
  split
  · exact AList.lookup_erase_ne hne
  · rfl

/-- Its own connection is what becomes of the one that it is handed to. -/
theorem lookup_on_segment {t : Tracker} {seg : EthSegment} {nowUs : Nat} {c : TrackedConn}
    (h : t.target seg nowUs = some c) :
    (t.onSegment seg nowUs).conns.lookup (keyOf seg.src seg.dst) =
      some { c with
        toConn := (c.toConn.onSegment (seg.src == c.client) seg.toTcpSegment nowUs).1 } := by
  have hdeliver (t' : Tracker) :
      (t'.deliver (keyOf seg.src seg.dst) c seg nowUs).conns.lookup (keyOf seg.src seg.dst) =
        some { c with
          toConn := (c.toConn.onSegment (seg.src == c.client) seg.toTcpSegment nowUs).1 } := by
    rw [deliver, AList.lookup_insert]
  unfold target at h
  unfold onSegment
  cases hsyn : seg.freshSyn with
  | true =>
      have hgone : (t.conns.erase (keyOf seg.src seg.dst)).lookup (keyOf seg.src seg.dst) = none :=
        AList.lookup_erase _ _
      simp only [hsyn, if_true, hgone] at h ⊢
      split at h
      · cases h
      · next hroom =>
          obtain rfl := Option.some.inj h
          rw [if_neg hroom]
          exact hdeliver _
  | false =>
      simp only [hsyn, Bool.false_eq_true, if_false] at h ⊢
      cases hfound : t.conns.lookup (keyOf seg.src seg.dst) with
      | some found =>
          simp only [hfound] at h ⊢
          obtain rfl := Option.some.inj h
          exact hdeliver _
      | none =>
          simp only [hfound] at h ⊢
          split at h
          · cases h
          · next hroom =>
              obtain rfl := Option.some.inj h
              rw [if_neg hroom]
              exact hdeliver _

omit [HuffmanDecoding] in
/-- A segment goes to the connection that there is, or opens one. -/
theorem target_cases {t : Tracker} {seg : EthSegment} {nowUs : Nat} {c : TrackedConn}
    (h : t.target seg nowUs = some c) :
    (seg.freshSyn = false ∧ t.conns.lookup (keyOf seg.src seg.dst) = some c) ∨
      c = t.openConn seg nowUs ∧
        (seg.freshSyn = true ∨ t.conns.lookup (keyOf seg.src seg.dst) = none) := by
  have hopened {conns : Table Key TrackedConn}
      (h : (if conns.entries.length ≥ t.maxConns then none else some (t.openConn seg nowUs)) =
        some c) : c = t.openConn seg nowUs := by
    split at h
    · cases h
    · exact (Option.some.inj h).symm
  unfold target at h
  cases hsyn : seg.freshSyn with
  | true =>
      simp only [hsyn, if_true, AList.lookup_erase] at h
      exact Or.inr ⟨hopened h, Or.inl rfl⟩
  | false =>
      simp only [hsyn, Bool.false_eq_true, if_false] at h
      split at h
      · next found hfound =>
          obtain rfl := Option.some.inj h
          exact Or.inl ⟨rfl, hfound⟩
      · next hnone => exact Or.inr ⟨hopened h, Or.inr hnone⟩

/-- If it does neither, there is no connection. -/
theorem lookup_on_segment_of_none {t : Tracker} {seg : EthSegment} {nowUs : Nat}
    (h : t.target seg nowUs = none) :
    (t.onSegment seg nowUs).conns.lookup (keyOf seg.src seg.dst) = none := by
  unfold target at h
  unfold onSegment
  cases hsyn : seg.freshSyn with
  | true =>
      have hgone : (t.conns.erase (keyOf seg.src seg.dst)).lookup (keyOf seg.src seg.dst) = none :=
        AList.lookup_erase _ _
      simp only [hsyn, if_true, hgone] at h ⊢
      split at h
      · next hfull =>
          rw [if_pos hfull]
          exact hgone
      · cases h
  | false =>
      simp only [hsyn, Bool.false_eq_true, if_false] at h ⊢
      cases hfound : t.conns.lookup (keyOf seg.src seg.dst) with
      | some found =>
          simp only [hfound] at h
          cases h
      | none =>
          simp only [hfound] at h ⊢
          split at h
          · next hfull =>
              rw [if_pos hfull]
              exact hfound
          · cases h

/-- A connection that is left after a tick was there before. -/
theorem exists_of_lookup_tick {t : Tracker} {nowUs : Nat} {k : Key} {c : TrackedConn}
    (h : c ∈ (t.tick nowUs).conns.lookup k) :
    ∃ before ∈ t.conns.lookup k, c = { before with toConn := before.toConn.tick nowUs } := by
  have h : c ∈ (t.conns.update fun c =>
      if t.keeps nowUs { c with toConn := c.toConn.tick nowUs } then
        some { c with toConn := c.toConn.tick nowUs } else none).lookup k := h
  rw [Table.lookup_update] at h
  obtain ⟨before, hbefore, hkept⟩ := Option.bind_eq_some_iff.mp h
  split at hkept
  · exact ⟨before, hbefore, (Option.some.inj hkept).symm⟩
  · cases hkept

omit [HuffmanDecoding] in
/-- The directions of a connection that a segment opens. Only the client's may start with the
preface. -/
theorem dir_open_conn (t : Tracker) (seg : EthSegment) (nowUs : Nat) (isC2s : Bool) :
    (t.openConn seg nowUs).dir isC2s =
      .new seg.freshSyn (isC2s && seg.freshSyn) t.tableLimit := by
  cases isC2s <;> rfl

omit [HuffmanDecoding] in
/-- A bare SYN opens a connection, if there is room without the one that used the addresses. -/
theorem target_of_fresh_syn {t : Tracker} {seg : EthSegment} (hsyn : seg.freshSyn = true)
    (nowUs : Nat) : t.target seg nowUs =
      if (t.conns.erase (keyOf seg.src seg.dst)).entries.length < t.maxConns then
        some (t.openConn seg nowUs)
      else none := by
  unfold target
  simp only [hsyn, if_true, AList.lookup_erase]
  by_cases hroom : (t.conns.erase (keyOf seg.src seg.dst)).entries.length < t.maxConns
  · rw [if_neg (not_le.mpr hroom), if_pos hroom]
  · rw [if_pos (not_lt.mp hroom), if_neg hroom]

omit [HuffmanDecoding] in
/-- Any other segment is handed to the connection that uses its addresses. -/
theorem target_of_lookup {t : Tracker} {seg : EthSegment} {c : TrackedConn}
    (hsyn : seg.freshSyn = false) (h : t.conns.lookup (keyOf seg.src seg.dst) = some c)
    (nowUs : Nat) : t.target seg nowUs = some c := by
  unfold target
  simp only [hsyn, Bool.false_eq_true, if_false, h]

omit [HuffmanDecoding] in
/-- A connection opens with nothing received, and with the sender of a bare SYN as the client. -/
theorem open_conn_of_fresh_syn (t : Tracker) {seg : EthSegment} (hsyn : seg.freshSyn = true)
    (nowUs : Nat) : (t.openConn seg nowUs).client = seg.src ∧
      ∀ isC2s, ((t.openConn seg nowUs).dir isC2s).dir.reasm = .new := by
  have hclient : (t.openConn seg nowUs).client = (t.endpoints seg).1 := rfl
  refine ⟨by rw [hclient, endpoints, hsyn, if_pos rfl], fun isC2s => ?_⟩
  rw [dir_open_conn, hsyn]
  rfl

end Tracker

end

/-- A segment between the endpoints of the reference connection. -/
def referenceSegment (isC2s : Bool) (seq : Seq) (flags : UInt8) (payload : Bytes) : EthSegment where
  seq := seq
  flags := flags
  payload := payload
  ethDst := Pkt.clientEndpoint.ethDst
  ethSrc := Pkt.clientEndpoint.ethSrc
  src := if isC2s then Pkt.clientAddr else Pkt.serverAddr
  dst := if isC2s then Pkt.serverAddr else Pkt.clientAddr
  ackSeq := 0

end H2Tap
