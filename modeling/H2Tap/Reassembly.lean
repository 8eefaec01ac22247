import H2Tap.Basic

/-!
# Single-direction TCP reassembly

`reassembly.rs`. Segments that are next in order are appended to a buffer of unconsumed bytes, later
ones are held until the hole before them is filled or given up on. The consumed prefix of the buffer
is at most the buffer, which is a field of `Reassembler`. Stream offsets are unbounded; sequence
numbers wrap.
-/

namespace H2Tap

/-- `DEFAULT_OOO_LIMIT`. -/
def defaultOooLimit : Nat := 2 ^ 20

/-- `DEFAULT_OOO_TIMEOUT_US`. -/
def defaultOooTimeoutUs : Nat := 2000000

/-- `COMPACT_THRESHOLD`. -/
def compactThreshold : Nat := 2 ^ 16

/-- The signed distance from `b` to `a`: `a.wrapping_sub(b) as i32`. -/
def seqDelta (a b : Seq) : Int := (a - b).toInt

@[simp] theorem seq_delta_self (a : Seq) : seqDelta a a = 0 := by simp [seqDelta]

structure Reassembler where
  baseSeq : Seq
  nextSeq : Seq
  deliveredOff : Nat
  buf : Bytes
  pos : Nat
  bufOff : Nat
  ooo : List (Seq × Bytes)
  oooBytes : Nat
  oooSinceUs : Option Nat
  oooLimit : Nat
  oooTimeoutUs : Nat
  initialized : Bool
  sawSyn : Bool
  gaps : Nat
  bytes : Nat
  pos_le : pos ≤ buf.length
  deriving DecidableEq

namespace Reassembler

/-- `Reassembler::new`. -/
def new : Reassembler where
  baseSeq := 0
  nextSeq := 0
  deliveredOff := 0
  buf := []
  pos := 0
  bufOff := 0
  ooo := []
  oooBytes := 0
  oooSinceUs := none
  oooLimit := defaultOooLimit
  oooTimeoutUs := defaultOooTimeoutUs
  initialized := false
  sawSyn := false
  gaps := 0
  bytes := 0
  pos_le := le_refl 0

/-- `Reassembler::note_syn`: data starts one past the SYN. -/
def noteSyn (r : Reassembler) (seq : Seq) : Reassembler :=
  if r.initialized then r
  else { r with baseSeq := seq + 1, nextSeq := seq + 1, initialized := true, sawSyn := true }

/-- `Reassembler::available`. -/
def available (r : Reassembler) : Bytes := r.buf.drop r.pos

/-- `Reassembler::offset`. -/
def offset (r : Reassembler) : Nat := r.bufOff

/-- `Reassembler::seq_at`. -/
def seqAt (r : Reassembler) (off : Nat) : Seq := r.baseSeq + BitVec.ofNat 32 off

/-- `Reassembler::next_unparsed_seq`. -/
def nextUnparsedSeq (r : Reassembler) : Seq := r.seqAt r.bufOff

/-- `consume` before compaction. -/
def advance (r : Reassembler) (n : Nat) (h : r.pos + n ≤ r.buf.length) : Reassembler :=
  { r with pos := r.pos + n, bufOff := r.bufOff + n, pos_le := h }

/-- Drop the consumed prefix of the buffer once it is large. -/
def compact (r : Reassembler) : Reassembler :=
  if r.pos ≥ compactThreshold then
    { r with buf := r.buf.drop r.pos, pos := 0, pos_le := Nat.zero_le _ }
  else r

/-- `Reassembler::consume`. -/
def consume (r : Reassembler) (n : Nat) : Reassembler :=
  (r.advance (min n (r.buf.length - r.pos)) (by have := r.pos_le; omega)).compact

/-- `Reassembler::append`. -/
def append (r : Reassembler) (data : Bytes) : Reassembler :=
  { r with
    buf := r.buf ++ data
    nextSeq := r.nextSeq + BitVec.ofNat 32 data.length
    deliveredOff := r.deliveredOff + data.length
    bytes := r.bytes + data.length
    pos_le := by
      rw [List.length_append]
      exact Nat.le_add_right_of_le r.pos_le }

/-- A held segment that starts at or before the next expected byte. -/
def due (r : Reassembler) (segment : Seq × Bytes) : Bool := seqDelta segment.1 r.nextSeq ≤ 0

/-- How far a segment starts before the next expected byte. -/
def overlap (r : Reassembler) (seq : Seq) : Nat := (-seqDelta seq r.nextSeq).toNat

/-- Append what a segment adds to the bytes delivered so far. -/
def appendTail (r : Reassembler) (segment : Seq × Bytes) : Reassembler :=
  if r.overlap segment.1 < segment.2.length then r.append (segment.2.drop (r.overlap segment.1))
  else r

/-- Take the first due segment out of the held ones. -/
def release (r : Reassembler) (segment : Seq × Bytes) : Reassembler :=
  { r with ooo := r.ooo.eraseP r.due, oooBytes := r.oooBytes - segment.2.length }

/-- `Reassembler::drain_ooo`. -/
def drainOoo (r : Reassembler) : Reassembler :=
  match _h : r.ooo.find? r.due with
  | some segment => drainOoo ((r.release segment).appendTail segment)
  | none => if r.ooo.isEmpty then { r with oooSinceUs := none } else r
termination_by r.ooo.length
decreasing_by
  have hdue := List.find?_some _h
  have hmem := List.mem_of_find?_eq_some _h
  have hlength := List.length_eraseP_of_mem hmem hdue
  have hpos := List.length_pos_of_mem hmem
  unfold appendTail
  split <;> simp only [append, release] <;> omega

/-- The earliest held segment by wrapped distance, where `force_gap` jumps to. -/
def gapTarget (r : Reassembler) : Seq :=
  ((r.ooo.map Prod.fst).argmin fun s => (s - r.nextSeq).toNat).getD r.nextSeq

/-- `Reassembler::force_gap`: give up on a hole and drop what is pending before it. -/
def forceGap (r : Reassembler) : Reassembler :=
  { r with
    gaps := r.gaps + 1
    deliveredOff := r.deliveredOff + (r.gapTarget - r.nextSeq).toNat
    nextSeq := r.gapTarget
    buf := []
    pos := 0
    bufOff := r.deliveredOff + (r.gapTarget - r.nextSeq).toNat
    oooSinceUs := none
    pos_le := le_refl 0 }.drainOoo

/-- The first segment fixes the base when there was no SYN. -/
def start (r : Reassembler) (seq : Seq) : Reassembler :=
  if r.initialized then r else { r with baseSeq := seq, nextSeq := seq, initialized := true }

/-- Hold a segment that starts after a hole. -/
def hold (r : Reassembler) (seq : Seq) (data : Bytes) (nowUs : Nat) : Reassembler :=
  { r with
    ooo := r.ooo ++ [(seq, data)]
    oooBytes := r.oooBytes + data.length
    oooSinceUs := r.oooSinceUs.or (some nowUs) }

/-- `push` once the direction is initialized. -/
def pushData (r : Reassembler) (seq : Seq) (data : Bytes) (nowUs : Nat) : Reassembler × Bool :=
  if seqDelta seq r.nextSeq ≤ 0 then
    -- in order, or a retransmission of which only the new tail counts
    if r.overlap seq ≥ data.length then (r, false)
    else ((r.append (data.drop (r.overlap seq))).drainOoo, false)
  else if (r.hold seq data nowUs).oooBytes > r.oooLimit then
    ((r.hold seq data nowUs).forceGap, true)
  else (r.hold seq data nowUs, false)

/-- `Reassembler::push`: one segment; true if a gap was declared. -/
def push (r : Reassembler) (seq : Seq) (data : Bytes) (nowUs : Nat) : Reassembler × Bool :=
  if data.isEmpty then (r, false) else (r.start seq).pushData seq data nowUs

/-- `Reassembler::check_timeout`. -/
def checkTimeout (r : Reassembler) (nowUs : Nat) : Reassembler × Bool :=
  match r.oooSinceUs with
  | some since => if nowUs - since > r.oooTimeoutUs then (r.forceGap, true) else (r, false)
  | none => (r, false)

/-! ## Consuming and appending -/

@[simp] theorem available_compact (r : Reassembler) : r.compact.available = r.available := by
  unfold compact
  split
  · simp [available]
  · rfl

@[simp] theorem bufOff_compact (r : Reassembler) : r.compact.bufOff = r.bufOff := by
  unfold compact
  split <;> rfl

@[simp] theorem available_advance (r : Reassembler) (n : Nat) (h : r.pos + n ≤ r.buf.length) :
    (r.advance n h).available = r.available.drop n := by simp [available, advance]

@[simp] theorem available_consume (r : Reassembler) (n : Nat) :
    (r.consume n).available = r.available.drop n := by
  rw [consume, available_compact, available_advance]
  simp only [available, List.drop_drop]
  rcases le_total n (r.buf.length - r.pos) with h | h
  · rw [min_eq_left h]
  · rw [min_eq_right h, List.drop_eq_nil_of_le (by omega), List.drop_eq_nil_of_le (by omega)]

theorem bufOff_consume (r : Reassembler) (n : Nat) :
    (r.consume n).bufOff = r.bufOff + min n r.available.length := by
  simp only [consume, bufOff_compact, advance, available, List.length_drop]

@[simp] theorem available_append (r : Reassembler) (data : Bytes) :
    (r.append data).available = r.available ++ data := by
  simp only [available, append]
  exact List.drop_append_of_le_length r.pos_le

/-- A due segment is taken out and the loop goes on. -/
theorem drain_ooo_of_due {r : Reassembler} {segment : Seq × Bytes}
    (h : r.ooo.find? r.due = some segment) :
    r.drainOoo = ((r.release segment).appendTail segment).drainOoo := by
  rw [drainOoo]
  split
  · next s hs =>
      rw [h] at hs
      cases hs
      rfl
  · next hs => simp [h] at hs

/-- Without a due segment the loop ends. -/
theorem drain_ooo_of_none {r : Reassembler} (h : r.ooo.find? r.due = none) :
    r.drainOoo = if r.ooo.isEmpty then { r with oooSinceUs := none } else r := by
  rw [drainOoo]
  split
  · next s hs => simp [h] at hs
  · rfl

/-! ## Segments in order -/

/-- `k` bytes were received in order from `base` on, and nothing is held. -/
structure InOrder (r : Reassembler) (base : Seq) (k : Nat) : Prop where
  initialized : r.initialized = true
  ooo : r.ooo = []
  baseSeq : r.baseSeq = base
  nextSeq : r.nextSeq = base + BitVec.ofNat 32 k
  received : r.bufOff + r.available.length = k

theorem in_order_note_syn (seq : Seq) : (new.noteSyn seq).InOrder (seq + 1) 0 :=
  ⟨rfl, rfl, rfl, by simp [noteSyn, new], rfl⟩

theorem InOrder.consume {r : Reassembler} {base : Seq} {k : Nat} (h : r.InOrder base k) (n : Nat) :
    (r.consume n).InOrder base k := by
  have hfields : (r.consume n).initialized = r.initialized ∧ (r.consume n).ooo = r.ooo ∧
      (r.consume n).baseSeq = r.baseSeq ∧ (r.consume n).nextSeq = r.nextSeq := by
    unfold Reassembler.consume compact
    split <;> exact ⟨rfl, rfl, rfl, rfl⟩
  have hreceived := h.received
  refine ⟨hfields.1.trans h.initialized, hfields.2.1.trans h.ooo, hfields.2.2.1.trans h.baseSeq,
    hfields.2.2.2.trans h.nextSeq, ?_⟩
  rw [bufOff_consume, available_consume, List.length_drop]
  omega

/-- The next segment in order is appended to the buffer. -/
theorem push_in_order {r : Reassembler} {base : Seq} {k : Nat} (h : r.InOrder base k) (data : Bytes)
    (nowUs : Nat) :
    (r.push (base + BitVec.ofNat 32 k) data nowUs).2 = false ∧
      (r.push (base + BitVec.ofNat 32 k) data nowUs).1.available = r.available ++ data ∧
      (r.push (base + BitVec.ofNat 32 k) data nowUs).1.InOrder base (k + data.length) := by
  cases data with
  | nil => exact ⟨rfl, by simp [push], h⟩
  | cons x xs =>
      have hstart : r.start r.nextSeq = r := by simp [start, h.initialized]
      have hoverlap : r.overlap r.nextSeq = 0 := by simp [overlap]
      have hdrain : (r.append (x :: xs)).drainOoo =
          { r.append (x :: xs) with oooSinceUs := none } := by
        rw [drain_ooo_of_none (by simp [append, h.ooo])]
        simp [append, h.ooo]
      have hpush : r.push (base + BitVec.ofNat 32 k) (x :: xs) nowUs =
          ({ r.append (x :: xs) with oooSinceUs := none }, false) := by
        rw [← h.nextSeq]
        simp only [push, List.isEmpty_cons, Bool.false_eq_true, if_false, hstart, pushData,
          seq_delta_self, le_refl, if_true, hoverlap, List.drop_zero, hdrain]
        simp
      rw [hpush]
      have happend := available_append r (x :: xs)
      have hreceived := h.received
      refine ⟨rfl, happend, h.initialized, h.ooo, h.baseSeq, ?_, ?_⟩
      · show r.nextSeq + BitVec.ofNat 32 (x :: xs).length = _
        rw [h.nextSeq, BitVec.add_assoc, ← BitVec.ofNat_add]
      · show r.bufOff + (r.append (x :: xs)).available.length = _
        rw [happend, List.length_append]
        omega

/-! ## What reassembly does to the buffer

Reassembly never looks at the buffer: it appends to it, or replaces it when a gap is declared. Two
reassemblers that differ in the buffer only therefore receive the same bytes.
-/

/-- Everything but the buffer and where it starts. -/
def outside (r : Reassembler) : Reassembler :=
  { r with buf := [], pos := 0, bufOff := 0, pos_le := le_refl 0 }

/-- `outside` does not see a change of the buffer. -/
theorem outside_compact (r : Reassembler) : r.compact.outside = r.outside := by
  unfold compact
  split <;> rfl

@[simp] theorem outside_consume (r : Reassembler) (n : Nat) : (r.consume n).outside =
  r.outside := by
  rw [consume, outside_compact]
  rfl

/-- The bytes `data` were appended to the buffer. -/
structure Received (r r' : Reassembler) (data : Bytes) : Prop where
  available_eq : r'.available = r.available ++ data
  bufOff_eq : r'.bufOff = r.bufOff

/-- Two reassemblers that differ in the buffer only, after both received the same bytes. -/
structure BothReceived (a b a' b' : Reassembler) (data : Bytes) : Prop where
  outside_eq : a'.outside = b'.outside
  left : Received a a' data
  right : Received b b' data

section

variable {a b : Reassembler}

theorem both_received_refl (h : a.outside = b.outside) : BothReceived a b a b [] :=
  ⟨h, ⟨by simp, rfl⟩, ⟨by simp, rfl⟩⟩

theorem BothReceived.trans {a' b' a'' b'' : Reassembler} {data data' : Bytes}
    (h : BothReceived a b a' b' data) (h' : BothReceived a' b' a'' b'' data') :
    BothReceived a b a'' b'' (data ++ data') :=
  ⟨h'.outside_eq,
    ⟨by rw [h'.left.available_eq, h.left.available_eq, List.append_assoc],
      h'.left.bufOff_eq.trans h.left.bufOff_eq⟩,
    ⟨by rw [h'.right.available_eq, h.right.available_eq, List.append_assoc],
      h'.right.bufOff_eq.trans h.right.bufOff_eq⟩⟩

theorem both_received_append (h : a.outside = b.outside) (data : Bytes) :
    BothReceived a b (a.append data) (b.append data) data := by
  refine ⟨?_, ⟨available_append a data, rfl⟩, ⟨available_append b data, rfl⟩⟩
  simp only [outside, Reassembler.mk.injEq] at h
  simp only [outside, append, h]

/-- The fields that reassembly reads. -/
theorem reads_of_outside_eq (h : a.outside = b.outside) :
    a.nextSeq = b.nextSeq ∧ a.baseSeq = b.baseSeq ∧ a.ooo = b.ooo ∧ a.oooBytes = b.oooBytes ∧
      a.oooLimit = b.oooLimit ∧ a.oooSinceUs = b.oooSinceUs ∧ a.oooTimeoutUs = b.oooTimeoutUs ∧
      a.initialized = b.initialized ∧ a.deliveredOff = b.deliveredOff ∧ a.gaps = b.gaps ∧
      a.sawSyn = b.sawSyn ∧ a.bytes = b.bytes := by
  simp only [outside, Reassembler.mk.injEq] at h
  tauto

theorem both_received_append_tail (h : a.outside = b.outside) (segment : Seq × Bytes) :
    ∃ data, BothReceived a b (a.appendTail segment) (b.appendTail segment) data := by
  have hoverlap : a.overlap segment.1 = b.overlap segment.1 := by
    simp only [overlap, (reads_of_outside_eq h).1]
  by_cases hnew : b.overlap segment.1 < segment.2.length
  · simp only [appendTail, hoverlap, hnew, if_true]
    exact ⟨_, both_received_append h _⟩
  · simp only [appendTail, hoverlap, hnew, if_false]
    exact ⟨[], both_received_refl h⟩

theorem both_received_drain_ooo (h : a.outside = b.outside) :
    ∃ data, BothReceived a b a.drainOoo b.drainOoo data := by
  have hdue_eq : ∀ {a b : Reassembler}, a.outside = b.outside → a.due = b.due := by
    intro a b h
    funext s
    simp only [due, (reads_of_outside_eq h).1]
  induction a using drainOoo.induct generalizing b with
  | case1 a segment hfind ih =>
      have hooo := (reads_of_outside_eq h).2.2.1
      have hfind' : b.ooo.find? b.due = some segment := by rw [← hooo, ← hdue_eq h, hfind]
      have hrelease : (a.release segment).outside = (b.release segment).outside := by
        have hfields := h
        simp only [outside, Reassembler.mk.injEq] at hfields
        simp only [outside, release, hdue_eq h, hfields]
      obtain ⟨data, hfirst⟩ := both_received_append_tail hrelease segment
      obtain ⟨data', hlater⟩ := ih hfirst.outside_eq
      refine ⟨data ++ data', ?_⟩
      rw [drain_ooo_of_due hfind, drain_ooo_of_due hfind']
      -- taking a segment out does not touch the buffer
      have hstart : BothReceived a b ((a.release segment).appendTail segment)
          ((b.release segment).appendTail segment) data :=
        ⟨hfirst.outside_eq, ⟨hfirst.left.available_eq, hfirst.left.bufOff_eq⟩,
          ⟨hfirst.right.available_eq, hfirst.right.bufOff_eq⟩⟩
      exact hstart.trans hlater
  | case2 a hfind hempty =>
      have hooo := (reads_of_outside_eq h).2.2.1
      have hfind' : b.ooo.find? b.due = none := by rw [← hooo, ← hdue_eq h, hfind]
      rw [drain_ooo_of_none hfind, drain_ooo_of_none hfind', ← hooo, if_pos hempty, if_pos hempty]
      refine ⟨[], ⟨?_, ⟨by simp [available], rfl⟩, ⟨by simp [available], rfl⟩⟩⟩
      simp only [outside, Reassembler.mk.injEq] at h
      simp only [outside, h]
  | case3 a hfind hempty =>
      have hooo := (reads_of_outside_eq h).2.2.1
      have hfind' : b.ooo.find? b.due = none := by rw [← hooo, ← hdue_eq h, hfind]
      rw [drain_ooo_of_none hfind, drain_ooo_of_none hfind', ← hooo, if_neg hempty, if_neg hempty]
      exact ⟨[], both_received_refl h⟩

/-- A gap leaves nothing of the buffer. -/
theorem force_gap_congr (h : a.outside = b.outside) : a.forceGap = b.forceGap := by
  have htarget : a.gapTarget = b.gapTarget := by
    obtain ⟨hnext, -, hooo, -⟩ := reads_of_outside_eq h
    simp only [gapTarget, hnext, hooo]
  simp only [outside, Reassembler.mk.injEq] at h
  simp only [forceGap, htarget, h]

theorem outside_start (h : a.outside = b.outside) (seq : Seq) :
    BothReceived a b (a.start seq) (b.start seq) [] := by
  have hinit := (reads_of_outside_eq h).2.2.2.2.2.2.2.1
  by_cases hstarted : b.initialized = true
  · simp only [start, hinit, hstarted, if_true]
    exact both_received_refl h
  · simp only [start, hinit, hstarted]
    refine ⟨?_, ⟨by simp [available], rfl⟩, ⟨by simp [available], rfl⟩⟩
    simp only [outside, Reassembler.mk.injEq] at h
    simp [outside, h]

/-- `push` appends the same bytes to both buffers, or both declare a gap and are the same. -/
theorem push_both (h : a.outside = b.outside) (seq : Seq) (data : Bytes) (nowUs : Nat) :
    (∃ received, BothReceived a b (a.push seq data nowUs).1 (b.push seq data nowUs).1 received ∧
      (a.push seq data nowUs).2 = false ∧ (b.push seq data nowUs).2 = false) ∨
    (a.push seq data nowUs = b.push seq data nowUs ∧ (b.push seq data nowUs).2 = true) := by
  cases hempty : data.isEmpty with
  | true =>
      simp only [push, hempty, if_true]
      exact Or.inl ⟨[], both_received_refl h, trivial, trivial⟩
  | false =>
      have hstart := outside_start h seq
      obtain ⟨hnext, -, -, hbytes, hlimit, hsince, -⟩ := reads_of_outside_eq hstart.outside_eq
      have hoverlap : (a.start seq).overlap seq = (b.start seq).overlap seq := by
        simp only [overlap, hnext]
      have hhold : BothReceived (a.start seq) (b.start seq) ((a.start seq).hold seq data nowUs)
          ((b.start seq).hold seq data nowUs) [] := by
        refine ⟨?_, ⟨by simp [available, hold], rfl⟩, ⟨by simp [available, hold], rfl⟩⟩
        have hfields := hstart.outside_eq
        simp only [outside, Reassembler.mk.injEq] at hfields
        simp only [outside, hold, hfields]
      have hheld : ((a.start seq).hold seq data nowUs).oooBytes =
          ((b.start seq).hold seq data nowUs).oooBytes :=
        (reads_of_outside_eq hhold.outside_eq).2.2.2.1
      simp only [push, hempty, pushData, hnext, hoverlap, hheld, hlimit, Bool.false_eq_true,
        if_false]
      split
      · split
        · exact Or.inl ⟨[], hstart, rfl, rfl⟩
        · have happend := both_received_append hstart.outside_eq
            (data.drop ((b.start seq).overlap seq))
          obtain ⟨later, hdrain⟩ := both_received_drain_ooo happend.outside_eq
          exact Or.inl ⟨_, hstart.trans (happend.trans hdrain), rfl, rfl⟩
      · split
        · exact Or.inr ⟨by rw [force_gap_congr hhold.outside_eq], rfl⟩
        · exact Or.inl ⟨_, hstart.trans hhold, rfl, rfl⟩

/-- `check_timeout` does nothing to both, or both declare a gap and are the same. -/
theorem check_timeout_both (h : a.outside = b.outside) (nowUs : Nat) :
    (a.checkTimeout nowUs = (a, false) ∧ b.checkTimeout nowUs = (b, false)) ∨
    (a.checkTimeout nowUs = b.checkTimeout nowUs ∧ (b.checkTimeout nowUs).2 = true) := by
  obtain ⟨-, -, -, -, -, hsince, htimeout, -⟩ := reads_of_outside_eq h
  simp only [checkTimeout, hsince, htimeout]
  split
  · split
    · exact Or.inr ⟨by rw [force_gap_congr h], rfl⟩
    · exact Or.inl ⟨rfl, rfl⟩
  · exact Or.inl ⟨rfl, rfl⟩

end

end Reassembler

end H2Tap
