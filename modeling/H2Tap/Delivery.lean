import H2Tap.Reassembly

/-!
# How the bytes of a stream reach the parser

A `Delivery` says what holds of a reassembler once the first `k` bytes of a stream have been
delivered to its buffer, whatever has been consumed of them. There are two: segments that arrive in
order, and slices of a stream that arrive in any order, as long as no gap is declared. A segment in
any order delivers a further part of the stream (`push_slice`), if it lies within the window in
which sequence numbers can be compared.
-/

namespace H2Tap

/-- The distance of two stream offsets, when it is less than half of the number space. -/
theorem seq_delta_near (base : Seq) {m n : Nat} (hlow : n < m + 2 ^ 31) (hhigh : m < n + 2 ^ 31) :
    seqDelta (base + BitVec.ofNat 32 n) (base + BitVec.ofNat 32 m) = (n : Int) - m := by
  have hsub : base + BitVec.ofNat 32 n - (base + BitVec.ofNat 32 m) =
      BitVec.ofNat 32 n - BitVec.ofNat 32 m := by
    generalize BitVec.ofNat 32 m = x
    generalize BitVec.ofNat 32 n = y
    bv_omega
  rw [seqDelta, hsub, BitVec.toInt_eq_toNat_cond, BitVec.toNat_sub, BitVec.toNat_ofNat,
    BitVec.toNat_ofNat]
  omega

/-- What is known of a reassembler once `k` bytes have been delivered. -/
structure Delivery where
  base : Seq
  Holds : Reassembler → Nat → Prop
  consume : ∀ {r k}, Holds r k → ∀ n, Holds (r.consume n) k
  place : ∀ {r k}, Holds r k → r.baseSeq = base ∧ r.bufOff + r.available.length = k

/-- A push delivers `data` as the next bytes of the stream. -/
structure Delivery.Adds (delivery : Delivery) (r : Reassembler) (k : Nat) (data : Bytes)
    (pushed : Reassembler × Bool) : Prop where
  no_gap : pushed.2 = false
  available_eq : pushed.1.available = r.available ++ data
  holds : delivery.Holds pushed.1 (k + data.length)

/-- Receiving does not move the reader. -/
theorem Delivery.Adds.bufOff_eq {delivery : Delivery} {r : Reassembler} {k : Nat} {data : Bytes}
    {pushed : Reassembler × Bool} (h : delivery.Adds r k data pushed) (hr : delivery.Holds r k) :
    pushed.1.bufOff = r.bufOff := by
  have hbefore := (delivery.place hr).2
  have hafter := (delivery.place h.holds).2
  rw [h.available_eq, List.length_append] at hafter
  omega

/-- Segments arrive in order. -/
def Delivery.inOrder (base : Seq) : Delivery where
  base := base
  Holds r k := r.InOrder base k
  consume h n := h.consume n
  place h := ⟨h.baseSeq, h.received⟩

/-- The next segment in order. -/
theorem adds_in_order {base : Seq} {r : Reassembler} {k : Nat} (h : r.InOrder base k)
    (data : Bytes) (nowUs : Nat) :
    (Delivery.inOrder base).Adds r k data (r.push (base + BitVec.ofNat 32 k) data nowUs) := by
  obtain ⟨hgap, havailable, horder⟩ := Reassembler.push_in_order h data nowUs
  exact ⟨hgap, havailable, horder⟩

namespace Reassembler

/-! ## Slices of a stream -/

/-- A segment that is held is a slice of the stream, between `low` and half of the number space
after it. -/
def Held (base : Seq) (stream : Bytes) (low : Nat) (segment : Seq × Bytes) : Prop :=
  ∃ a, segment.1 = base + BitVec.ofNat 32 a ∧ low < a ∧ a < low + 2 ^ 31 ∧
    segment.2 <+: stream.drop a

/-- How many bytes are held. -/
def heldBytes (r : Reassembler) : Nat := (r.ooo.map fun segment => segment.2.length).sum

/-- `k` bytes of the stream were delivered, and what is held lies after the first `low` of them. -/
structure Collecting (base : Seq) (stream : Bytes) (low k : Nat) (r : Reassembler) : Prop where
  initialized : r.initialized = true
  baseSeq : r.baseSeq = base
  nextSeq : r.nextSeq = base + BitVec.ofNat 32 k
  deliveredOff : r.deliveredOff = k
  received : r.bufOff + r.available.length = k
  held : ∀ segment ∈ r.ooo, Held base stream low segment
  oooBytes : r.oooBytes = r.heldBytes
  low_le : low ≤ k
  budget : k - low + r.heldBytes < 2 ^ 31

/-- `k` bytes of the stream were delivered, and everything held comes after them. -/
structure Collected (base : Seq) (stream : Bytes) (k : Nat) (r : Reassembler) : Prop where
  collecting : r.Collecting base stream k k
  within : r.oooBytes ≤ r.oooLimit
  limit : r.oooLimit = defaultOooLimit

variable {base : Seq} {stream : Bytes} {low k : Nat} {r : Reassembler}

theorem Collecting.consume (h : r.Collecting base stream low k) (n : Nat) :
    (r.consume n).Collecting base stream low k ∧ (r.consume n).oooBytes = r.oooBytes ∧
      (r.consume n).oooLimit = r.oooLimit := by
  have hfields : (r.consume n).initialized = r.initialized ∧ (r.consume n).ooo = r.ooo ∧
      (r.consume n).baseSeq = r.baseSeq ∧ (r.consume n).nextSeq = r.nextSeq ∧
      (r.consume n).deliveredOff = r.deliveredOff ∧ (r.consume n).oooBytes = r.oooBytes ∧
      (r.consume n).oooLimit = r.oooLimit := by
    unfold Reassembler.consume compact
    split <;> exact ⟨rfl, rfl, rfl, rfl, rfl, rfl, rfl⟩
  obtain ⟨hinit, hooo, hbase, hnext, hdelivered, hbytes, hlimit⟩ := hfields
  have hheld : (r.consume n).heldBytes = r.heldBytes := by rw [heldBytes, heldBytes, hooo]
  have hreceived := h.received
  refine ⟨⟨hinit.trans h.initialized, hbase.trans h.baseSeq, hnext.trans h.nextSeq,
    hdelivered.trans h.deliveredOff, ?_, ?_, ?_, h.low_le, ?_⟩, hbytes, hlimit⟩
  · rw [bufOff_consume, available_consume, List.length_drop]
    omega
  · rw [hooo]
    exact h.held
  · rw [hbytes, hheld]
    exact h.oooBytes
  · rw [hheld]
    exact h.budget

/-- The tail of a slice after byte `k` of the stream is the part of the stream that follows. -/
theorem slice_tail {data : Bytes} {a : Nat} (hslice : data <+: stream.drop a) (hle : a ≤ k) :
    data.drop (k - a) <+: stream.drop k := by
  obtain ⟨rest, hrest⟩ := hslice
  have hdrop : stream.drop k = (stream.drop a).drop (k - a) := by
    rw [List.drop_drop, Nat.add_sub_of_le hle]
  rw [hdrop, ← hrest, List.drop_append]
  exact List.prefix_append _ _

/-- Whether a held segment is due, by its place in the stream. -/
theorem Collecting.due_iff (h : r.Collecting base stream low k) {a : Nat} {segment : Seq × Bytes}
    (hseq : segment.1 = base + BitVec.ofNat 32 a) (hlow : low < a) (hhigh : a < low + 2 ^ 31) :
    (r.due segment = true ↔ a ≤ k) ∧ (a ≤ k → r.overlap segment.1 = k - a) := by
  have hle := h.low_le
  have hbudget := h.budget
  have hdelta : seqDelta segment.1 r.nextSeq = (a : Int) - k := by
    rw [hseq, h.nextSeq]
    exact seq_delta_near base (by omega) (by omega)
  constructor
  · simp only [due, hdelta, decide_eq_true_eq]
    omega
  · intro hdue
    simp only [overlap, hdelta]
    omega

/-- Appending the next bytes of the stream. -/
theorem Collecting.append (h : r.Collecting base stream low k) {data : Bytes}
    (hbudget : k + data.length - low + r.heldBytes < 2 ^ 31) :
    (r.append data).Collecting base stream low (k + data.length) where
  initialized := h.initialized
  baseSeq := h.baseSeq
  nextSeq := by
    show r.nextSeq + BitVec.ofNat 32 data.length = _
    rw [h.nextSeq, BitVec.add_assoc, ← BitVec.ofNat_add]
  deliveredOff := by
    show r.deliveredOff + data.length = _
    rw [h.deliveredOff]
  received := by
    have hreceived := h.received
    show r.bufOff + (r.append data).available.length = _
    rw [available_append, List.length_append]
    omega
  held := h.held
  oooBytes := h.oooBytes
  low_le := h.low_le.trans (Nat.le_add_right _ _)
  budget := hbudget

/-- A further part of the stream is delivered, and no more is held than before. -/
structure Extends (base : Seq) (stream : Bytes) (low k : Nat) (r r' : Reassembler) : Prop where
  more : ∃ data, data <+: stream.drop k ∧ r'.available = r.available ++ data ∧
    r'.Collecting base stream low (k + data.length)
  bufOff : r'.bufOff = r.bufOff
  heldBytes_le : r'.heldBytes ≤ r.heldBytes
  oooLimit : r'.oooLimit = r.oooLimit

/-- Parts of the stream that follow each other. -/
theorem slice_append {data later : Bytes} (hdata : data <+: stream.drop k)
    (hlater : later <+: stream.drop (k + data.length)) : data ++ later <+: stream.drop k := by
  obtain ⟨rest, hrest⟩ := hdata
  obtain ⟨end', hend⟩ := hlater
  have hdrop : stream.drop (k + data.length) = rest := by
    rw [← List.drop_drop, ← hrest, List.drop_left]
  exact ⟨end', by rw [List.append_assoc, hend, hdrop, hrest]⟩

/-- The first element that is found stands between two parts of a list, which stay when it is
erased. -/
theorem exists_found {α : Type} {l : List α} {q : α → Bool} {x : α} (h : l.find? q = some x) :
    ∃ before after, l = before ++ x :: after ∧ l.eraseP q = before ++ after := by
  obtain ⟨hx, before, after, hsplit, hnone⟩ := List.find?_eq_some_iff_append.mp h
  refine ⟨before, after, hsplit, ?_⟩
  rw [hsplit, List.eraseP_append_right _ (by simpa using hnone), List.eraseP_cons_of_pos hx]

/-- The first due segment stands between two parts of the held ones, which stay. -/
theorem exists_due {segment : Seq × Bytes} (hfind : r.ooo.find? r.due = some segment) :
    ∃ before after, r.ooo = before ++ segment :: after ∧
      (r.release segment).ooo = before ++ after :=
  exists_found hfind

/-- A released segment is no longer counted. -/
theorem held_bytes_release {segment : Seq × Bytes} (hfind : r.ooo.find? r.due = some segment) :
    r.heldBytes = (r.release segment).heldBytes + segment.2.length := by
  obtain ⟨before, after, hooo, hkept⟩ := exists_due hfind
  simp only [heldBytes, hooo, hkept, List.map_append, List.map_cons, List.sum_append, List.sum_cons]
  omega

/-- A due segment adds the part of it that was not delivered yet. -/
theorem extends_release (h : r.Collecting base stream low k) {segment : Seq × Bytes}
    (hfind : r.ooo.find? r.due = some segment) :
    Extends base stream low k r ((r.release segment).appendTail segment) := by
  obtain ⟨before, after, hooo, hkept⟩ := exists_due hfind
  have hdue : r.due segment = true := List.find?_some hfind
  have hheld := held_bytes_release hfind
  have hbudget := h.budget
  have hreleased : (r.release segment).Collecting base stream low k :=
    { h with
      held := by
        intro other hother
        refine h.held other ?_
        rw [hkept, List.mem_append] at hother
        rw [hooo, List.mem_append, List.mem_cons]
        tauto
      oooBytes := by
        show r.oooBytes - segment.2.length = _
        rw [h.oooBytes]
        omega
      budget := by omega }
  obtain ⟨a, hseq, hlow, hhigh, hslice⟩ := h.held segment (List.mem_of_find?_eq_some hfind)
  obtain ⟨hle, -⟩ := h.due_iff hseq hlow hhigh
  have ha := hle.mp hdue
  have hoverlap := (hreleased.due_iff hseq hlow hhigh).2 ha
  have htail := slice_tail hslice ha
  simp only [appendTail, hoverlap]
  split
  · refine ⟨⟨_, htail, available_append _ _, ?_⟩, rfl, ?_, rfl⟩
    · refine hreleased.append ?_
      rw [List.length_drop]
      have := h.low_le
      omega
    · show (r.release segment).heldBytes ≤ _
      omega
  · exact ⟨⟨[], List.nil_prefix, (List.append_nil _).symm, hreleased⟩, rfl, by omega, rfl⟩

theorem Extends.trans {r' r'' : Reassembler} {data : Bytes}
    (hdata : data <+: stream.drop k) (havailable : r'.available = r.available ++ data)
    (hbufOff : r'.bufOff = r.bufOff) (hheld : r'.heldBytes ≤ r.heldBytes)
    (hlimit : r'.oooLimit = r.oooLimit)
    (h : Extends base stream low (k + data.length) r' r'') : Extends base stream low k r r'' := by
  obtain ⟨⟨later, hlater, havailable', hcollecting⟩, hbufOff', hheld', hlimit'⟩ := h
  refine ⟨⟨data ++ later, slice_append hdata hlater, ?_, ?_⟩, hbufOff'.trans hbufOff,
    hheld'.trans hheld, hlimit'.trans hlimit⟩
  · rw [havailable', havailable, List.append_assoc]
  · rw [List.length_append, ← Nat.add_assoc]
    exact hcollecting

/-- Releasing held segments delivers a further part of the stream and leaves no due one. -/
theorem extends_drain_ooo (h : r.Collecting base stream low k) :
    Extends base stream low k r r.drainOoo ∧
      ∀ segment ∈ r.drainOoo.ooo, r.drainOoo.due segment = false := by
  induction r using drainOoo.induct generalizing k with
  | case1 r segment hfind ih =>
      rw [drain_ooo_of_due hfind]
      obtain ⟨⟨data, hdata, havailable, hcollecting⟩, hbufOff, hheld, hlimit⟩ :=
        extends_release h hfind
      obtain ⟨hextends, hnone⟩ := ih hcollecting
      exact ⟨hextends.trans hdata havailable hbufOff hheld hlimit, hnone⟩
  | case2 r hfind hempty =>
      rw [drain_ooo_of_none hfind, if_pos hempty]
      refine ⟨⟨⟨[], List.nil_prefix, ?_, { h with }⟩, rfl, le_refl _, rfl⟩, ?_⟩
      · simp [available]
      · intro segment hsegment
        rw [List.isEmpty_iff.mp hempty] at hsegment
        cases hsegment
  | case3 r hfind hempty =>
      rw [drain_ooo_of_none hfind, if_neg hempty]
      refine ⟨⟨⟨[], List.nil_prefix, (List.append_nil _).symm, h⟩, rfl, le_refl _, rfl⟩, ?_⟩
      simpa using hfind

/-- With nothing due, what is held comes after what was delivered. -/
theorem Collecting.recentre (h : r.Collecting base stream low k)
    (hnone : ∀ segment ∈ r.ooo, r.due segment = false) (hbudget : r.heldBytes < 2 ^ 31) :
    r.Collecting base stream k k := by
  refine { h with
    held := ?_
    low_le := le_refl k
    budget := by omega }
  intro segment hsegment
  obtain ⟨a, hseq, hlow, hhigh, hslice⟩ := h.held segment hsegment
  have hdue := (h.due_iff hseq hlow hhigh).1
  have hnot := hnone segment hsegment
  have hle := h.low_le
  refine ⟨a, hseq, ?_, by omega, hslice⟩
  by_contra hnlt
  rw [hdue.mpr (by omega)] at hnot
  cases hnot

/-- Between two calls, as long as what is held stays within its limit. -/
theorem Collecting.collected (h : r.Collecting base stream low k)
    (hnone : ∀ segment ∈ r.ooo, r.due segment = false) (hwithin : r.oooBytes ≤ r.oooLimit)
    (hlimit : r.oooLimit = defaultOooLimit) : r.Collected base stream k := by
  have hheld := h.oooBytes
  refine ⟨h.recentre hnone ?_, hwithin, hlimit⟩
  simp only [defaultOooLimit] at hlimit
  omega

/-! ## A slice in any order -/

/-- A slice of the stream within the window, pushed without a gap, delivers a further part of the
stream. -/
theorem push_slice (h : r.Collected base stream k) {a : Nat} {data : Bytes}
    (hslice : data <+: stream.drop a) (hlow : k < a + 2 ^ 31) (hhigh : a < k + 2 ^ 31)
    (hlength : data.length < 2 ^ 30) (nowUs : Nat)
    (hgap : (r.push (base + BitVec.ofNat 32 a) data nowUs).2 = false) :
    ∃ more, more <+: stream.drop k ∧
      (r.push (base + BitVec.ofNat 32 a) data nowUs).1.available = r.available ++ more ∧
      (r.push (base + BitVec.ofNat 32 a) data nowUs).1.Collected base stream (k + more.length) := by
  have hkeep : ∃ more, more <+: stream.drop k ∧ r.available = r.available ++ more ∧
      r.Collected base stream (k + more.length) :=
    ⟨[], List.nil_prefix, (List.append_nil _).symm, h⟩
  by_cases hempty : data.isEmpty = true
  · simp only [push, hempty, if_true]
    exact hkeep
  · have hstart : r.start (base + BitVec.ofNat 32 a) = r := by
      simp only [start, h.collecting.initialized, if_true]
    have hdelta : seqDelta (base + BitVec.ofNat 32 a) r.nextSeq = (a : Int) - k := by
      rw [h.collecting.nextSeq]
      exact seq_delta_near base hhigh hlow
    have hoverlap : r.overlap (base + BitVec.ofNat 32 a) = k - a := by
      simp only [overlap, hdelta]
      omega
    have hheld := h.collecting.oooBytes
    have hwithin := h.within
    have hlimit := h.limit
    simp only [defaultOooLimit] at hlimit
    revert hgap
    simp only [push, hempty, hstart, pushData, hdelta, hoverlap, Bool.false_eq_true, if_false]
    by_cases hdue : (a : Int) - k ≤ 0
    · simp only [hdue, if_true]
      split
      · exact fun _ => hkeep
      · intro _
        have htail := slice_tail (k := k) hslice (by omega)
        have hbudget : k + (data.drop (k - a)).length - k + r.heldBytes < 2 ^ 31 := by
          rw [List.length_drop]
          omega
        obtain ⟨hextends, hnone⟩ := extends_drain_ooo (h.collecting.append hbudget)
        obtain ⟨⟨later, hlater, havailable, hcollecting⟩, -, hless, hsame⟩ := hextends.trans htail
          (available_append r _) rfl (le_refl _) rfl
        refine ⟨later, hlater, havailable, hcollecting.collected hnone ?_ (hsame.trans h.limit)⟩
        rw [hcollecting.oooBytes, hsame]
        omega
    · simp only [hdue, if_false]
      split
      · intro hgap
        cases hgap
      · next hfits =>
          intro _
          have hnew : (r.hold (base + BitVec.ofNat 32 a) data nowUs).heldBytes =
              r.heldBytes + data.length := by
            simp [heldBytes, hold]
          have hbytes : (r.hold (base + BitVec.ofNat 32 a) data nowUs).oooBytes =
              r.oooBytes + data.length := rfl
          refine ⟨[], List.nil_prefix, by simp [available, hold], ⟨{ h.collecting with
            held := ?_
            oooBytes := by rw [hbytes, hnew, hheld]
            budget := by rw [hnew]; omega }, ?_, h.limit⟩⟩
          · intro segment hsegment
            rcases List.mem_append.mp hsegment with hold | hsegment
            · exact h.collecting.held segment hold
            · obtain rfl := List.mem_singleton.mp hsegment
              exact ⟨a, rfl, by rw [List.length_nil]; omega, hhigh, hslice⟩
          · show (r.hold (base + BitVec.ofNat 32 a) data nowUs).oooBytes ≤ r.oooLimit
            exact Nat.le_of_not_lt hfits

/-- The SYN starts a stream of which nothing was delivered. -/
theorem collected_note_syn (isn : Seq) (stream : Bytes) :
    (new.noteSyn isn).Collected (isn + 1) stream 0 where
  collecting := {
    initialized := rfl
    baseSeq := rfl
    nextSeq := by simp [noteSyn, new]
    deliveredOff := rfl
    received := rfl
    held := fun segment hsegment => by cases hsegment
    oooBytes := rfl
    low_le := le_refl 0
    budget := Nat.two_pow_pos 31 }
  within := Nat.zero_le _
  limit := rfl

/-- So does the first segment, before its bytes are looked at. -/
theorem collected_start (seq : Seq) (stream : Bytes) : (new.start seq).Collected seq stream 0 where
  collecting := {
    initialized := rfl
    baseSeq := rfl
    nextSeq := by simp [start, new]
    deliveredOff := rfl
    received := rfl
    held := fun segment hsegment => by cases hsegment
    oooBytes := rfl
    low_le := le_refl 0
    budget := Nat.two_pow_pos 31 }
  within := Nat.zero_le _
  limit := rfl

end Reassembler

/-- Slices of a stream arrive in any order. -/
def Delivery.anyOrder (base : Seq) (stream : Bytes) : Delivery where
  base := base
  Holds r k := r.Collected base stream k
  consume h n := by
    obtain ⟨hcollecting, hbytes, hlimit⟩ := h.collecting.consume n
    refine ⟨hcollecting, ?_, hlimit.trans h.limit⟩
    rw [hbytes, hlimit]
    exact h.within
  place h := ⟨h.collecting.baseSeq, h.collecting.received⟩

/-- A slice within the window that is pushed without a gap. -/
theorem adds_slice {base : Seq} {stream : Bytes} {r : Reassembler} {k a : Nat} {data : Bytes}
    (h : r.Collected base stream k) (hslice : data <+: stream.drop a) (hlow : k < a + 2 ^ 31)
    (hhigh : a < k + 2 ^ 31) (hlength : data.length < 2 ^ 30) (nowUs : Nat)
    (hgap : (r.push (base + BitVec.ofNat 32 a) data nowUs).2 = false) :
    ∃ more, more <+: stream.drop k ∧ (Delivery.anyOrder base stream).Adds r k more
      (r.push (base + BitVec.ofNat 32 a) data nowUs) := by
  obtain ⟨more, hmore, havailable, hcollected⟩ :=
    Reassembler.push_slice h hslice hlow hhigh hlength nowUs hgap
  exact ⟨more, hmore, hgap, havailable, hcollected⟩

/-! ## Segments of a stream -/

/-- A segment of a stream, and when it arrives. -/
structure Slice where
  start : Nat
  len : Nat
  nowUs : Nat
  deriving DecidableEq

namespace Slice

/-- The bytes of the segment. -/
def data (stream : Bytes) (s : Slice) : Bytes := (stream.drop s.start).take s.len

/-- The segment is a part of the stream, and not empty. -/
def Within (stream : Bytes) (s : Slice) : Prop := 0 < s.len ∧ s.start + s.len ≤ stream.length

instance (stream : Bytes) (s : Slice) : Decidable (s.Within stream) :=
  inferInstanceAs (Decidable (_ ∧ _))

/-- The byte `i` of the stream is in the segment. -/
def Covers (s : Slice) (i : Nat) : Prop := s.start ≤ i ∧ i < s.start + s.len

instance (s : Slice) (i : Nat) : Decidable (s.Covers i) := inferInstanceAs (Decidable (_ ∧ _))

theorem data_length {stream : Bytes} {s : Slice} (h : s.Within stream) :
    (s.data stream).length = s.len := by
  have hend := h.2
  rw [data, List.length_take, List.length_drop]
  omega

theorem data_ne_nil {stream : Bytes} {s : Slice} (h : s.Within stream) : s.data stream ≠ [] := by
  have hpositive := h.1
  exact List.length_pos_iff.mp (by rw [data_length h]; exact hpositive)

end Slice

end H2Tap
