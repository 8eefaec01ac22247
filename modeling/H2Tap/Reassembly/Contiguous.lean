import H2Tap.Coverage
import H2Tap.Reassembly.Release

/-!
# Exactly the contiguous prefix

`reassembly.rs`, slices of a stream that starts with a SYN, in any order, and no gap. What was
consumed and what is available are together the longest prefix of the stream that the slices cover.
That all of it is delivered is what `Coverage` says of what is held. That nothing else is delivered
needs no look into the reassembler: a byte that no slice covers could be any byte, and the same
slices would be pushed (`run_receive_congr`).
-/

namespace H2Tap

open Lib

/-- What happens to a direction: a slice is pushed, or bytes are consumed. -/
inductive Arrival where
  | slice (s : Slice)
  | consume (n : Nat)
  deriving DecidableEq

/-- The slices among the arrivals. -/
def slicesOf : List Arrival → List Slice
  | [] => []
  | .slice s :: arrivals => s :: slicesOf arrivals
  | .consume _ :: arrivals => slicesOf arrivals

/-- Some slice covers the byte `i`. -/
def Covered (slices : List Slice) (i : Nat) : Prop := ∃ s ∈ slices, s.Covers i

namespace Reassembler

/-- The reassembler after an arrival, and the bytes that were consumed. -/
def receive (base : Seq) (stream : Bytes) (r : Reassembler) : Arrival → Reassembler × Bytes
  | .slice s => ((r.push (base + BitVec.ofNat 32 s.start) (s.data stream) s.nowUs).1, [])
  | .consume n => (r.consume n, r.available.take n)

/-- A slice of at most 65535 bytes that starts less than half of the number space away from the next
byte and, if it has to be held, fits within the limit. -/
def Fits (stream : Bytes) (r : Reassembler) : Arrival → Prop
  | .slice s => s.start + s.len ≤ stream.length ∧ s.len ≤ maxSegment ∧
      r.deliveredOff < s.start + 2 ^ 31 ∧ s.start < r.deliveredOff + 2 ^ 31 ∧
      (r.deliveredOff < s.start → r.oooBytes + s.len ≤ r.oooLimit)
  | .consume _ => True

instance (stream : Bytes) (r : Reassembler) : (a : Arrival) → Decidable (r.Fits stream a)
  | .slice _ => inferInstanceAs (Decidable (_ ∧ _ ∧ _ ∧ _ ∧ _))
  | .consume _ => isTrue trivial

/-- All bytes of a stream that were ever delivered, and those that were pushed. -/
structure Serves (base : Seq) (stream : Bytes) (pushed : Nat → Prop) (consumed : Bytes)
    (r : Reassembler) : Prop where
  collected : r.Collected base stream r.deliveredOff
  content : consumed ++ r.available = stream.take r.deliveredOff
  within : r.deliveredOff ≤ stream.length
  has : ∀ i, pushed i → r.HasByte base r.deliveredOff i

variable {base : Seq} {stream consumed : Bytes} {pushed : Nat → Prop} {r : Reassembler}

/-- A slice that fits does not make the reassembler declare a gap. -/
theorem push_of_fits (h : r.Collected base stream r.deliveredOff) {s : Slice}
    (hfits : r.Fits stream (.slice s)) :
    (r.push (base + BitVec.ofNat 32 s.start) (s.data stream) s.nowUs).2 = false := by
  obtain ⟨hwithin, -, hlow, hhigh, hroom⟩ := hfits
  have hstart : r.start (base + BitVec.ofNat 32 s.start) = r := by
    rw [start, if_pos h.collecting.initialized]
  have hdelta : seqDelta (base + BitVec.ofNat 32 s.start) r.nextSeq =
      (s.start : Int) - r.deliveredOff := by
    rw [h.collecting.nextSeq]
    exact seq_delta_near base hhigh hlow
  have hlength : (s.data stream).length = s.len := by
    rw [Slice.data, List.length_take, List.length_drop]
    omega
  unfold push pushData
  rw [hstart, hdelta]
  split
  · rfl
  · split
    · split <;> rfl
    · have hheld : ¬(r.hold (base + BitVec.ofNat 32 s.start) (s.data stream) s.nowUs).oooBytes >
          r.oooLimit := by
        show ¬r.oooBytes + (s.data stream).length > r.oooLimit
        have := hroom (by omega)
        omega
      rw [if_neg hheld]

/-- A slice delivers a further part of the stream, and its bytes are had. -/
theorem Serves.slice (h : r.Serves base stream pushed consumed) {s : Slice}
    (hfits : r.Fits stream (.slice s)) :
    (r.push (base + BitVec.ofNat 32 s.start) (s.data stream) s.nowUs).1.Serves base stream
      (fun i => pushed i ∨ s.Covers i) consumed := by
  have hgap := push_of_fits h.collected hfits
  obtain ⟨hwithin, hsmall, hlow, hhigh, -⟩ := hfits
  have hlength : (s.data stream).length = s.len := by
    rw [Slice.data, List.length_take, List.length_drop]
    omega
  have hbound : (s.data stream).length < 2 ^ 30 := by
    simp only [maxSegment] at hsmall
    omega
  have hslice : s.data stream <+: stream.drop s.start := List.take_prefix _ _
  obtain ⟨more, hmore, havailable, hcollected⟩ :=
    push_slice h.collected hslice hlow hhigh hbound s.nowUs hgap
  have hdelivered := hcollected.collecting.deliveredOff
  have hfits_stream := hmore.length_le
  have hend := h.within
  rw [List.length_drop] at hfits_stream
  refine ⟨by rw [hdelivered]; exact hcollected, ?_, by omega, fun i hi => ?_⟩
  · rw [havailable, hdelivered, ← List.append_assoc, h.content, List.take_add,
      ← List.prefix_iff_eq_take.mp hmore]
  · have hpushed := hi.imp (h.has i) fun hcovers : s.Covers i => hcovers
    rw [Slice.Covers, ← hlength] at hpushed
    exact has_byte_push h.collected hlow hhigh hbound s.nowUs hgap hpushed

/-- Consuming moves bytes from what is available to what was consumed. -/
theorem Serves.consume (h : r.Serves base stream pushed consumed) (n : Nat) :
    (r.consume n).Serves base stream pushed (consumed ++ r.available.take n) := by
  have houtside := outside_consume r n
  obtain ⟨-, -, -, -, -, -, -, -, hdelivered, -⟩ := reads_of_outside_eq houtside
  refine ⟨?_, ?_, ?_, fun i hi => ?_⟩
  · rw [hdelivered]
    exact (Delivery.anyOrder base stream).consume h.collected n
  · rw [available_consume, List.append_assoc, List.take_append_drop, hdelivered]
    exact h.content
  · rw [hdelivered]
    exact h.within
  · rw [hdelivered]
    exact (has_byte_congr houtside).mpr (h.has i hi)

/-- Over a whole run. -/
theorem Serves.run {arrivals : List Arrival} (h : r.Serves base stream pushed consumed)
    (hguard : Guarded (receive base stream) (Fits stream) r arrivals) :
    (Lib.run (receive base stream) r arrivals).1.Serves base stream
      (fun i => pushed i ∨ Covered (slicesOf arrivals) i)
      (consumed ++ (Lib.run (receive base stream) r arrivals).2.flatten) := by
  induction arrivals generalizing r pushed consumed with
  | nil => simpa [slicesOf, Covered] using h
  | cons arrival arrivals ih =>
      obtain ⟨hfits, hrest⟩ := hguard
      cases arrival with
      | slice s =>
          have hrun := ih (h.slice hfits) hrest
          simp only [slicesOf, Covered, List.exists_mem_cons_iff, ← or_assoc]
          exact hrun
      | consume n =>
          have hrun := ih (h.consume n) hrest
          rw [List.append_assoc] at hrun
          exact hrun

/-! ## Nothing else is delivered -/

/-- Two streams that agree where the slices are look the same to the reassembler. -/
theorem run_receive_congr {other : Bytes} {arrivals : List Arrival}
    (hsame : ∀ s ∈ slicesOf arrivals, s.data other = s.data stream) (r : Reassembler) :
    Lib.run (receive base other) r arrivals = Lib.run (receive base stream) r arrivals ∧
      (other.length = stream.length →
        Guarded (receive base stream) (Fits stream) r arrivals →
          Guarded (receive base other) (Fits other) r arrivals) := by
  induction arrivals generalizing r with
  | nil => exact ⟨rfl, fun _ _ => trivial⟩
  | cons arrival arrivals ih =>
      have hlater : ∀ s ∈ slicesOf arrivals, s.data other = s.data stream := by
        cases arrival with
        | slice s => exact fun t ht => hsame t (List.mem_cons_of_mem s ht)
        | consume n => exact hsame
      have hstep : receive base other r arrival = receive base stream r arrival := by
        cases arrival with
        | slice s => rw [receive, receive, hsame s List.mem_cons_self]
        | consume n => rfl
      obtain ⟨hrun, hguard⟩ := ih hlater (receive base stream r arrival).1
      refine ⟨by simp only [Lib.run, hstep, hrun], fun hlength hfits => ?_⟩
      refine ⟨?_, hstep ▸ hguard hlength hfits.2⟩
      cases arrival with
      | slice s =>
          have hslice : r.Fits stream (.slice s) := hfits.1
          rw [Fits, hlength]
          exact hslice
      | consume n => trivial

/-- A stream that differs in one byte, which a slice does not cover. -/
theorem slice_data_set {s : Slice} {i : Nat} (hout : ¬s.Covers i) (x : UInt8) :
    s.data (stream.set i x) = s.data stream := by
  simp only [Slice.Covers, not_and_or, not_le, not_lt] at hout
  rw [Slice.data, Slice.data]
  rcases hout with hbefore | hafter
  · rw [List.drop_set_of_lt hbefore]
  · by_cases hle : s.start ≤ i
    · rw [List.drop_set, if_neg (not_lt.mpr hle), List.take_set_of_le (by omega)]
    · rw [List.drop_set_of_lt (not_le.mp hle)]

/-- The bytes that were consumed in a run, and those that are available at its end. -/
def received (isn : Seq) (stream : Bytes) (arrivals : List Arrival) : Bytes :=
  let final := Lib.run (receive (isn + 1) stream) (new.noteSyn isn) arrivals
  final.2.flatten ++ final.1.available

/-- The slices arrive after a SYN, each within the window and the limit. -/
def ArriveFitting (isn : Seq) (stream : Bytes) (arrivals : List Arrival) : Prop :=
  Guarded (receive (isn + 1) stream) (Fits stream) (new.noteSyn isn) arrivals

instance (isn : Seq) (stream : Bytes) (arrivals : List Arrival) :
    Decidable (ArriveFitting isn stream arrivals) := inferInstanceAs (Decidable (Guarded ..))

variable {isn : Seq} {arrivals : List Arrival}

theorem serves_arrivals (hfit : ArriveFitting isn stream arrivals) :
    (Lib.run (receive (isn + 1) stream) (new.noteSyn isn) arrivals).1.Serves (isn + 1) stream
      (Covered (slicesOf arrivals))
      (Lib.run (receive (isn + 1) stream) (new.noteSyn isn) arrivals).2.flatten := by
  have hstart : (new.noteSyn isn).Serves (isn + 1) stream (fun _ => False) [] :=
    ⟨collected_note_syn isn stream, rfl, Nat.zero_le _, fun _ hi => hi.elim⟩
  have hrun := hstart.run hfit
  simp only [false_or, List.nil_append] at hrun
  exact hrun

/-- What is delivered was in some slice. -/
theorem covered_of_delivered (hfit : ArriveFitting isn stream arrivals) {i : Nat}
    (hi : i < (Lib.run (receive (isn + 1) stream) (new.noteSyn isn) arrivals).1.deliveredOff) :
    Covered (slicesOf arrivals) i := by
  by_contra hout
  have hserves := serves_arrivals hfit
  have hwithin := hserves.within
  have hlength : i < stream.length := by omega
  -- the same stream, but for a byte that no slice covers
  have hsame : ∀ s ∈ slicesOf arrivals, s.data (stream.set i (stream[i] + 1)) = s.data stream :=
    fun s hs => slice_data_set (fun hcovers => hout ⟨s, hs, hcovers⟩) _
  obtain ⟨hrun, hguard⟩ : Lib.run (receive (isn + 1) (stream.set i (stream[i] + 1)))
      (new.noteSyn isn) arrivals = _ ∧ _ := run_receive_congr hsame (new.noteSyn isn)
  have hother := (serves_arrivals (hguard List.length_set hfit)).content
  rw [hrun, hserves.content] at hother
  have hbyte := congrArg (·[i]?) hother
  simp only [List.getElem?_take_of_lt hi, List.getElem?_set_self hlength,
    List.getElem?_eq_getElem hlength, Option.some.injEq] at hbyte
  exact absurd hbyte (by simp)

end Reassembler

open Reassembler

/-- The bytes consumed and those available are the longest prefix of the stream that the slices
cover, and depend on nothing else. -/
theorem delivers_covered_prefix (isn : Seq) (stream : Bytes) (arrivals : List Arrival)
    (hfit : ArriveFitting isn stream arrivals) :
    (∃ k, IsGreatest {k | ∀ i < k, Covered (slicesOf arrivals) i} k ∧
      received isn stream arrivals = stream.take k) ∧
    ∀ isn' arrivals', ArriveFitting isn' stream arrivals' →
      (∀ i, Covered (slicesOf arrivals) i ↔ Covered (slicesOf arrivals') i) →
        received isn' stream arrivals' = received isn stream arrivals := by
  have hgreatest : ∀ {isn arrivals}, ArriveFitting isn stream arrivals →
      ∃ k, IsGreatest {k | ∀ i < k, Covered (slicesOf arrivals) i} k ∧
        received isn stream arrivals = stream.take k := by
    intro isn arrivals hfit
    have hserves := serves_arrivals hfit
    refine ⟨_, ⟨fun i hi => covered_of_delivered hfit hi, fun k hk => ?_⟩, hserves.content⟩
    exact delivered_of_all fun i hi => hserves.has i (hk i hi)
  refine ⟨hgreatest hfit, fun isn' arrivals' hfit' hcovered => ?_⟩
  obtain ⟨k, hk, heq⟩ := hgreatest hfit
  obtain ⟨k', hk', heq'⟩ := hgreatest hfit'
  simp only [hcovered] at hk
  rw [heq, heq', hk.unique hk']

/-- Two orders of the same slices, around the end of the number space. -/
theorem delivers_covered_prefix_reordered :
    (∃ k, IsGreatest {k | ∀ i < k, Covered (slicesOf [.slice ⟨0, 2, 0⟩,
      .slice ⟨3, 3, 1⟩, .consume 1,
        .slice ⟨1, 3, 2⟩]) i} k ∧
      received 4294967293 (asciiBytes "abcdefgh") [.slice ⟨0, 2, 0⟩, .slice ⟨3, 3, 1⟩, .consume 1,
        .slice ⟨1, 3, 2⟩] = (asciiBytes "abcdefgh").take k) ∧
    received 4294967293 (asciiBytes "abcdefgh") [.slice ⟨1, 3, 0⟩, .slice ⟨3, 3, 0⟩,
        .slice ⟨0, 2, 0⟩] =
      received 4294967293 (asciiBytes "abcdefgh") [.slice ⟨0, 2, 0⟩, .slice ⟨3, 3, 1⟩, .consume 1,
        .slice ⟨1, 3, 2⟩] := by
  have h := delivers_covered_prefix 4294967293 (asciiBytes "abcdefgh")
    [.slice ⟨0, 2, 0⟩, .slice ⟨3, 3, 1⟩, .consume 1, .slice ⟨1, 3, 2⟩] (by decide +kernel)
  refine ⟨h.1, h.2 4294967293 [.slice ⟨1, 3, 0⟩, .slice ⟨3, 3, 0⟩, .slice ⟨0, 2, 0⟩]
    (by decide +kernel) fun i => ?_⟩
  simp only [Covered, slicesOf, Slice.Covers, List.exists_mem_cons_iff, List.not_mem_nil,
    false_and, exists_false, or_false]
  omega

end H2Tap
