import H2Tap.Reassembly.Accounting

/-!
# The bytes that are shown, across gaps

`reassembly.rs`, slices of one stream in any order, with gaps. A gap drops what is pending and goes
on at a held segment, so that the bytes available are not a prefix of the stream any more. They are
still the bytes of the stream at the sequence numbers that the reassembler says (`ShowsStream`).
Positions are those of the stream; `origin` is the one of the first byte that the reassembler
expected, which is where offset zero lies.
-/

namespace H2Tap

open Lib

/-- A call that pushes a slice of a stream of which position zero has sequence number `base`, less
than half of the number space away from the next byte. The first call that starts the direction does
so at `origin`. -/
def OnStream (base : Seq) (stream : Bytes) (origin : Nat) (r : Reassembler) : ReasmOp → Prop
  | .noteSyn seq => r.initialized = false → seq + 1 = base + BitVec.ofNat 32 origin
  | .push seq data _ => data ≠ [] → data.length ≤ maxSegment ∧ r.oooBytes < 2 ^ 30 ∧
      ∃ a, seq = base + BitVec.ofNat 32 a ∧ data <+: stream.drop a ∧
        if r.initialized then
          a ≤ origin + r.deliveredOff + 2 ^ 31 ∧ origin + r.deliveredOff ≤ a + 2 ^ 31
        else a = origin
  | .checkTimeout _ => True
  | .consume _ => True

namespace Reassembler

/-- The bytes available are those of the stream at the sequence numbers from `next_unparsed_seq` up
to `next_seq`. -/
structure ShowsStream (base : Seq) (stream : Bytes) (origin : Nat) (r : Reassembler) : Prop where
  available_eq :
    r.available = (stream.drop (origin + r.bufOff)).take (r.deliveredOff - r.bufOff)
  nextUnparsedSeq :
    r.initialized = true → r.nextUnparsedSeq = base + BitVec.ofNat 32 (origin + r.bufOff)
  nextSeq : r.initialized = true → r.nextSeq = base + BitVec.ofNat 32 (origin + r.deliveredOff)

/-- A direction that was started collects the stream from `origin` on. -/
structure Follows (base : Seq) (stream : Bytes) (origin : Nat) (r : Reassembler) : Prop where
  collecting : r.Collecting (base + BitVec.ofNat 32 origin) (stream.drop origin) r.deliveredOff
    r.deliveredOff
  content : r.available <+: (stream.drop origin).drop r.bufOff
  bounded : r.heldBytes < 2 ^ 30 + 2 ^ 16

variable {base : Seq} {stream : Bytes} {origin low k : Nat} {r : Reassembler}

/-- What the counters and the stream together say of the bytes available. -/
theorem Accounted.shows_stream (h : r.Accounted)
    (hfollows : r.initialized = true → r.Follows base stream origin) :
    r.ShowsStream base stream origin := by
  have hreceived := h.received
  refine ⟨?_, fun hinit => ?_, fun hinit => ?_⟩
  · by_cases hinit : r.initialized = true
    · have hprefix := List.prefix_iff_eq_take.mp (hfollows hinit).content
      rw [List.drop_drop] at hprefix
      have hlength : r.available.length = r.deliveredOff - r.bufOff := by omega
      rw [← hlength]
      exact hprefix
    · obtain ⟨hdelivered, -⟩ := h.unstarted (by simpa using hinit)
      have hnone : r.available = [] := List.length_eq_zero_iff.mp (by omega)
      rw [hnone, hdelivered, Nat.zero_sub, List.take_zero]
  · rw [nextUnparsedSeq, seqAt, (hfollows hinit).collecting.baseSeq, BitVec.add_assoc,
      ← BitVec.ofNat_add]
  · rw [(hfollows hinit).collecting.nextSeq, BitVec.add_assoc, ← BitVec.ofNat_add]

/-! ## Delivering -/

/-- The end of `drain_ooo`, after further bytes of the stream were delivered. -/
theorem follows_drain_ooo
    (h : r.Collecting (base + BitVec.ofNat 32 origin) (stream.drop origin) low k)
    (hcontent : r.available <+: (stream.drop origin).drop r.bufOff)
    (hbounded : r.heldBytes < 2 ^ 30 + 2 ^ 16) : r.drainOoo.Follows base stream origin := by
  obtain ⟨⟨⟨data, hdata, havailable, hcollecting⟩, hbufOff, hheld, -⟩, hnone⟩ := extends_drain_ooo h
  have hcentred := hcollecting.recentre hnone (by omega)
  have hreceived := h.received
  refine ⟨hcentred.deliveredOff ▸ hcentred, ?_, by omega⟩
  rw [havailable, hbufOff]
  refine slice_append hcontent ?_
  rw [hreceived]
  exact hdata

/-- The position of the segment that the jump of a gap goes to. -/
theorem Collecting.jump {base : Seq} {stream : Bytes} (h : r.Collecting base stream k k)
    (hbudget : r.heldBytes + 1 < 2 ^ 31) :
    ∃ low m, r.jump.Collecting base stream low m := by
  by_cases hooo : r.ooo = []
  · have htarget := gap_target_of_empty hooo
    have hheld := h.held
    have hskip : r.deliveredOff + (r.gapTarget - r.nextSeq).toNat = k := by
      rw [htarget, h.deliveredOff]
      simp
    exact ⟨k, k,
      { initialized := h.initialized, baseSeq := h.baseSeq, nextSeq := htarget.trans h.nextSeq,
        deliveredOff := hskip, received := hskip, held := hheld, oooBytes := h.oooBytes,
        low_le := le_refl k, budget := h.budget }⟩
  · obtain ⟨segment, hsegment, htarget, hfirst⟩ := exists_gap_target hooo
    -- distances from the next byte are differences of positions
    have hdistance : ∀ other ∈ r.ooo, ∃ a, other.1 = base + BitVec.ofNat 32 a ∧ k < a ∧
        a < k + 2 ^ 31 ∧ other.2 <+: stream.drop a ∧ (other.1 - r.nextSeq).toNat = a - k := by
      intro other hother
      obtain ⟨a, hseq, hlow, hhigh, hslice⟩ := h.held other hother
      refine ⟨a, hseq, hlow, hhigh, hslice, ?_⟩
      have hsum : a = k + (a - k) := by omega
      rw [hseq, h.nextSeq, hsum, BitVec.ofNat_add, ← BitVec.add_assoc, BitVec.add_comm,
        BitVec.add_sub_cancel, BitVec.toNat_ofNat, Nat.mod_eq_of_lt (by omega)]
      omega
    obtain ⟨m, hseq, hlow, hhigh, -, hskip⟩ := hdistance segment hsegment
    have hdelivered : r.deliveredOff + (r.gapTarget - r.nextSeq).toNat = m := by
      rw [htarget, hskip, h.deliveredOff]
      omega
    refine ⟨m - 1, m,
      { initialized := h.initialized, baseSeq := h.baseSeq, nextSeq := htarget.trans hseq,
        deliveredOff := hdelivered, received := hdelivered, held := fun other hother => ?_,
        oooBytes := h.oooBytes, low_le := by omega, budget := ?_ }⟩
    · obtain ⟨a, hother_seq, -, ha, hslice, hother_skip⟩ := hdistance other hother
      have hle := hfirst other hother
      exact ⟨a, hother_seq, by omega, by omega, hslice⟩
    · show m - (m - 1) + r.heldBytes < 2 ^ 31
      omega

/-- A gap drops what is pending, and goes on in the stream. -/
theorem Follows.force_gap (h : r.Follows base stream origin) :
    r.forceGap.Follows base stream origin := by
  have hbounded := h.bounded
  obtain ⟨low, m, hjump⟩ := h.collecting.jump (by omega)
  exact follows_drain_ooo hjump List.nil_prefix hbounded

/-! ## Segments -/

/-- The distance to a byte that is exactly half of the number space away. -/
theorem seq_delta_far (seq : Seq) : seqDelta (seq + BitVec.ofNat 32 (2 ^ 31)) seq = -2 ^ 31 := by
  rw [seqDelta, BitVec.add_comm, BitVec.add_sub_cancel]
  rfl

/-- A segment half of the number space away is taken for one of the past. -/
theorem push_data_far {seq : Seq} {data : Bytes} (hfar : seqDelta seq r.nextSeq = -2 ^ 31)
    (hlength : data.length ≤ maxSegment) (nowUs : Nat) :
    r.pushData seq data nowUs = (r, false) := by
  have hoverlap : r.overlap seq = 2 ^ 31 := by
    simp only [overlap, hfar]
    rfl
  simp only [maxSegment] at hlength
  rw [pushData, hfar, if_pos (by decide), hoverlap, if_pos (by omega)]

/-- A slice of the stream within the window. -/
theorem Follows.push_data (h : r.Follows base stream origin) {a : Nat} {data : Bytes}
    (hslice : data <+: stream.drop a) (hhigh : a < origin + r.deliveredOff + 2 ^ 31)
    (hlow : origin + r.deliveredOff < a + 2 ^ 31) (hlength : data.length ≤ maxSegment)
    (hheld : r.oooBytes < 2 ^ 30) (nowUs : Nat) :
    (r.pushData (base + BitVec.ofNat 32 a) data nowUs).1.Follows base stream origin := by
  have hnext : r.nextSeq = base + BitVec.ofNat 32 (origin + r.deliveredOff) := by
    rw [h.collecting.nextSeq, BitVec.add_assoc, ← BitVec.ofNat_add]
  have hdelta : seqDelta (base + BitVec.ofNat 32 a) r.nextSeq =
      (a : Int) - (origin + r.deliveredOff : Nat) := by
    rw [hnext]
    exact seq_delta_near base hhigh hlow
  have hoverlap : r.overlap (base + BitVec.ofNat 32 a) = origin + r.deliveredOff - a := by
    simp only [overlap, hdelta]
    omega
  have hbytes := h.collecting.oooBytes
  have hbounded := h.bounded
  have hreceived := h.collecting.received
  simp only [maxSegment] at hlength
  by_cases hdue : a ≤ origin + r.deliveredOff
  · rw [pushData, if_pos (by omega), hoverlap]
    split
    · exact h
    · have htail : data.drop (origin + r.deliveredOff - a) <+:
          (stream.drop origin).drop r.deliveredOff := by
        rw [List.drop_drop]
        exact slice_tail hslice hdue
      have happended := h.collecting.append
        (show _ + (data.drop (origin + r.deliveredOff - a)).length - _ + r.heldBytes < 2 ^ 31 by
          rw [List.length_drop]
          omega)
      refine follows_drain_ooo happended ?_ hbounded
      rw [available_append]
      refine slice_append h.content ?_
      show _ <+: (stream.drop origin).drop (r.bufOff + r.available.length)
      rw [hreceived]
      exact htail
  · have hsum : a = origin + (a - origin) := by omega
    have hheld_follows :
        (r.hold (base + BitVec.ofNat 32 a) data nowUs).Follows base stream origin := by
      have hnew := held_bytes_hold r (base + BitVec.ofNat 32 a) data nowUs
      refine ⟨{ h.collecting with
          held := fun segment hsegment => ?_
          oooBytes := ?_
          budget := ?_ }, h.content, by omega⟩
      · rcases List.mem_append.mp hsegment with hold | hsegment
        · exact h.collecting.held segment hold
        · obtain rfl := List.mem_singleton.mp hsegment
          refine ⟨a - origin, ?_, ?_, ?_, ?_⟩
          · rw [BitVec.add_assoc, ← BitVec.ofNat_add, ← hsum]
          · show r.deliveredOff < a - origin
            omega
          · show a - origin < r.deliveredOff + 2 ^ 31
            omega
          · rw [List.drop_drop, ← hsum]
            exact hslice
      · rw [hnew, ← hbytes]
        rfl
      · rw [hnew]
        show r.deliveredOff - r.deliveredOff + _ < 2 ^ 31
        omega
    rw [pushData, if_neg (by omega)]
    split
    · exact hheld_follows.force_gap
    · exact hheld_follows

/-- A slice of the stream at most half of the number space away. -/
theorem Follows.push_window (h : r.Follows base stream origin) {a : Nat} {data : Bytes}
    (hslice : data <+: stream.drop a) (hhigh : a ≤ origin + r.deliveredOff + 2 ^ 31)
    (hlow : origin + r.deliveredOff ≤ a + 2 ^ 31) (hlength : data.length ≤ maxSegment)
    (hheld : r.oooBytes < 2 ^ 30) (nowUs : Nat) :
    (r.pushData (base + BitVec.ofNat 32 a) data nowUs).1.Follows base stream origin := by
  have hnext : r.nextSeq = base + BitVec.ofNat 32 (origin + r.deliveredOff) := by
    rw [h.collecting.nextSeq, BitVec.add_assoc, ← BitVec.ofNat_add]
  have hhalf : BitVec.ofNat 32 (2 ^ 31) + BitVec.ofNat 32 (2 ^ 31) = 0 := by decide
  rcases hhigh.lt_or_eq with hhigh | rfl
  · rcases hlow.lt_or_eq with hlow | hlow
    · exact h.push_data hslice hhigh hlow hlength hheld nowUs
    · have hseq : base + BitVec.ofNat 32 a = r.nextSeq + BitVec.ofNat 32 (2 ^ 31) := by
        rw [hnext, hlow, BitVec.ofNat_add, BitVec.add_assoc, BitVec.add_assoc, hhalf]
        simp
      rw [push_data_far (by rw [hseq]; exact seq_delta_far _) hlength]
      exact h
  · have hseq : base + BitVec.ofNat 32 (origin + r.deliveredOff + 2 ^ 31) =
        r.nextSeq + BitVec.ofNat 32 (2 ^ 31) := by
      rw [hnext, BitVec.ofNat_add, BitVec.add_assoc]
    rw [push_data_far (by rw [hseq]; exact seq_delta_far _) hlength]
    exact h

/-- A direction that starts at `origin` follows the stream. -/
theorem follows_started (h : r.Accounted) (hinit : r.initialized = true)
    (hdelivered : r.deliveredOff = 0) (hooo : r.ooo = [])
    (hbase : r.baseSeq = base + BitVec.ofNat 32 origin) : r.Follows base stream origin := by
  have hreceived := h.received
  have hnone : r.available = [] := List.length_eq_zero_iff.mp (by omega)
  have hheld : r.heldBytes = 0 := by simp [heldBytes, hooo]
  refine ⟨{ initialized := hinit, baseSeq := hbase, nextSeq := ?_, deliveredOff := rfl,
            received := hreceived, held := ?_, oooBytes := h.oooBytes, low_le := le_refl _,
            budget := ?_ }, ?_, ?_⟩
  · rw [h.nextSeq, seqAt, hbase]
  · simp [hooo]
  · omega
  · rw [hnone]
    exact List.nil_prefix
  · omega

theorem Follows.consume (h : r.Follows base stream origin) (n : Nat) :
    (r.consume n).Follows base stream origin := by
  obtain ⟨-, -, hooo, -, -, -, -, -, hdelivered, -⟩ := reads_of_outside_eq (outside_consume r n)
  refine ⟨hdelivered ▸ (h.collecting.consume n).1, ?_, ?_⟩
  · obtain ⟨rest, hrest⟩ := h.content
    rw [available_consume, bufOff_consume, ← List.drop_drop, ← hrest]
    rcases le_total n r.available.length with hle | hle
    · rw [min_eq_left hle, List.drop_append_of_le_length hle]
      exact List.prefix_append _ _
    · rw [List.drop_eq_nil_of_le hle]
      exact List.nil_prefix
  · rw [heldBytes, hooo]
    exact h.bounded

/-! ## Calls -/

/-- The counters are right, and a direction that was started follows the stream. -/
def OnTrack (base : Seq) (stream : Bytes) (origin : Nat) (r : Reassembler) : Prop :=
  r.Accounted ∧ (r.initialized = true → r.Follows base stream origin)

theorem OnTrack.note_syn (h : r.OnTrack base stream origin) {seq : Seq}
    (hseq : OnStream base stream origin r (.noteSyn seq)) :
    (r.noteSyn seq).OnTrack base stream origin := by
  refine ⟨h.1.note_syn seq, fun _ => ?_⟩
  by_cases hinit : r.initialized = true
  · rw [Reassembler.noteSyn, if_pos hinit]
    exact h.2 hinit
  · have hnot : r.initialized = false := by simpa using hinit
    obtain ⟨hdelivered, hooo⟩ := h.1.unstarted hnot
    have hsyn := h.1.note_syn seq
    rw [Reassembler.noteSyn, if_neg hinit] at hsyn ⊢
    exact follows_started hsyn rfl hdelivered hooo (hseq hnot)

theorem OnTrack.push (h : r.OnTrack base stream origin) {seq : Seq} {data : Bytes} {nowUs : Nat}
    (hpush : OnStream base stream origin r (.push seq data nowUs)) :
    (r.push seq data nowUs).1.OnTrack base stream origin := by
  refine ⟨h.1.push seq data nowUs, fun _ => ?_⟩
  by_cases hempty : data = []
  · subst hempty
    have hinit : r.initialized = true := by assumption
    exact h.2 hinit
  · obtain ⟨hlength, hheld, a, rfl, hslice, hplace⟩ := hpush hempty
    have hpushed : r.push (base + BitVec.ofNat 32 a) data nowUs =
        (r.start (base + BitVec.ofNat 32 a)).pushData (base + BitVec.ofNat 32 a) data nowUs := by
      rw [Reassembler.push, if_neg (by simpa using hempty)]
    rw [hpushed]
    by_cases hinit : r.initialized = true
    · rw [if_pos hinit] at hplace
      rw [Reassembler.start, if_pos hinit]
      exact (h.2 hinit).push_window hslice hplace.1 hplace.2 hlength hheld nowUs
    · rw [if_neg hinit] at hplace
      obtain ⟨hdelivered, hooo⟩ := h.1.unstarted (by simpa using hinit)
      obtain ⟨hstart, hstarted⟩ := h.1.start (base + BitVec.ofNat 32 a)
      rw [Reassembler.start, if_neg hinit] at hstart hstarted ⊢
      have hfollows : Follows base stream origin _ :=
        follows_started hstart hstarted hdelivered hooo
          (congrArg (base + BitVec.ofNat 32 ·) hplace)
      refine hfollows.push_window hslice ?_ ?_ hlength hheld nowUs
      · show a ≤ origin + r.deliveredOff + 2 ^ 31
        omega
      · show origin + r.deliveredOff ≤ a + 2 ^ 31
        omega

theorem OnTrack.check_timeout (h : r.OnTrack base stream origin) (nowUs : Nat) :
    (r.checkTimeout nowUs).1.OnTrack base stream origin := by
  refine ⟨h.1.check_timeout nowUs, ?_⟩
  unfold Reassembler.checkTimeout
  split
  · split
    · intro hinit
      rw [(drained_force_gap h.1.toBalanced).initialized] at hinit
      exact (h.2 hinit).force_gap
    · exact h.2
  · exact h.2

theorem OnTrack.consume (h : r.OnTrack base stream origin) (n : Nat) :
    (r.consume n).OnTrack base stream origin := by
  refine ⟨h.1.consume n, fun hinit => ?_⟩
  obtain ⟨-, -, -, -, -, -, -, hsame, -⟩ := reads_of_outside_eq (outside_consume r n)
  exact (h.2 (hsame ▸ hinit)).consume n

/-- Every call on the stream keeps the direction on track. -/
theorem OnTrack.perform (h : r.OnTrack base stream origin) {op : ReasmOp}
    (hop : OnStream base stream origin r op) : (r.perform op).1.OnTrack base stream origin := by
  cases op with
  | noteSyn seq => exact h.note_syn hop
  | push seq data nowUs => exact h.push hop
  | checkTimeout nowUs => exact h.check_timeout nowUs
  | consume n => exact h.consume n

end Reassembler

/-- Offsets and sequence numbers stay aligned across gaps: after any calls the counters agree, and
where all segments are slices of one stream the bytes available are those of the stream at the
sequence numbers that the reassembler says. -/
theorem offsets_stay_aligned (ops : List ReasmOp) :
    Always Reassembler.perform Reassembler.Accounted .new ops ∧
      ∀ (base : Seq) (stream : Bytes) (origin : Nat),
        Guarded Reassembler.perform (OnStream base stream origin) .new ops →
          Always Reassembler.perform (Reassembler.ShowsStream base stream origin) .new ops := by
  constructor
  · exact Guarded.always (G := fun _ _ => True) (fun r op h _ => h.perform op)
      Reassembler.accounted_new (guarded_true _ _)
  · intro base stream origin hguard
    have hnew : Reassembler.new.OnTrack base stream origin :=
      ⟨Reassembler.accounted_new, fun hinit => nomatch hinit⟩
    have hstep (r : Reassembler) (op : ReasmOp) (h : r.OnTrack base stream origin)
        (hop : OnStream base stream origin r op) : (r.perform op).1.OnTrack base stream origin :=
      h.perform hop
    exact (hguard.always hstep hnew).imp fun r h => h.1.shows_stream h.2

/-- A stream of ten bytes from which `c` to `f` are lost. -/
def lossyCalls : List ReasmOp :=
  [.noteSyn 999, .push 1000 (asciiBytes "ab") 0, .push 1006 (asciiBytes "gh") 0,
    .checkTimeout 3000000, .consume 1, .push 1008 (asciiBytes "ij") 3000000]

theorem offsets_stay_aligned_lossy :
    Always Reassembler.perform
        (Reassembler.ShowsStream 1000 (asciiBytes "abcdefghij") 0) .new lossyCalls ∧
      (run Reassembler.perform .new lossyCalls).1.gaps = 1 := by
  refine ⟨(offsets_stay_aligned lossyCalls).2 1000 (asciiBytes "abcdefghij") 0 ?_, by
    decide +kernel⟩
  refine ⟨fun _ => by decide, ?_, ?_, trivial, trivial, ?_, trivial⟩
  · exact fun _ => ⟨by decide, by decide +kernel, 0, by decide, by decide, by decide +kernel⟩
  · exact fun _ => ⟨by decide, by decide +kernel, 6, by decide, by decide, by decide +kernel⟩
  · exact fun _ => ⟨by decide, by decide +kernel, 8, by decide, by decide, by decide +kernel⟩

end H2Tap
