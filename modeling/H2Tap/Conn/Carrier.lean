import H2Tap.Conn.Seek
import H2Tap.Reassembly.Accounting

/-!
# Streams whose segments arrive in order

Two ways for the segments of a stream to arrive in order. With nothing held they may have any length
and the first of them sets the base (`Carries`); with slices of the stream held since earlier, more
of it is delivered whenever a segment reaches them (`CarriesHeld`). What both have in common is a
`Carrier`: the bytes that are buffered are those of the stream at the offset of the reader.
-/

namespace H2Tap.Reassembler

/-! ## With nothing held -/

/-- `k` bytes of the stream have arrived in order. The base may still be open, before the first
segment. -/
structure Carries (base : Seq) (stream : Bytes) (k : Nat) (r : Reassembler) : Prop where
  order : (r.start base).InOrder base k
  bytes : r.available = (stream.take k).drop r.bufOff

variable {base : Seq} {stream data : Bytes} {k : Nat} {r : Reassembler}

theorem carries_new (base : Seq) (stream : Bytes) : new.Carries base stream 0 :=
  ⟨in_order_start base, rfl⟩

/-- What is buffered is the stream at the offset of the reader. -/
theorem Carries.available_slice (h : r.Carries base stream k) :
    r.available <+: stream.drop r.offset := by
  have hslice : stream.take k <+: stream := List.take_prefix k stream
  rw [h.bytes, offset]
  exact hslice.drop r.bufOff

theorem Carries.consume (h : r.Carries base stream k) (n : Nat) :
    (r.consume n).Carries base stream k := by
  have hstart : (r.consume n).start base = (r.start base).consume n := by
    cases hinit : r.initialized <;>
      by_cases hlarge : r.pos + min n (r.buf.length - r.pos) ≥ compactThreshold <;>
      simp only [start, Reassembler.consume, advance, compact, hinit, hlarge, if_true, if_false,
        Bool.false_eq_true]
  refine ⟨hstart ▸ h.order.consume n, ?_⟩
  rw [available_consume, bufOff_consume, ← List.drop_drop, ← h.bytes]
  rcases le_total n r.available.length with hle | hle
  · rw [min_eq_left hle]
  · rw [min_eq_right hle, List.drop_length, List.drop_eq_nil_of_le hle]

/-- The base is the sequence number of the first segment. -/
theorem Carries.start_eq (h : r.Carries base stream k) :
    r.start (base + BitVec.ofNat 32 k) = r.start base := by
  cases hinit : r.initialized with
  | true => simp only [start, hinit, if_true]
  | false =>
      -- nothing has arrived, so the next byte is the first
      have hnext : base = base + BitVec.ofNat 32 k := by
        have horder := h.order.nextSeq
        simpa only [start, hinit, Bool.false_eq_true, if_false] using horder
      rw [← hnext]

/-- The next segment of the stream. -/
theorem Carries.push (h : r.Carries base stream k) (hdata : data <+: stream.drop k) (nowUs : Nat) :
    (r.push (base + BitVec.ofNat 32 k) data nowUs).2 = false ∧
      (r.push (base + BitVec.ofNat 32 k) data nowUs).1.available = r.available ++ data ∧
      (r.push (base + BitVec.ofNat 32 k) data nowUs).1.offset = r.offset ∧
      (r.push (base + BitVec.ofNat 32 k) data nowUs).1.Carries base stream (k + data.length) := by
  by_cases hempty : data = []
  · subst hempty
    exact ⟨rfl, (List.append_nil _).symm, rfl, h⟩
  rw [push_start r _ hempty, h.start_eq]
  obtain ⟨hgap, havailable, horder⟩ := push_in_order h.order data nowUs
  have hstarted : (r.start base).available = r.available ∧ (r.start base).bufOff = r.bufOff := by
    unfold start
    split <;> exact ⟨rfl, rfl⟩
  rw [hstarted.1] at havailable
  -- the reader has not moved
  have hreceived := h.order.received
  have hreceived' := horder.received
  rw [hstarted.1, hstarted.2] at hreceived
  rw [havailable, List.length_append] at hreceived'
  have hoffset : ((r.start base).push (base + BitVec.ofNat 32 k) data nowUs).1.bufOff =
      r.bufOff := by omega
  refine ⟨hgap, havailable, hoffset, ⟨?_, ?_⟩⟩
  · have hfixed (r' : Reassembler) (hinit : r'.initialized = true) : r'.start base = r' := by
      rw [start, if_pos hinit]
    rw [hfixed _ horder.initialized]
    exact horder
  · obtain ⟨rest, hrest⟩ := hdata
    have hlength : (stream.take k).length = k := by
      have hnonempty := List.length_pos_iff.mpr hempty
      have htotal := congrArg List.length hrest
      rw [List.length_append, List.length_drop] at htotal
      rw [List.length_take]
      omega
    have htake : stream.take (k + data.length) = stream.take k ++ data := by
      rw [List.take_add, ← hrest, List.take_left]
    rw [havailable, hoffset, htake, List.drop_append_of_le_length (by omega), h.bytes]

/-! ## With segments held -/

/-- The stream has arrived in order up to `a`, and further as far as held segments reached. -/
structure CarriesHeld (base : Seq) (stream : Bytes) (a : Nat) (r : Reassembler) : Prop where
  collected : r.Collected base stream r.deliveredOff
  bytes : r.available <+: stream.drop r.offset
  reached : a ≤ r.deliveredOff
  near : r.deliveredOff + r.heldBytes ≤ a + defaultOooLimit

theorem carries_held_of_collected (h : r.Collected base stream k)
    (hbytes : r.available <+: stream.drop r.offset) : r.CarriesHeld base stream k := by
  have hdelivered := h.collecting.deliveredOff
  have hheld := h.collecting.oooBytes
  have hwithin := h.within
  rw [h.limit] at hwithin
  exact ⟨hdelivered.symm ▸ h, hbytes, hdelivered.ge, by omega⟩

theorem CarriesHeld.consume {a : Nat} (h : r.CarriesHeld base stream a) (n : Nat) :
    (r.consume n).CarriesHeld base stream a := by
  obtain ⟨-, -, hooo, -, -, -, -, -, hdelivered, -⟩ := reads_of_outside_eq (outside_consume r n)
  have hheld : (r.consume n).heldBytes = r.heldBytes := by rw [heldBytes, heldBytes, hooo]
  refine ⟨hdelivered ▸ (Delivery.anyOrder base stream).consume h.collected n, ?_,
    hdelivered ▸ h.reached, by rw [hdelivered, hheld]; exact h.near⟩
  have hbytes := h.bytes
  rw [offset] at hbytes
  obtain ⟨rest, hrest⟩ := hbytes
  rw [available_consume, offset, bufOff_consume, ← List.drop_drop, ← hrest]
  rcases le_total n r.available.length with hle | hle
  · rw [min_eq_left hle, List.drop_append_of_le_length hle]
    exact List.prefix_append _ _
  · rw [List.drop_eq_nil_of_le hle]
    exact List.nil_prefix

/-- The next segment of the stream. -/
theorem CarriesHeld.push {a : Nat} (h : r.CarriesHeld base stream a)
    (hdata : data <+: stream.drop a) (hlength : data.length < 2 ^ 30) (nowUs : Nat) :
    (r.push (base + BitVec.ofNat 32 a) data nowUs).2 = false ∧
      (r.push (base + BitVec.ofNat 32 a) data nowUs).1.offset = r.offset ∧
      (r.push (base + BitVec.ofNat 32 a) data nowUs).1.CarriesHeld base stream
        (a + data.length) := by
  obtain ⟨pushed, hpushed⟩ : ∃ pushed, pushed = r.push (base + BitVec.ofNat 32 a) data nowUs :=
    ⟨_, rfl⟩
  have hreached := h.reached
  have hnear := h.near
  rw [defaultOooLimit] at hnear
  have hdelta : seqDelta (base + BitVec.ofNat 32 a) r.nextSeq = (a : Int) - r.deliveredOff := by
    rw [h.collected.collecting.nextSeq]
    exact seq_delta_near base (by omega) (by omega)
  have hoverlap : r.overlap (base + BitVec.ofNat 32 a) = r.deliveredOff - a := by
    simp only [overlap, hdelta]
    omega
  have hstart : r.start (base + BitVec.ofNat 32 a) = r := by
    rw [start, if_pos h.collected.collecting.initialized]
  -- a segment that is due is never held, so it cannot declare a gap
  have hquiet : pushed.2 = false ∧ a + data.length ≤ pushed.1.deliveredOff ∧
      pushed.1.deliveredOff + pushed.1.heldBytes ≤ a + data.length + defaultOooLimit := by
    have hdue : (a : Int) - r.deliveredOff ≤ 0 := by omega
    rw [hpushed, Reassembler.push]
    split
    · next hempty =>
        rw [List.isEmpty_iff.mp hempty]
        exact ⟨rfl, hreached, h.near⟩
    · rw [hstart, pushData, hdelta, if_pos hdue, hoverlap]
      split
      · exact ⟨rfl, by dsimp only; omega, h.near.trans (by omega)⟩
      · obtain ⟨hmore, hless⟩ := delivered_drain_ooo (r.append (data.drop (r.deliveredOff - a)))
        have hdelivered : (r.append (data.drop (r.deliveredOff - a))).deliveredOff =
            r.deliveredOff + (data.length - (r.deliveredOff - a)) := by
          rw [← List.length_drop]
          rfl
        have hheld : (r.append (data.drop (r.deliveredOff - a))).heldBytes = r.heldBytes := rfl
        refine ⟨rfl, ?_, ?_⟩ <;> dsimp only
        · omega
        · rw [defaultOooLimit]
          omega
  have hgap : (r.push (base + BitVec.ofNat 32 a) data nowUs).2 = false := hpushed ▸ hquiet.1
  obtain ⟨more, hmore, havailable, hcollected⟩ :=
    push_slice h.collected hdata (by omega) (by omega) hlength nowUs hgap
  rw [← hpushed] at havailable hcollected ⊢
  have hreceived := h.collected.collecting.received
  have hreceived' := hcollected.collecting.received
  rw [havailable, List.length_append] at hreceived'
  have hoffset : pushed.1.bufOff = r.bufOff := by omega
  have hdelivered := hcollected.collecting.deliveredOff
  refine ⟨hquiet.1, hoffset, hdelivered.symm ▸ hcollected, ?_, hquiet.2.1, hquiet.2.2⟩
  rw [havailable, offset, hoffset]
  refine slice_append h.bytes ?_
  show more <+: stream.drop (r.bufOff + r.available.length)
  rwa [hreceived]

/-! ## Either way -/

/-- A way for the segments of a stream to arrive: `P` says up to where they have, `C` which
segments may follow. -/
structure Carrier (base : Seq) (stream : Bytes) (C : Bytes → Prop) (P : Nat → Reassembler → Prop) :
    Prop where
  slice : ∀ {a r}, P a r → r.available <+: stream.drop r.offset
  consume : ∀ {a r}, P a r → ∀ n, P a (r.consume n)
  push : ∀ {a r data}, P a r → C data → data <+: stream.drop a → ∀ nowUs,
    (r.push (base + BitVec.ofNat 32 a) data nowUs).2 = false ∧
      (r.push (base + BitVec.ofNat 32 a) data nowUs).1.offset = r.offset ∧
      P (a + data.length) (r.push (base + BitVec.ofNat 32 a) data nowUs).1

theorem carrier_in_order (base : Seq) (stream : Bytes) :
    Carrier base stream (fun _ => True) (Carries base stream) where
  slice h := h.available_slice
  consume h n := h.consume n
  push h _ hdata nowUs := by
    obtain ⟨hgap, -, hoffset, hcarries⟩ := h.push hdata nowUs
    exact ⟨hgap, hoffset, hcarries⟩

theorem carrier_held (base : Seq) (stream : Bytes) :
    Carrier base stream (fun data => data.length < 2 ^ 30) (CarriesHeld base stream) where
  slice h := h.bytes
  consume h n := h.consume n
  push h hlength hdata nowUs := h.push hdata hlength nowUs

end H2Tap.Reassembler
