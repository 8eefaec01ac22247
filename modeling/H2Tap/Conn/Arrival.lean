import H2Tap.Conn.FrameBoundary

/-!
# A stream seen in any order

A tap sees the segments of a stream in any order, some of them more than once, and checks the
timeout in between. As long as no gap is declared, `arrivals_follow` says that the direction follows
the stream from its start to the byte up to which it was delivered.
-/

namespace H2Tap.Direction

open Lib

/-- What happens to a direction: a slice of the stream arrives, or the timeout is checked. -/
inductive Arrival where
  | segment (start len nowUs : Nat)
  | tick (nowUs : Nat)
  deriving DecidableEq

section

variable [HuffmanDecoding]

/-- The direction after an arrival, with the frames it returns. -/
def arrive (base : Seq) (stream : Bytes) (d : Direction) : Arrival → Direction × List ProcessedFrame
  | .segment start len nowUs =>
      d.feed (base + BitVec.ofNat 32 start) ((stream.drop start).take len) nowUs
  | .tick nowUs => d.tick nowUs

/-- An arrival that does not make the reassembler declare a gap. A segment has less than 2^30 bytes
and starts within the window in which its sequence number tells its place. -/
def arrivesInWindow (base : Seq) (stream : Bytes) (d : Direction) : Arrival → Prop
  | .segment start len nowUs =>
      len < 2 ^ 30 ∧ d.reasm.deliveredOff < start + 2 ^ 31 ∧
        start < d.reasm.deliveredOff + 2 ^ 31 ∧
        (d.reasm.push (base + BitVec.ofNat 32 start) ((stream.drop start).take len) nowUs).2 = false
  | .tick nowUs => (d.reasm.checkTimeout nowUs).2 = false

instance (base : Seq) (stream : Bytes) (d : Direction) (arrival : Arrival) :
    Decidable (d.arrivesInWindow base stream arrival) := by
  cases arrival <;> unfold arrivesInWindow <;> infer_instance

omit [HuffmanDecoding] in
theorem check_timeout_same {r : Reassembler} {nowUs : Nat}
    (hgap : (r.checkTimeout nowUs).2 = false) : (r.checkTimeout nowUs).1 = r := by
  revert hgap
  unfold Reassembler.checkTimeout
  split
  · split
    · intro hgap
      cases hgap
    · exact fun _ => rfl
  · exact fun _ => rfl

theorem tick_same {d : Direction} {nowUs : Nat} (hgap : (d.reasm.checkTimeout nowUs).2 = false) :
    d.tick nowUs = (d, []) := by
  rw [tick, hgap, check_timeout_same hgap]
  rfl

variable {src : Source} {before : Nat → Bytes → Direction → Prop} {base : Seq} {stream : Bytes}

/-- What a segment does before the first frame. -/
def TakenBefore (src : Source) (before : Nat → Bytes → Direction → Prop) : Prop :=
  ∀ k data rest d pushed, before k (data ++ rest) d →
    src.delivery.Holds d.reasm k ∧ (src.delivery.Adds d.reasm k data pushed →
      Follows src before (k + data.length) rest
        ((d.withReassembled pushed).parse.2.map frameOutput) (d.withReassembled pushed).parse.1)

/-- An arrival takes the direction on to a later byte of the stream, or leaves it where it is. -/
theorem arrive_follows (hdelivery : src.delivery = .anyOrder base stream)
    (htaken : TakenBefore src before) {d : Direction} {k : Nat}
    {outs : List (Option DecodedBlock × Option Nat)} (arrival : Arrival) (hk : k ≤ stream.length)
    (h : Follows src before k (stream.drop k) outs d)
    (hwindow : d.arrivesInWindow base stream arrival) :
    ∃ k', k ≤ k' ∧ k' ≤ stream.length ∧ Follows src before k' (stream.drop k')
      (outs ++ (d.arrive base stream arrival).2.map frameOutput)
      (d.arrive base stream arrival).1 := by
  cases arrival with
  | tick nowUs =>
      rw [arrive, tick_same hwindow]
      exact ⟨k, le_refl k, hk, by simpa using h⟩
  | segment start len nowUs =>
      obtain ⟨hlen, hlow, hhigh, hgap⟩ := hwindow
      have hslice : (stream.drop start).take len <+: stream.drop start := List.take_prefix _ _
      have hshort : ((stream.drop start).take len).length < 2 ^ 30 :=
        (List.length_take_le _ _).trans_lt hlen
      -- what is delivered, when the bytes delivered so far are known
      have hadds : src.delivery.Holds d.reasm k → ∃ more rest, stream.drop k = more ++ rest ∧
          src.delivery.Adds d.reasm k more (d.reasm.push (base + BitVec.ofNat 32 start)
            ((stream.drop start).take len) nowUs) := by
        rw [hdelivery]
        intro hholds
        have hdelivered : d.reasm.deliveredOff = k :=
          (Reassembler.Collected.collecting hholds).deliveredOff
        rw [hdelivered] at hlow hhigh
        obtain ⟨more, ⟨rest, hrest⟩, hmore⟩ := adds_slice hholds hslice hlow hhigh hshort nowUs hgap
        exact ⟨more, rest, hrest.symm, hmore⟩
      have hnext : ∀ {more rest : Bytes}, stream.drop k = more ++ rest →
          k + more.length ≤ stream.length ∧ stream.drop (k + more.length) = rest := by
        intro more rest hsplit
        have hlength := congrArg List.length hsplit
        rw [List.length_drop, List.length_append] at hlength
        exact ⟨by omega, by rw [← List.drop_drop, hsplit, List.drop_left]⟩
      simp only [arrive, feed]
      rcases h with hlost | ⟨hbefore, rfl⟩ | ⟨j, hreads, -, rfl⟩
      · exact ⟨k, le_refl k, hk, Or.inl ⟨lost_sync_parse (hlost.sync.reassembled _), hlost.frame⟩⟩
      · obtain ⟨more, rest, hsplit, hmore⟩ := hadds
          (htaken k [] (stream.drop k) d (d.reasm, false) hbefore).1
        obtain ⟨hle, hrest⟩ := hnext hsplit
        rw [hsplit] at hbefore
        refine ⟨k + more.length, Nat.le_add_right _ _, hle, ?_⟩
        rw [hrest]
        exact (htaken k more rest d _ hbefore).2 hmore
      · obtain ⟨more, rest, hsplit, hmore⟩ := hadds hreads.order
        obtain ⟨hle, hrest⟩ := hnext hsplit
        rw [hsplit] at hreads
        refine ⟨k + more.length, Nat.le_add_right _ _, hle, ?_⟩
        rw [hrest]
        exact follows_parse (reads_received hreads hmore)

/-- Any number of arrivals. -/
theorem arrivals_follow (hdelivery : src.delivery = .anyOrder base stream)
    (htaken : TakenBefore src before) {d : Direction} {k : Nat}
    {outs : List (Option DecodedBlock × Option Nat)} {arrivals : List Arrival}
    (hk : k ≤ stream.length) (h : Follows src before k (stream.drop k) outs d)
    (hwindow : Guarded (arrive base stream) (arrivesInWindow base stream) d arrivals) :
    ∃ k', k ≤ k' ∧ k' ≤ stream.length ∧ Follows src before k' (stream.drop k')
      (outs ++ (run (arrive base stream) d arrivals).2.flatten.map frameOutput)
      (run (arrive base stream) d arrivals).1 := by
  induction arrivals generalizing d k outs with
  | nil => exact ⟨k, le_refl k, hk, by simpa using h⟩
  | cons arrival arrivals ih =>
      obtain ⟨hfirst, hrest⟩ := hwindow
      obtain ⟨k₁, hle₁, hk₁, hfollows₁⟩ := arrive_follows hdelivery htaken arrival hk h hfirst
      obtain ⟨k₂, hle₂, hk₂, hfollows₂⟩ := ih hk₁ hfollows₁ hrest
      refine ⟨k₂, hle₁.trans hle₂, hk₂, ?_⟩
      simp only [run, List.flatten_cons, List.map_append, ← List.append_assoc]
      exact hfollows₂

/-- A direction watched from its SYN follows the stream, whatever the order of its segments. -/
theorem watched_arrivals {keepPayloads hasPreface : Bool} {limit : Nat} {isn : Seq}
    {frames : List Frame} {arrivals : List Arrival}
    (hstream : stream = leadBytes hasPreface ++ framesWire frames)
    (hwindow : Guarded (arrive (isn + 1) stream) (arrivesInWindow (isn + 1) stream)
      (watchedFrom keepPayloads hasPreface limit isn) arrivals) :
    ∃ k ≤ stream.length,
      Follows (watchedSource keepPayloads limit isn (.anyOrder (isn + 1) stream) frames)
        (AwaitsFirstFrame keepPayloads hasPreface limit isn (.anyOrder (isn + 1) stream) frames) k
        (stream.drop k) ((run (arrive (isn + 1) stream)
          (watchedFrom keepPayloads hasPreface limit isn) arrivals).2.flatten.map frameOutput)
        (run (arrive (isn + 1) stream) (watchedFrom keepPayloads hasPreface limit isn)
          arrivals).1 := by
  have hstart := watched_start keepPayloads hasPreface limit isn frames
    (show (Delivery.anyOrder (isn + 1) stream).Holds (Reassembler.new.noteSyn isn) 0 from
      Reassembler.collected_note_syn isn stream)
  rw [← hstream] at hstart
  obtain ⟨k, -, hk, hfollows⟩ := arrivals_follow (k := 0) rfl (by
    rintro k data rest d pushed hbefore
    refine ⟨hbefore.2.order, fun hadds => ?_⟩
    have hnext := watched_received keepPayloads hasPreface limit isn (fun _ => hadds)
      (Or.inr (Or.inl ⟨hbefore, rfl⟩))
    exact hnext) (Nat.zero_le _) hstart hwindow
  exact ⟨k, hk, hfollows⟩

end

end H2Tap.Direction
