import H2Tap.Tracker.Limits

/-!
# A connection as if it were alone

Connections share the tracker's table, and nothing else: a segment changes its own connection only.
They can get in each other's way through the number of connections, which is counted in
`rejected_full`. As long as that count is zero, every connection is tracked as if its segments had
been the only ones (`connection_alone`).
-/

namespace H2Tap

open Lib

/-- Whether a call may touch the connection `k`. -/
def TrackerOp.concerns (k : Key) : TrackerOp → Bool
  | .segment seg _ => keyOf seg.src seg.dst = k
  | .tick _ => true

namespace Tracker

variable [HuffmanDecoding]

/-! ## Refusals -/

/-- A segment is refused exactly if it has no target. -/
theorem rejected_on_segment (t : Tracker) (seg : EthSegment) (nowUs : Nat) :
    (t.onSegment seg nowUs).rejectedFull =
      t.rejectedFull + (t.target seg nowUs).isNone.toNat := by
  rw [on_segment_eq]
  split
  · next hsome => rw [hsome]; rfl
  · next hnone => rw [hnone]; rfl

/-- Refusals are never taken back. -/
theorem rejected_le_after (t : Tracker) (ops : List TrackerOp) :
    t.rejectedFull ≤ (t.after ops).rejectedFull := by
  induction ops generalizing t with
  | nil => exact le_refl _
  | cons op ops ih =>
      refine le_trans ?_ (ih (t.perform op))
      cases op with
      | tick nowUs => exact le_refl _
      | segment seg nowUs =>
          show t.rejectedFull ≤ (t.onSegment seg nowUs).rejectedFull
          rw [rejected_on_segment]
          exact Nat.le_add_right _ _

/-! ## Two trackers -/

/-- The second tracker has the same limits as the first one, the same connection `k`, and no other
one. -/
structure Alone (k : Key) (t alone : Tracker) : Prop where
  limits : SameLimits t alone
  same : alone.conns.lookup k = t.conns.lookup k
  only : ∀ k' ≠ k, alone.conns.lookup k' = none

variable {k : Key} {t alone : Tracker}

omit [HuffmanDecoding] in
/-- Whatever a segment opens depends on the limits only. -/
theorem open_conn_congr (h : SameLimits t alone) (seg : EthSegment) (nowUs : Nat) :
    alone.openConn seg nowUs = t.openConn seg nowUs := by
  have hendpoints : alone.endpoints seg = t.endpoints seg := by
    unfold endpoints
    rw [h.ports]
  unfold openConn
  rw [hendpoints, h.tableLimit]

omit [HuffmanDecoding] in
/-- A tracker without other connections has room for one. -/
theorem Alone.room (h : Alone k t alone) : (alone.conns.erase k).entries.length = 0 := by
  rw [List.length_eq_zero_iff, List.eq_nil_iff_forall_not_mem]
  intro e he
  have hlookup : (alone.conns.erase k).lookup e.1 = some e.2 := AList.mem_lookup_iff.mpr he
  by_cases hk : e.1 = k
  · rw [hk, AList.lookup_erase] at hlookup
    cases hlookup
  · rw [AList.lookup_erase_ne hk, h.only _ hk] at hlookup
    cases hlookup

omit [HuffmanDecoding] in
/-- A segment that has a target in one tracker has the same one in the other. -/
theorem Alone.target (h : Alone k t alone) {seg : EthSegment} (hkey : keyOf seg.src seg.dst = k)
    {nowUs : Nat} {c : TrackedConn} (htarget : t.target seg nowUs = some c) :
    alone.target seg nowUs = some c := by
  rw [target_eq, hkey] at htarget ⊢
  rw [h.same, h.room, h.limits.maxConns, open_conn_congr h.limits]
  by_cases hroom : (t.conns.erase k).entries.length < t.maxConns
  · rw [if_pos hroom] at htarget
    rwa [if_pos (Nat.zero_lt_of_lt hroom)]
  · rw [if_neg hroom, Option.or_none] at htarget
    rw [htarget, Option.some_or]

/-- A segment of the connection. -/
theorem Alone.segment (h : Alone k t alone) {seg : EthSegment} (hkey : keyOf seg.src seg.dst = k)
    {nowUs : Nat} {c : TrackedConn} (htarget : t.target seg nowUs = some c) :
    Alone k (t.onSegment seg nowUs) (alone.onSegment seg nowUs) where
  limits := ((same_limits_perform t (.segment seg nowUs)).symm.trans h.limits).trans
    (same_limits_perform alone (.segment seg nowUs))
  same := by
    subst hkey
    rw [lookup_on_segment htarget, lookup_on_segment (h.target rfl htarget)]
  only := by
    intro k' hk'
    rw [lookup_on_segment_ne alone nowUs (by rwa [hkey])]
    exact h.only k' hk'

/-- A segment of another connection, which the second tracker does not get. -/
theorem Alone.other (h : Alone k t alone) {seg : EthSegment} (hkey : keyOf seg.src seg.dst ≠ k)
    (nowUs : Nat) : Alone k (t.onSegment seg nowUs) alone where
  limits := (same_limits_perform t (.segment seg nowUs)).symm.trans h.limits
  same := by rw [lookup_on_segment_ne t nowUs hkey.symm, h.same]
  only := h.only

/-- What a tick leaves of a connection depends on the limits only. -/
theorem lookup_tick (t : Tracker) (nowUs : Nat) (k : Key) :
    (t.tick nowUs).conns.lookup k = (t.conns.lookup k).bind fun c =>
      if t.keeps nowUs { c with toConn := c.toConn.tick nowUs } then
        some { c with toConn := c.toConn.tick nowUs } else none :=
  Table.lookup_update _ t.conns k

/-- A tick, which both get. -/
theorem Alone.tick (h : Alone k t alone) (nowUs : Nat) :
    Alone k (t.tick nowUs) (alone.tick nowUs) where
  limits := ((same_limits_perform t (.tick nowUs)).symm.trans h.limits).trans
    (same_limits_perform alone (.tick nowUs))
  same := by
    have hkeeps : ∀ c, alone.keeps nowUs c = t.keeps nowUs c := by
      intro c
      unfold keeps
      rw [h.limits.idle]
    rw [lookup_tick, lookup_tick, h.same]
    simp only [hkeeps]
  only := by
    intro k' hk'
    rw [lookup_tick, h.only k' hk', Option.bind_none]

/-- As long as no segment is refused, both trackers stay alike. -/
theorem Alone.after (h : Alone k t alone) {ops : List TrackerOp}
    (hroom : (t.after ops).rejectedFull = 0) :
    Alone k (t.after ops) (alone.after (ops.filter (TrackerOp.concerns k))) := by
  induction ops generalizing t alone with
  | nil => exact h
  | cons op ops ih =>
      cases op with
      | tick nowUs => exact ih (h.tick nowUs) hroom
      | segment seg nowUs =>
          have hhere : (t.onSegment seg nowUs).rejectedFull = 0 :=
            Nat.le_zero.mp ((rejected_le_after _ ops).trans (le_of_eq hroom))
          by_cases hkey : keyOf seg.src seg.dst = k
          · obtain ⟨c, htarget⟩ : ∃ c, t.target seg nowUs = some c := by
              rw [rejected_on_segment] at hhere
              cases htarget : t.target seg nowUs with
              | some c => exact ⟨c, rfl⟩
              | none =>
                  rw [htarget] at hhere
                  exact absurd hhere (Nat.succ_ne_zero _)
            rw [List.filter_cons_of_pos (by simpa [TrackerOp.concerns] using hkey)]
            exact ih (h.segment hkey htarget) hroom
          · rw [List.filter_cons_of_neg (by simpa [TrackerOp.concerns] using hkey)]
            exact ih (h.other hkey nowUs) hroom

end Tracker

/-- After segments and ticks of which none was refused, a connection is what it would be if its own
segments and the ticks had been all. -/
theorem connection_alone [HuffmanDecoding] (serverPorts : List UInt16)
    (maxConns idleSecs tableLimit : Nat) (k : Key) (ops : List TrackerOp) :
    let start := Tracker.new serverPorts maxConns idleSecs tableLimit
    (start.after ops).rejectedFull = 0 →
      (start.after ops).conns.lookup k =
        (start.after (ops.filter (TrackerOp.concerns k))).conns.lookup k := by
  intro start hroom
  have hstart : Tracker.Alone k start start :=
    ⟨.refl start, rfl, fun k' _ => AList.lookup_empty k'⟩
  exact (hstart.after hroom).same.symm

/-- Segments of two clients of one server, and a tick. -/
def twoClientsOps : List TrackerOp :=
  let other : SocketAddr := { Pkt.clientAddr with port := 50001 }
  [.segment (referenceSegment true 99 TcpFlags.syn []) 1,
    .segment { referenceSegment true 499 TcpFlags.syn [] with src := other } 2,
    .segment (referenceSegment true 100 TcpFlags.ack (preface.take 12)) 3,
    .segment { referenceSegment true 500 TcpFlags.ack preface with src := other } 4,
    .tick 5,
    .segment (referenceSegment true 112 TcpFlags.ack (preface.drop 12)) 6]

/-- The first client is tracked as if the second one were not there. -/
theorem connection_alone_two_clients :
    let _ := noHuffman.toHuffmanDecoding
    let start := Tracker.new [7777] 100 300 4096
    let k := keyOf Pkt.clientAddr Pkt.serverAddr
    (start.after twoClientsOps).conns.lookup k =
      (start.after (twoClientsOps.filter (TrackerOp.concerns k))).conns.lookup k := by
  intro _ start k
  exact connection_alone [7777] 100 300 4096 k twoClientsOps (by decide +kernel)

end H2Tap
