import H2Tap.Tracker.Tracker

/-!
# Refusals and their reasons

A direction is usable by two predicates that were written separately: the chain of reasons of
`dir_snapshot` and `Direction::is_snapshottable`. They differ in one thing: no reason is given for a
header block that is still open. `refusals_explained_iff` says that this is the only case in which a
snapshot refuses a direction without saying why.
-/

namespace H2Tap

/-! ## Runs of the tracker -/

/-- What drives the tracker: a segment or a tick, with its time. -/
inductive TrackerOp where
  | segment (seg : EthSegment) (nowUs : Nat)
  | tick (nowUs : Nat)

namespace Tracker

variable [HuffmanDecoding]

/-- One call. -/
def perform (t : Tracker) : TrackerOp → Tracker
  | .segment seg nowUs => t.onSegment seg nowUs
  | .tick nowUs => t.tick nowUs

/-- The tracker after some calls. -/
def after (t : Tracker) (ops : List TrackerOp) : Tracker := ops.foldl perform t

end Tracker

/-! ## Reasons -/

/-- What a direction is refused for besides an open header block. -/
def DirTrack.Doubtful (t : DirTrack) (ringOldestUs : Option Nat) : Prop :=
  t.dir.dec.overLimit = true ∨ t.dir.poisoned = true ∨ t.dir.desynced = true ∨
    t.dir.dec.isExact = false ∨ pendingCovered t.pendingSinceUs ringOldestUs = false

/-- The reason says whether a direction is usable. -/
def DirSnapshot.Explained (s : DirSnapshot) : Prop := s.usable = true ↔ s.reason = none

/-- A snapshot of the connection table gives a reason for every direction that it refuses. -/
def RefusalsExplained (conns : List ConnSnapshot) : Prop :=
  ∀ conn ∈ conns, ∀ s ∈ conn.dirs, s.Explained

variable {t : DirTrack} {ringOldestUs : Option Nat}

/-- The chain of reasons ends without one exactly if nothing is in doubt. -/
theorem dir_reason_eq_none_iff : dirReason t ringOldestUs = none ↔ ¬t.Doubtful ringOldestUs := by
  unfold dirReason DirTrack.Doubtful
  cases t.dir.dec.overLimit <;> cases t.dir.poisoned <;> cases t.dir.desynced <;>
    cases t.dir.dec.isExact <;> cases pendingCovered t.pendingSinceUs ringOldestUs <;> simp

/-- A direction about which nothing is in doubt is snapshottable unless a header block is open. -/
theorem snapshottable_iff_of_not_doubtful (h : ¬t.Doubtful ringOldestUs) :
    t.dir.isSnapshottable = true ↔ t.dir.blockHdr = none := by
  unfold DirTrack.Doubtful at h
  rw [not_or, not_or, not_or, not_or, Bool.not_eq_true, Bool.not_eq_true, Bool.not_eq_true,
    Bool.not_eq_false, Bool.not_eq_false] at h
  obtain ⟨-, hpoisoned, hdesynced, hexact, -⟩ := h
  rw [Direction.isSnapshottable, hpoisoned, hdesynced, hexact]
  exact Option.isNone_iff_eq_none

/-- The snapshot of a direction is explained unless an open header block is all that it is refused
for. -/
theorem dir_snapshot_explained_iff (name : String) (src dst : SocketAddr) :
    (dirSnapshot name src dst t ringOldestUs).Explained ↔
      (t.dir.blockHdr ≠ none → t.Doubtful ringOldestUs) := by
  show (((dirReason t ringOldestUs).isNone && t.dir.isSnapshottable) = true ↔
    dirReason t ringOldestUs = none) ↔ _
  rw [Bool.and_eq_true, Option.isNone_iff_eq_none, dir_reason_eq_none_iff]
  by_cases hdoubt : t.Doubtful ringOldestUs
  · exact iff_of_true (iff_of_false (fun h => h.1 hdoubt) (not_not.mpr hdoubt)) fun _ => hdoubt
  · rw [snapshottable_iff_of_not_doubtful hdoubt]
    tauto

/-- The directions in the snapshot of a connection. -/
theorem refusals_explained_of_conns (t : Tracker) (ringOldestUs : Option Nat) :
    RefusalsExplained (t.snapshot ringOldestUs).1 ↔
      ∀ c ∈ t.conns.values, ∀ s ∈ c.dirSnapshots ringOldestUs, s.Explained := by
  simp only [RefusalsExplained, Tracker.snapshot, List.forall_mem_map]
  rfl

/-! ## Every run -/

/-- No connection has a direction with an open header block about which nothing else is in
doubt. -/
def Tracker.OpenBlocksDoubtful (t : Tracker) (ringOldestUs : Option Nat) : Prop :=
  ∀ c ∈ t.conns.values, ∀ isC2s, (c.dir isC2s).dir.blockHdr ≠ none →
    (c.dir isC2s).Doubtful ringOldestUs

/-- After any segments and ticks, a snapshot gives a reason for every direction that it refuses if
and only if no header block is open in a direction that is otherwise fine. -/
theorem refusals_explained_iff [HuffmanDecoding] (serverPorts : List UInt16)
    (maxConns idleSecs tableLimit : Nat) (ops : List TrackerOp) (ringOldestUs : Option Nat) :
    let t := (Tracker.new serverPorts maxConns idleSecs tableLimit).after ops
    RefusalsExplained (t.snapshot ringOldestUs).1 ↔ t.OpenBlocksDoubtful ringOldestUs := by
  intro t
  rw [refusals_explained_of_conns]
  refine forall₂_congr fun c hc => ?_
  simp only [TrackedConn.dirSnapshots, List.forall_mem_cons, List.not_mem_nil, false_imp_iff,
    implies_true, and_true, dir_snapshot_explained_iff, Bool.forall_bool]
  exact and_comm

/-- The handshake of the reference connection, and a HEADERS frame of the server without
END_HEADERS. -/
def openBlockOps : List TrackerOp :=
  let segment (src dst : SocketAddr) (seq : Seq) (flags : UInt8) (payload : Bytes) : EthSegment :=
    { seq := seq, flags := flags, payload := payload, ethDst := Pkt.clientEndpoint.ethDst,
      ethSrc := Pkt.clientEndpoint.ethSrc, src := src, dst := dst, ackSeq := 0 }
  [.segment (segment Pkt.clientAddr Pkt.serverAddr 99 TcpFlags.syn []) 1,
    .segment (segment Pkt.serverAddr Pkt.clientAddr 199 (TcpFlags.syn ||| TcpFlags.ack) []) 2,
    .segment (segment Pkt.serverAddr Pkt.clientAddr 200 TcpFlags.ack
      [0, 0, 1, FrameType.headers, 0, 0, 0, 0, 1, 0x88]) 3]

/-- With the block still open, the direction of the server is refused without a reason. -/
theorem open_block_unexplained :
    let _ := noHuffman.toHuffmanDecoding
    ¬∀ (serverPorts : List UInt16) (maxConns idleSecs tableLimit : Nat) (ops : List TrackerOp)
      (ringOldestUs : Option Nat),
      RefusalsExplained (((Tracker.new serverPorts maxConns idleSecs tableLimit).after ops).snapshot
        ringOldestUs).1 := by
  intro _ hclaim
  have hopen : ∃ c ∈ ((Tracker.new [7777] 100 300 65536).after openBlockOps).conns.values,
      ∃ s ∈ c.dirSnapshots none, s.usable = false ∧ s.reason = none := by
    decide +kernel
  obtain ⟨c, hc, s, hs, husable, hreason⟩ := hopen
  have hexplained := hclaim [7777] 100 300 65536 openBlockOps none
  rw [refusals_explained_of_conns] at hexplained
  rw [(hexplained c hc s hs).mpr hreason] at husable
  cases husable

end H2Tap
