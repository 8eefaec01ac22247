import H2Tap.Lib.Table
import H2Tap.Snapshot
import H2Tap.Tracker.Conn

/-!
# The table of live connections

`tracker.rs`: `Tracker::on_segment` finds the connection of a segment, or opens one, and hands the
segment on; `Tracker::tick` drives the timeouts and drops connections that are idle or closed.
`Tracker::snapshot` records every connection, with the reason why a direction is not usable.
The order of the connections is that of the table, which the source leaves open.
-/

namespace H2Tap

open Lib

/-- `Conn`, with its name and addresses. -/
structure TrackedConn extends Conn where
  id : String
  client : SocketAddr
  server : SocketAddr
  firstSeenUs : Nat
  deriving DecidableEq

/-- `Tracker`. The source keeps the ports sorted, for a binary search. -/
structure Tracker where
  conns : Table Key TrackedConn
  serverPorts : List UInt16
  maxConns : Nat
  idleUs : Nat
  tableLimit : Nat
  segments : Nat
  evicted : Nat
  rejectedFull : Nat

namespace Tracker

/-- `Tracker::new`. -/
def new (serverPorts : List UInt16) (maxConns idleSecs tableLimit : Nat) : Tracker where
  conns := ∅
  serverPorts := serverPorts
  maxConns := maxConns
  idleUs := idleSecs * 1000000
  tableLimit := tableLimit
  segments := 0
  evicted := 0
  rejectedFull := 0

/-- Who is the client: the sender of a bare SYN, else the side that talks to a server port, else the
sender. -/
def endpoints (t : Tracker) (seg : EthSegment) : SocketAddr × SocketAddr :=
  if seg.freshSyn then (seg.src, seg.dst)
  else if t.serverPorts.contains seg.dst.port then (seg.src, seg.dst)
  else if t.serverPorts.contains seg.src.port then (seg.dst, seg.src)
  else (seg.src, seg.dst)

/-- The connection that a segment opens. -/
def openConn (t : Tracker) (seg : EthSegment) (nowUs : Nat) : TrackedConn :=
  let (client, server) := t.endpoints seg
  { Conn.new seg.freshSyn t.tableLimit nowUs with
    id := s!"{client.text}-{server.text}#{nowUs}"
    client := client
    server := server
    firstSeenUs := nowUs }

/-- `Tracker::tick` keeps a connection that is not idle and was not closed for long. -/
def keeps (t : Tracker) (nowUs : Nat) (c : TrackedConn) : Bool :=
  if nowUs - c.lastSeenUs > t.idleUs then false
  else
    match c.closedAtUs with
    | some closedAt => nowUs - closedAt < 10000000
    | none => true

variable [HuffmanDecoding]

/-- Hand a segment to its connection. -/
def deliver (t : Tracker) (k : Key) (c : TrackedConn) (seg : EthSegment) (nowUs : Nat) : Tracker :=
  let isC2s := seg.src == c.client
  { t with
    conns := t.conns.insert k
      { c with toConn := (c.toConn.onSegment isC2s seg.toTcpSegment nowUs).1 } }

/-- `Tracker::on_segment`. -/
def onSegment (t : Tracker) (seg : EthSegment) (nowUs : Nat) : Tracker :=
  let t := { t with segments := t.segments + 1 }
  let k := keyOf seg.src seg.dst
  -- a bare SYN replaces the connection that used the addresses before
  let t := if seg.freshSyn then { t with conns := t.conns.erase k } else t
  match t.conns.lookup k with
  | some c => t.deliver k c seg nowUs
  | none =>
      if t.conns.entries.length ≥ t.maxConns then { t with rejectedFull := t.rejectedFull + 1 }
      else t.deliver k (t.openConn seg nowUs) seg nowUs

/-- `Tracker::tick`. -/
def tick (t : Tracker) (nowUs : Nat) : Tracker :=
  let conns := t.conns.update fun c =>
    let c := { c with toConn := c.toConn.tick nowUs }
    if t.keeps nowUs c then some c else none
  { t with
    conns := conns
    evicted := t.evicted + (t.conns.entries.length - conns.entries.length) }

end Tracker

/-! ## Snapshots -/

/-- Whether the ring still holds the bytes that are pending since `pendingSinceUs`. -/
def pendingCovered (pendingSinceUs ringOldestUs : Option Nat) : Bool :=
  match pendingSinceUs, ringOldestUs with
  | none, _ => true
  | some since, some oldest => since ≥ oldest
  | some _, none => false

/-- Why a direction is not usable, if it is not. -/
def dirReason (t : DirTrack) (ringOldestUs : Option Nat) : Option String :=
  if t.dir.dec.overLimit then
    let size := t.dir.dec.maxSize
    some s!"peer negotiated a {size}-byte dynamic table, above --max-table-bytes; not tracked"
  else if t.dir.poisoned then some "hpack state lost (packet gap or decode error)"
  else if t.dir.desynced then some "frame boundary unknown"
  else if !t.dir.dec.isExact then some "joined mid-stream; dynamic table not fully observed"
  else if !pendingCovered t.pendingSinceUs ringOldestUs then
    some "partially received frame predates the capture ring"
  else none

/-- `dir_snapshot`. -/
def dirSnapshot (name : String) (src dst : SocketAddr) (t : DirTrack) (ringOldestUs : Option Nat) :
    DirSnapshot where
  dir := name
  src := src.text
  dst := dst.text
  nextFrameSeq := t.dir.nextFrameSeq
  maxTableSize := t.dir.dec.maxSize
  capacityObserved := t.dir.dec.capacityObserved
  tableSize := t.dir.dec.size
  usable := (dirReason t ringOldestUs).isNone && t.dir.isSnapshottable
  reason := dirReason t ringOldestUs
  entries := t.dir.dec.table.map Entry.ofField

namespace TrackedConn

/-- The snapshots of both directions. -/
def dirSnapshots (c : TrackedConn) (ringOldestUs : Option Nat) : List DirSnapshot :=
  [dirSnapshot "c2s" c.client c.server c.c2s ringOldestUs,
    dirSnapshot "s2c" c.server c.client c.s2c ringOldestUs]

/-- The snapshot of a connection. -/
def snapshot (c : TrackedConn) (ringOldestUs : Option Nat) : ConnSnapshot where
  connId := c.id
  client := c.client.text
  server := c.server.text
  firstSeenUnixUs := c.firstSeenUs
  dirs := c.dirSnapshots ringOldestUs

end TrackedConn

/-- `Tracker::snapshot`: the connections, how many are usable and how many are not. -/
def Tracker.snapshot (t : Tracker) (ringOldestUs : Option Nat) : List ConnSnapshot × Nat × Nat :=
  let conns := t.conns.values.map fun c => c.snapshot ringOldestUs
  (conns, conns.countP fun c => c.dirs.all (·.usable), conns.countP fun c => !c.dirs.all (·.usable))

end H2Tap
