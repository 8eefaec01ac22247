import H2Tap.Lib.Run
import H2Tap.Lib.Table
import H2Tap.Packet
import H2Tap.Snapshot
import H2Tap.Rebuild.Encode

/-!
# Replaying a capture

The loop of `rebuild.rs`: every packet of the pcap is handed to its connection, whose directions are
seeded from the snapshot when they are first touched. `Replay.step` is one turn, `finalReport` what
is counted when the loop is over. Reading and writing files is left out, and so is the rendering of
the JSON lines.
-/

namespace H2Tap

open Lib

/-- `Report`. -/
structure Report where
  packetsIn : Nat
  conns : Nat
  connsSeeded : Nat
  connsMisaligned : Nat
  headerBlocks : Nat
  blocksExact : Nat
  blocksPartial : Nat
  unresolvedRefs : Nat
  decodeFailures : Nat
  framesDropped : Nat
  packetsOut : Nat
  preSnapshotBytes : Nat
  preSnapshotDirs : Nat
  deriving DecidableEq, Repr

/-- `Report::default`. -/
def Report.default : Report := ⟨0, 0, 0, 0, 0, 0, 0, 0, 0, 0, 0, 0, 0⟩

/-- `Seed`: what the snapshot says of a direction. -/
structure Seed where
  entries : List Field
  maxSize : Nat
  nextFrameSeq : Seq
  usable : Bool
  reason : Option String
  deriving DecidableEq

/-- The seeds of a snapshot, by the source and the destination. A later one replaces an earlier
one. -/
def seedsOf (snap : CaptureSnapshot) : Table (String × String) Seed :=
  (snap.conns.flatMap ConnSnapshot.dirs).foldl (fun seeds d =>
    seeds.insert (d.src, d.dst) ⟨d.fields, d.maxTableSize, d.nextFrameSeq, d.usable, d.reason⟩) ∅

/-- `DirState`. `out` holds what is written out, each item with the time of its last packet;
`frames` are its bytes. -/
structure DirState where
  dir : Direction
  ep : Option Pkt.Endpoint
  out : List (Nat × Normalized)
  seeded : Bool
  deriving DecidableEq

/-- `DirState::new`. -/
def DirState.new : DirState := ⟨.joinedMidstream true, none, [], false⟩

/-- `ConnState`. With the SYN the connection began during the capture. -/
structure ConnState where
  client : SocketAddr
  server : SocketAddr
  firstTs : Nat
  lastTs : Nat
  sawSyn : Bool
  c2s : DirState
  s2c : DirState
  deriving DecidableEq

/-- A JSON line, with the names and values as they are. -/
structure JsonRecord where
  tsUs : Nat
  conn : String
  isC2s : Bool
  block : DecodedBlock
  deriving DecidableEq

namespace ConnState

/-- `dirs[d]`, for reading. -/
def dir (cs : ConnState) (isC2s : Bool) : DirState := if isC2s then cs.c2s else cs.s2c

/-- `dirs[d]`, for writing. -/
def setDir (cs : ConnState) (isC2s : Bool) (ds : DirState) : ConnState :=
  if isC2s then { cs with c2s := ds } else { cs with s2c := ds }

@[simp] theorem dir_set_dir (cs : ConnState) (isC2s : Bool) (ds : DirState) :
    (cs.setDir isC2s ds).dir isC2s = ds := by
  cases isC2s <;> rfl

@[simp] theorem dir_set_dir_not (cs : ConnState) (isC2s : Bool) (ds : DirState) :
    (cs.setDir isC2s ds).dir (!isC2s) = cs.dir (!isC2s) := by
  cases isC2s <;> rfl

/-- A connection at its first packet. The sender of that packet is taken for the client, whether the
snapshot knows the packet's direction or not. -/
def opened (seg : EthSegment) (ts : Nat) : ConnState where
  client := seg.src
  server := seg.dst
  firstTs := ts
  lastTs := ts
  sawSyn := seg.freshSyn
  c2s :=
    if seg.freshSyn then { DirState.new with dir := .fromConnectionStart true true } else .new
  s2c :=
    if seg.freshSyn then { DirState.new with dir := .fromConnectionStart true false } else .new

end ConnState

/-- The state of the loop. -/
structure Replay where
  conns : Table Key ConnState
  order : List Key
  report : Report

/-- What a turn of the loop writes to the output of a direction. -/
structure Written where
  key : Key
  isC2s : Bool
  ts : Nat
  items : List Normalized
  deriving DecidableEq

namespace DirState

/-- The endpoint is that of the first packet. -/
def noteEndpoint (ds : DirState) (seg : EthSegment) : DirState :=
  { ds with ep := ds.ep.or (some ⟨seg.ethDst, seg.ethSrc, seg.src, seg.dst⟩) }

/-- Seed a direction that is touched for the first time; true if the snapshot was applied. -/
def seed (ds : DirState) (sawSyn : Bool) (seed : Option Seed) : DirState × Bool :=
  if ds.seeded then (ds, false)
  else
    let ds := { ds with seeded := true }
    if sawSyn then (ds, false)
    else
      match seed with
      | some s =>
          if s.usable then
            ({ ds with dir := ds.dir.seedFromSnapshot s.entries s.maxSize s.nextFrameSeq }, true)
          else (ds, false)
      | none => (ds, false)

/-- Record the SYN. -/
def noteSyn (ds : DirState) (seg : EthSegment) : DirState :=
  if seg.has TcpFlags.syn then
    { ds with dir := { ds.dir with reasm := ds.dir.reasm.noteSyn seg.seq } }
  else ds

/-- Write some items, one after the other. -/
def write (ds : DirState) (ts : Nat) (items : List Normalized) : DirState :=
  { ds with out := ds.out ++ items.map fun item => (ts, item) }

/-- The frames of what was written, each with its time. -/
def frames (ds : DirState) : List (Nat × Bytes) :=
  ds.out.flatMap fun item => item.2.frames.map fun bytes => (item.1, bytes)

end DirState

/-- What a packet does to its connection before its payload is looked at: the time, the endpoint,
the seed and the SYN of its direction; true if the snapshot was applied. -/
def ConnState.touch (cs : ConnState) (isC2s : Bool) (seed : Option Seed) (seg : EthSegment)
    (ts : Nat) : ConnState × Bool :=
  let seeded := ((cs.dir isC2s).noteEndpoint seg).seed cs.sawSyn seed
  ({ cs with lastTs := ts }.setDir isC2s (seeded.1.noteSyn seg), seeded.2)

/-- A direction takes in what a feed returned and writes `items`; the other one learns the table
sizes that were seen. -/
def ConnState.absorb (cs : ConnState) (isC2s : Bool) (fed : Direction × List ProcessedFrame)
    (ts : Nat) (items : List Normalized) : ConnState :=
  let other := cs.dir (!isC2s)
  let caps := Direction.settingsSizes fed.2
  (cs.setDir isC2s ({ cs.dir isC2s with dir := fed.1 }.write ts items)).setDir (!isC2s)
    { other with dir := caps.foldl Direction.applyPeerCapacity other.dir }

/-- The JSON line of a frame, if it completes a header block. -/
def ConnState.jsonRecord (cs : ConnState) (isC2s : Bool) (ts : Nat) (f : ProcessedFrame) :
    Option JsonRecord :=
  if f.truncated || !f.isHeaderFrame then none
  else f.decoded.map fun blk => ⟨ts, s!"{cs.client.text}-{cs.server.text}", isC2s, blk⟩

namespace Report

/-- What the loop over the returned frames counts. -/
def countFrame (rep : Report) (f : ProcessedFrame) : Report :=
  if f.truncated then { rep with framesDropped := rep.framesDropped + 1 }
  else if f.isHeaderFrame then
    match f.decoded with
    | none => rep
    | some blk =>
        let exact := blk.exact && blk.unresolved == 0
        { rep with
          headerBlocks := rep.headerBlocks + 1
          blocksExact := rep.blocksExact + exact.toNat
          blocksPartial := rep.blocksPartial + (!exact).toNat
          unresolvedRefs := rep.unresolvedRefs + blk.unresolved }
  else rep

/-- Failures that were not reported yet: `missing` of them, and the report with them. -/
def countFailures (rep : Report) (failures : Nat) : Report × Nat :=
  if failures > rep.decodeFailures then
    ({ rep with decodeFailures := failures }, failures - rep.decodeFailures)
  else (rep, 0)

end Report

namespace Replay

/-- The state before the first packet. -/
def start : Replay := ⟨∅, [], .default⟩

/-- Find the connection of a segment, or open one. A bare SYN removes the one that used the
addresses before. -/
def findConn (r : Replay) (seg : EthSegment) (ts : Nat) : Replay × ConnState :=
  let k := keyOf seg.src seg.dst
  let r := if seg.freshSyn then { r with conns := r.conns.erase k } else r
  match r.conns.lookup k with
  | some cs => (r, cs)
  | none =>
      ({ r with
        order := r.order ++ [k]
        report := { r.report with conns := r.report.conns + 1 } }, ConnState.opened seg ts)

variable [HuffmanDecoding]

/-- One packet that parses. A header block that could not be decoded still has to be visible, so a
marker is written for every failure that was not reported yet. -/
def onSegment (seeds : Table (String × String) Seed) (r : Replay) (seg : EthSegment) (ts : Nat) :
    Replay × Option Written × List JsonRecord :=
  let k := keyOf seg.src seg.dst
  let found := r.findConn seg ts
  let isC2s := seg.src == found.2.client
  let touched := found.2.touch isC2s (seeds.lookup (seg.src.text, seg.dst.text)) seg ts
  let r := { found.1 with report :=
    { found.1.report with connsSeeded := found.1.report.connsSeeded + touched.2.toNat } }
  if seg.payload.isEmpty then ({ r with conns := r.conns.insert k touched.1 }, none, [])
  else
    let fed := (touched.1.dir isC2s).dir.feed seg.seq seg.payload ts
    let failures := (fed.2.foldl Report.countFrame r.report).countFailures fed.1.decodeErrors
    let items := fed.2.filterMap normalize ++ List.replicate failures.2 .failed
    ({ r with
        conns := r.conns.insert k (touched.1.absorb isC2s fed ts items)
        report := failures.1 },
      some ⟨k, isC2s, ts, items⟩,
      fed.2.filterMap (touched.1.jsonRecord isC2s ts))

/-- One packet of the pcap. -/
def step (seeds : Table (String × String) Seed) (r : Replay) (packet : Packet) :
    Replay × Option Written × List JsonRecord :=
  let r := { r with report := { r.report with packetsIn := r.report.packetsIn + 1 } }
  match Pkt.parseEthernet packet.2 with
  | none => (r, none, [])
  | some seg => r.onSegment seeds seg packet.1

omit [HuffmanDecoding] in
/-- What is counted of a connection when the loop is over. -/
def countConn (rep : Report) (cs : ConnState) : Report :=
  let skipped := [cs.c2s, cs.s2c].map fun ds => ds.dir.preSnapshotSkipped
  { rep with
    connsMisaligned := rep.connsMisaligned +
      (cs.c2s.dir.snapshotMisaligned || cs.s2c.dir.snapshotMisaligned).toNat
    preSnapshotBytes := rep.preSnapshotBytes + skipped.sum
    preSnapshotDirs := rep.preSnapshotDirs + skipped.countP fun n => n > 0 }

omit [HuffmanDecoding] in
/-- The report when the loop is over. -/
def finalReport (r : Replay) : Report :=
  (r.order.filterMap fun k => r.conns.lookup k).foldl countConn r.report

end Replay

end H2Tap
