import H2Tap.Lib.Run
import H2Tap.Capture.Ring
import H2Tap.Tracker.Tracker

/-!
# The capture thread

The loop of `capture.rs` as a machine: a packet arrives, the timer fires, or a command starts or
stops a capture. Every write to a file succeeds; what a capture writes is kept in its `Session`. The
commands that only report, and the kernel's counters, are left out.
-/

namespace H2Tap

/-- `Config`, as far as the loop reads it. -/
structure Config where
  iface : String
  ports : List UInt16
  outDir : String
  ringBytes : Nat
  idleSecs : Nat
  maxConns : Nat
  ringSecs : Nat
  maxTableBytes : Nat

/-- `StartReq`. -/
structure StartReq where
  name : Option String
  pcap : Option String
  snapshot : Option String
  deriving DecidableEq, Repr

/-- A running capture. `written` is what its pcap holds, `saved` its snapshot file. -/
structure Session where
  id : String
  pcapPath : String
  snapshotPath : String
  written : List Packet
  saved : CaptureSnapshot
  packets : Nat
  bytes : Nat
  startedUs : Nat
  connsUsable : Nat
  connsDegraded : Nat
  deriving DecidableEq

/-- `Session::write`. -/
def Session.write (s : Session) (tsUs : Nat) (data : Bytes) : Session :=
  { s with
    written := s.written ++ [(tsUs, data)]
    packets := s.packets + 1
    bytes := s.bytes + data.length }

/-- `Session::summary`. -/
structure Summary where
  captureId : String
  pcap : String
  snapshot : String
  packets : Nat
  bytes : Nat
  startedUnixUs : Nat
  connsUsable : Nat
  connsDegraded : Nat
  deriving DecidableEq, Repr

def Session.summary (s : Session) : Summary :=
  ⟨s.id, s.pcapPath, s.snapshotPath, s.packets, s.bytes, s.startedUs, s.connsUsable,
    s.connsDegraded⟩

/-- A direction that is not usable, in the reply to a start. -/
structure Degraded where
  connId : String
  dir : String
  reason : Option String
  deriving DecidableEq, Repr

/-- The reply to a start. -/
structure StartReply where
  captureId : String
  pcap : String
  snapshot : String
  backfilledPackets : Nat
  backfilledBytes : Nat
  connsTotal : Nat
  connsUsable : Nat
  connsDegraded : Nat
  degraded : List Degraded
  deriving DecidableEq, Repr

/-- The state that the thread owns. -/
structure Daemon where
  tracker : Tracker
  ring : Ring
  session : Option Session

/-- What happens in the loop. -/
inductive CaptureEvent where
  | packet (nowUs : Nat) (frame : Bytes)
  | tick (nowUs : Nat)
  | start (req : StartReq) (nowUs : Nat)
  | stop (id : Option String)
  deriving DecidableEq

/-- What the loop answers. `stopped` hands over the capture that was closed; the reply is its
summary. -/
inductive CaptureOutput where
  | quiet
  | started (reply : StartReply)
  | stopped (closed : Session)
  | refused (error : String)
  deriving DecidableEq

/-- `PathBuf::join`, for a name that is not an absolute path. -/
def joinPath (dir name : String) : String :=
  if dir.isEmpty || dir.endsWith "/" then dir ++ name else dir ++ "/" ++ name

namespace Config

/-- The segment of an interesting packet. -/
def interesting (cfg : Config) (frame : Bytes) : Option EthSegment :=
  (Pkt.parseEthernet frame).filter fun seg =>
    cfg.ports.isEmpty || cfg.ports.contains seg.src.port || cfg.ports.contains seg.dst.port

/-- The state in which the loop starts. -/
def daemon (cfg : Config) : Daemon where
  tracker := .new cfg.ports cfg.maxConns cfg.idleSecs cfg.maxTableBytes
  ring := .new cfg.ringBytes cfg.ringSecs
  session := none

end Config

/-- A name that would leave the output directory. -/
def hasPathSeparator (id : String) : Bool :=
  id.toList.any fun c => c == Char.ofNat 47 || c == Char.ofNat 92

namespace Daemon

/-- The snapshot file of a capture that starts now. -/
def captureSnapshot (cfg : Config) (d : Daemon) (id pcapPath : String) (nowUs : Nat) :
    CaptureSnapshot :=
  let (conns, usable, degraded) := d.tracker.snapshot d.ring.oldestUs
  { version := snapshotVersion
    captureId := id
    startedUnixUs := nowUs
    iface := cfg.iface
    pcapPath := pcapPath
    connsUsable := usable
    connsDegraded := degraded
    conns := conns }

/-- `start_capture`: replay the ring into the pcap, and snapshot the tables. -/
def startCapture (cfg : Config) (d : Daemon) (req : StartReq) (nowUs : Nat) :
    Daemon × CaptureOutput :=
  match d.session with
  | some s =>
      let id := s.id
      (d, .refused s!"capture {id} is already running")
  | none =>
      let id := req.name.getD s!"cap-{nowUs}"
      if hasPathSeparator id then (d, .refused "capture name must not contain path separators")
      else
        let pcapPath := req.pcap.getD (joinPath cfg.outDir (id ++ ".pcap"))
        let snapshotPath := req.snapshot.getD (joinPath cfg.outDir (id ++ ".snapshot.json"))
        let snap := d.captureSnapshot cfg id pcapPath nowUs
        ({ d with session := some {
            id := id
            pcapPath := pcapPath
            snapshotPath := snapshotPath
            written := d.ring.q
            saved := snap
            packets := d.ring.q.length
            bytes := packetBytes d.ring.q
            startedUs := nowUs
            connsUsable := snap.connsUsable
            connsDegraded := snap.connsDegraded } },
          .started {
            captureId := id
            pcap := pcapPath
            snapshot := snapshotPath
            backfilledPackets := d.ring.q.length
            backfilledBytes := packetBytes d.ring.q
            connsTotal := snap.conns.length
            connsUsable := snap.connsUsable
            connsDegraded := snap.connsDegraded
            degraded := snap.conns.flatMap fun c =>
              (c.dirs.filter fun dir => !dir.usable).map fun dir =>
                ⟨c.connId, dir.dir, dir.reason⟩ })

/-- `Cmd::Stop`. -/
def stopCapture (d : Daemon) (id : Option String) : Daemon × CaptureOutput :=
  match d.session with
  | some s =>
      if id.isNone || id == some s.id then ({ d with session := none }, .stopped s)
      else
        let want := id.getD ""
        let running := s.id
        (d, .refused s!"no capture {want} (running: {running})")
  | none => (d, .refused "no capture is running")

variable [HuffmanDecoding]

/-- A packet that was read: an interesting one goes into the running capture, the ring and the
connection table. -/
def onPacket (cfg : Config) (d : Daemon) (nowUs : Nat) (frame : Bytes) : Daemon :=
  match cfg.interesting frame with
  | some seg =>
      { tracker := d.tracker.onSegment seg nowUs
        ring := d.ring.push nowUs frame
        session := d.session.map fun s => s.write nowUs frame }
  | none => d

/-- One turn of the loop. -/
def step (cfg : Config) (d : Daemon) : CaptureEvent → Daemon × CaptureOutput
  | .packet nowUs frame => (d.onPacket cfg nowUs frame, .quiet)
  | .tick nowUs => ({ d with tracker := d.tracker.tick nowUs }, .quiet)
  | .start req nowUs => d.startCapture cfg req nowUs
  | .stop id => d.stopCapture id

end Daemon

end H2Tap
