import H2Tap.Lib.Mailbox
import H2Tap.Capture.Daemon

/-!
# The control plane

`api.rs`: requests over HTTP are routed to commands, which are sent to the capture thread and
answered from there. The API thread takes one request at a time and waits five seconds for the
answer. `captureServer` is the capture thread with the commands that only report and the counters of
its socket, `Control` the two threads with the channel between them. What `serde_json` makes of a
request body is a parameter, and a body that is sent is left as data. That the files of a capture
cannot be made is data of the moment at which it is started; once they are there, every packet can
be written. The capture thread ends only with the process, so that it is never gone.
-/

namespace H2Tap

open Lib

/-! ## Reports -/

/-- One direction in the answer to `GET /connections`. -/
structure DirReport where
  dir : String
  snapshottable : Bool
  exact : Bool
  poisoned : Bool
  desynced : Bool
  nextFrameSeq : Seq
  tableEntries : Nat
  tableSize : Nat
  maxTableSize : Nat
  capacityObserved : Bool
  tableUntracked : Bool
  frames : Nat
  headerBlocks : Nat
  unresolvedRefs : Nat
  gaps : Nat
  resyncs : Nat
  decodeErrors : Nat
  bytes : Nat
  deriving DecidableEq

/-- One connection in the answer to `GET /connections`. -/
structure ConnReport where
  connId : String
  client : String
  server : String
  ageS : Nat
  idleS : Nat
  closing : Bool
  dirs : List DirReport
  deriving DecidableEq

/-- The answer to `GET /connections`. -/
structure Connections where
  count : Nat
  conns : List ConnReport
  deriving DecidableEq

/-- The answer to `GET /health`. -/
structure Health where
  conns : Nat
  dirs : Nat
  dirsExact : Nat
  dirsPoisoned : Nat
  kernelPackets : Nat
  kernelDrops : Nat
  kernelFilter : Bool
  reassemblyGaps : Nat
  segments : Nat
  connsEvicted : Nat
  connsRejectedTableFull : Nat
  captureReadErrors : Nat
  ringPackets : Nat
  ringBytes : Nat
  ringSpanS : Option Nat
  ringOldestUnixUs : Option Nat
  capture : Option Summary
  deriving DecidableEq

def DirTrack.report (name : String) (t : DirTrack) : DirReport where
  dir := name
  snapshottable := t.dir.isSnapshottable
  exact := t.dir.dec.isExact
  poisoned := t.dir.poisoned
  desynced := t.dir.desynced
  nextFrameSeq := t.dir.nextFrameSeq
  tableEntries := t.dir.dec.table.length
  tableSize := t.dir.dec.size
  maxTableSize := t.dir.dec.maxSize
  capacityObserved := t.dir.dec.capacityObserved
  tableUntracked := t.dir.dec.overLimit
  frames := t.dir.frames
  headerBlocks := t.dir.blocks
  unresolvedRefs := t.dir.dec.unresolved
  gaps := t.dir.reasm.gaps
  resyncs := t.dir.resyncs
  decodeErrors := t.dir.decodeErrors
  bytes := t.dir.reasm.bytes

def TrackedConn.report (nowUs : Nat) (c : TrackedConn) : ConnReport where
  connId := c.id
  client := c.client.text
  server := c.server.text
  ageS := (nowUs - c.firstSeenUs) / 1000000
  idleS := (nowUs - c.lastSeenUs) / 1000000
  closing := c.closedAtUs.isSome
  dirs := [c.c2s.report "c2s", c.s2c.report "s2c"]

/-- `connections_json`. -/
def Tracker.connections (t : Tracker) (nowUs : Nat) : Connections :=
  let conns := t.conns.values.map fun c => c.report nowUs
  ⟨conns.length, conns⟩

/-! ## The socket -/

/-- `PacketSocket`, without its descriptor. -/
structure PacketSocket where
  filteredInKernel : Bool
  packets : Nat
  drops : Nat

/-- `PacketSocket::stats`. The kernel clears its counters when they are read; reading them may
fail. -/
def PacketSocket.stats (s : PacketSocket) (kernel : Option (Nat × Nat)) : PacketSocket :=
  match kernel with
  | some (packets, drops) => { s with packets := s.packets + packets, drops := s.drops + drops }
  | none => s

/-! ## The capture thread -/

/-- All that the capture thread owns. -/
structure CaptureThread where
  daemon : Daemon
  socket : PacketSocket
  readErrors : Nat

/-- `health_json`. -/
def CaptureThread.health (t : CaptureThread) (nowUs : Nat) : Health :=
  let dirs := t.daemon.tracker.conns.values.flatMap fun c => [c.c2s, c.s2c]
  { conns := t.daemon.tracker.conns.entries.length
    dirs := dirs.length
    dirsExact := dirs.countP fun d => d.dir.dec.isExact
    dirsPoisoned := dirs.countP fun d => d.dir.poisoned
    kernelPackets := t.socket.packets
    kernelDrops := t.socket.drops
    kernelFilter := t.socket.filteredInKernel
    reassemblyGaps := (dirs.map fun d => d.dir.reasm.gaps).sum
    segments := t.daemon.tracker.segments
    connsEvicted := t.daemon.tracker.evicted
    connsRejectedTableFull := t.daemon.tracker.rejectedFull
    captureReadErrors := t.readErrors
    ringPackets := t.daemon.ring.q.length
    ringBytes := t.daemon.ring.bytes
    ringSpanS := t.daemon.ring.oldestUs.map fun oldest => (nowUs - oldest) / 1000000
    ringOldestUnixUs := t.daemon.ring.oldestUs
    capture := t.daemon.session.map Session.summary }

/-- `Cmd`, without the channel for the reply. -/
inductive Cmd where
  | connections
  | health
  | start (req : StartReq)
  | stop (id : Option String)
  deriving DecidableEq

/-- What a response carries. -/
inductive Body where
  | service
  | health (h : Health)
  | connections (c : Connections)
  | started (reply : StartReply)
  | stopped (summary : Summary)
  | error (message : String)
  deriving DecidableEq

/-- A response, with its status code. -/
structure Response where
  code : Nat
  body : Body
  deriving DecidableEq

/-- What `start_capture` gives up at, with the text of the error: a directory above one of its two
files, the pcap, its header, or the snapshot, which may also have no JSON text. -/
inductive FileError where
  | createDir (dir e : String)
  | createPcap (e : String)
  | writeHeader (e : String)
  | snapshotText (e : String)
  | writeSnapshot (e : String)
  deriving DecidableEq

/-- The message of the error that `start_capture` returns. -/
def FileError.message (pcapPath snapshotPath : String) : FileError → String
  | .createDir dir e => s!"creating {dir}: {e}"
  | .createPcap e => s!"{pcapPath}: {e}"
  | .writeHeader e => s!"writing pcap header: {e}"
  | .snapshotText e => e
  | .writeSnapshot e => s!"{snapshotPath}: {e}"

/-- The time at which a command is taken, what the kernel has counted, and what goes wrong with the
files of a capture that is started then. -/
structure Moment where
  nowUs : Nat
  kernel : Option (Nat × Nat)
  fileError : Option FileError

/-- What the capture thread does besides: it reads a packet, fails to read one, or ticks, which
polls the kernel's counters too. -/
inductive ThreadEvent where
  | packet (nowUs : Nat) (frame : Bytes)
  | readError
  | tick (nowUs : Nat) (kernel : Option (Nat × Nat))

/-- What `ask_result` makes of a reply. -/
def CaptureOutput.response : CaptureOutput → Response
  | .started reply => ⟨200, .started reply⟩
  | .stopped closed => ⟨200, .stopped closed.summary⟩
  | .refused error => ⟨409, .error error⟩
  | .quiet => ⟨200, .service⟩

namespace CaptureThread

/-- The state in which the loop starts. -/
def start (cfg : Config) (filteredInKernel : Bool) : CaptureThread :=
  ⟨cfg.daemon, ⟨filteredInKernel, 0, 0⟩, 0⟩

/-- A command that was received. -/
def receive (cfg : Config) (t : CaptureThread) (at_ : Moment) : Cmd → CaptureThread × Response
  | .connections => (t, ⟨200, .connections (t.daemon.tracker.connections at_.nowUs)⟩)
  | .health =>
      let t := { t with socket := t.socket.stats at_.kernel }
      (t, ⟨200, .health (t.health at_.nowUs)⟩)
  | .start req =>
      let started := t.daemon.startCapture cfg req at_.nowUs
      match started.2, at_.fileError with
      | .started reply, some error =>
          -- the session is only set when all files are there
          (t, ⟨409, .error (error.message reply.pcap reply.snapshot)⟩)
      | output, _ => ({ t with daemon := started.1 }, output.response)
  | .stop id =>
      let stopped := t.daemon.stopCapture id
      ({ t with daemon := stopped.1 }, stopped.2.response)

variable [HuffmanDecoding]

/-- The rest of the loop. -/
def turn (cfg : Config) (t : CaptureThread) : ThreadEvent → CaptureThread
  | .packet nowUs frame => { t with daemon := t.daemon.onPacket cfg nowUs frame }
  | .readError => { t with readErrors := t.readErrors + 1 }
  | .tick nowUs kernel =>
      { t with
        daemon := { t.daemon with tracker := t.daemon.tracker.tick nowUs }
        socket := t.socket.stats kernel }

end CaptureThread

/-- `capture::run`. -/
def captureServer [HuffmanDecoding] (cfg : Config) :
    Server CaptureThread Cmd Moment ThreadEvent Response where
  answer := CaptureThread.receive cfg
  turn := CaptureThread.turn cfg

/-! ## Requests -/

/-- The methods that are told apart. -/
inductive Method where
  | get
  | post
  | delete
  | other
  deriving DecidableEq

/-- A request. There is no body if it could not be read. -/
structure Request where
  method : Method
  url : String
  body : Option String

/-- `str::trim_start_matches`: the pattern is taken off as often as it is there. -/
def trimStartMatches (pattern : List Char) : Nat → List Char → List Char
  | 0, s => s
  | fuel + 1, s =>
      if pattern.isPrefixOf s then trimStartMatches pattern fuel (s.drop pattern.length) else s

/-- The path of a URL, without the query. -/
def urlPath (url : String) : List Char := url.toList.takeWhile fun c => c ≠ Char.ofNat 63

/-- The path that names a capture, up to its name. -/
def capturesPath : List Char := "/captures/".toList

variable (fromJson : String → Except String StartReq)

/-- The `POST` branch of `handle`. -/
def routeStart (body : Option String) : Response ⊕ Cmd :=
  match body with
  | none => .inl ⟨400, .error "could not read request body"⟩
  | some body =>
      if body.toList.all isWhitespace then .inr (.start ⟨none, none, none⟩)
      else
        match fromJson body with
        | .ok req => .inr (.start req)
        | .error e => .inl ⟨400, .error s!"bad json: {e}"⟩

/-- `handle`: a response, or a command that is sent to the capture thread. -/
def route (req : Request) : Response ⊕ Cmd :=
  let path := urlPath req.url
  match req.method with
  | .get =>
      if path = "/health".toList then .inr .health
      else if path = "/connections".toList then .inr .connections
      else if path = "/".toList then .inl ⟨200, .service⟩
      else .inl ⟨404, .error "not found"⟩
  | .post =>
      if path = "/captures".toList then routeStart fromJson req.body
      else .inl ⟨404, .error "not found"⟩
  | .delete =>
      if path = "/captures".toList then .inr (.stop none)
      else if capturesPath.isPrefixOf path then
        .inr (.stop (some (String.ofList (trimStartMatches capturesPath path.length path))))
      else .inl ⟨404, .error "not found"⟩
  | .other => .inl ⟨404, .error "not found"⟩

/-! ## Both threads -/

/-- The capture thread, the channel and the API thread. -/
abbrev Control := Mailbox CaptureThread Cmd

/-- What happens: a request comes in, the capture thread receives a command, the reply is too late,
the capture thread goes on. -/
inductive ControlEvent where
  | request (req : Request)
  | receive (at_ : Moment)
  | timeout
  | thread (event : ThreadEvent)

/-- An event, for the two threads. -/
def ControlEvent.mail : ControlEvent → MailEvent Cmd Moment ThreadEvent Response
  | .request req => .ask (route fromJson req)
  | .receive at_ => .serve at_
  | .timeout => .giveUp
  | .thread event => .turn event

/-- The response that is sent. -/
def Lib.Answer.response : Answer Response → Response
  | .atOnce response => response
  | .served response => response
  | .timedOut => ⟨504, .error "capture thread did not respond"⟩

namespace Control

/-- The state in which the daemon starts. -/
def start (cfg : Config) (filteredInKernel : Bool) : Control :=
  Mailbox.start (CaptureThread.start cfg filteredInKernel)

/-- One event. -/
def step [HuffmanDecoding] (cfg : Config) (c : Control) (event : ControlEvent) :
    Control × MailOutput Cmd Moment ThreadEvent Response :=
  Mailbox.step (captureServer cfg) c (event.mail fromJson)

end Control

end H2Tap
