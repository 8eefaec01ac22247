import H2Tap.Conn.FromStart
import H2Tap.Tracker.Delivered
import H2Tap.Tracker.Refusals

/-!
# Directions that are known from their first byte

After the client's SYN both directions of a connection are taken for known from the first byte. For
the server's direction nothing says so: if its SYN is lost, the first segment that arrives is taken
for the first one that was sent (`server_start_lost`). `SeesFirstByte` says when a segment can be
trusted, and `known_from_first_byte` that a usable direction is what its snapshot says if all of its
segments can. `ConnWatch` runs the tracker together with what it gives to the decoders.
-/

namespace H2Tap

open Lib

/-! ## Directions -/

namespace Direction

variable [HuffmanDecoding]

/-- The turns of the parser that a segment sets off. -/
def segmentTurns (d : Direction) (seg : TcpSegment) (nowUs : Nat) : List Direction :=
  if seg.payload.isEmpty then []
  else (d.noted seg).opTurns (.feed seg.seq seg.payload nowUs)

/-- Data with a SYN brings nothing new. Data that comes before anything else of its direction starts
with the first byte. Every header frame can be buffered, and begins no block while one is open. -/
structure SeesFirstByte (isn : Seq) (d : Direction) (seg : TcpSegment) (nowUs : Nat) : Prop where
  syn : seg.has TcpFlags.syn = true → seg.payload ≠ [] →
    d.reasm.initialized = true ∧ seg.payload.length ≤ d.reasm.overlap seg.seq
  first : seg.has TcpFlags.syn = false → seg.payload ≠ [] → d.reasm.initialized = false →
    seg.seq = isn + 1
  headers : ∀ t ∈ d.segmentTurns seg nowUs, t.poisoned = false → t.keepsHeaderBytes = true

instance (isn : Seq) (d : Direction) (seg : TcpSegment) (nowUs : Nat) :
    Decidable (d.SeesFirstByte isn seg nowUs) :=
  decidable_of_iff
    ((seg.has TcpFlags.syn = true → seg.payload ≠ [] →
        d.reasm.initialized = true ∧ seg.payload.length ≤ d.reasm.overlap seg.seq) ∧
      (seg.has TcpFlags.syn = false → seg.payload ≠ [] → d.reasm.initialized = false →
        seg.seq = isn + 1) ∧
      ∀ t ∈ d.segmentTurns seg nowUs, t.poisoned = false → t.keepsHeaderBytes = true)
    ⟨fun h => ⟨h.1, h.2.1, h.2.2⟩, fun h => ⟨h.syn, h.first, h.headers⟩⟩

variable {K : Seq → UInt8 → Prop} {isn : Seq} {hasPreface : Bool} {limit : Nat}
  {given : List Seen} {d : Direction} {seg : TcpSegment} {nowUs : Nat}

omit [HuffmanDecoding] in
/-- A push that brings nothing new changes nothing. -/
theorem push_nothing_new {r : Reassembler} {seq : Seq} {data : Bytes} (hinit : r.initialized = true)
    (hold : data.length ≤ r.overlap seq) (nowUs : Nat) : r.push seq data nowUs = (r, false) := by
  unfold Reassembler.push
  split
  · rfl
  · next hne =>
      have hdata := List.length_pos_iff.mpr (mt List.isEmpty_iff.mpr hne)
      have hdue : seqDelta seq r.nextSeq ≤ 0 := by
        unfold Reassembler.overlap at hold
        omega
      rw [Reassembler.start, if_pos hinit, Reassembler.pushData, if_pos hdue, if_pos hold]

/-- A poisoned direction stays poisoned. -/
theorem poisoned_on_segment (h : d.poisoned = true) (seg : TcpSegment) (nowUs : Nat) :
    (d.onSegment seg nowUs).1.poisoned = true := by
  have hnoted : (d.noted seg).poisoned = true := by
    unfold noted
    split <;> exact h
  unfold Direction.onSegment
  split
  · exact hnoted
  · refine poisoned_parse ?_
    unfold withReassembled
    split
    · rfl
    · exact hnoted

/-- The SYN of the direction tells where its first byte is. -/
theorem KnowsTable.noted {stream : Bytes}
    (h : KnowsTable K (isn + 1) hasPreface limit given stream d)
    (hsyn : seg.has TcpFlags.syn = true → seg.seq = isn) :
    KnowsTable K (isn + 1) hasPreface limit given stream (d.noted seg) := by
  unfold Direction.noted
  split
  · next hhas =>
      have havailable : (d.reasm.noteSyn seg.seq).available = d.reasm.available ++ [] := by
        rw [List.append_nil]
        unfold Reassembler.noteSyn
        split <;> rfl
      exact ⟨h.traced.note_syn (congrArg (· + 1) (hsyn hhas)), h.synced, h.pending,
        h.stands.congr rfl rfl rfl rfl havailable, h.dec⟩
  · exact h

/-- The data of a segment that can be trusted. -/
theorem SeesFirstByte.traced_push (h : d.SeesFirstByte isn seg nowUs) (hne : seg.payload ≠ [])
    (hdata : EachAt K seg.dataSeq seg.payload) {stream : Bytes}
    (htraced : (d.noted seg).reasm.Traced K (isn + 1) stream)
    (hgap : ((d.noted seg).reasm.push seg.seq seg.payload nowUs).2 = false) :
    ((d.noted seg).reasm.push seg.seq seg.payload nowUs).1.Traced K (isn + 1) stream := by
  cases hhas : seg.has TcpFlags.syn with
  | true =>
      -- the payload of a SYN is pushed one byte too early, but nothing of it is new
      obtain ⟨hinit, hold⟩ := h.syn hhas hne
      have hsame : d.noted seg = d := by
        rw [noted, if_pos hhas, Reassembler.noteSyn, if_pos hinit]
      rw [hsame] at htraced ⊢
      rw [push_nothing_new hinit hold]
      exact htraced
  | false =>
      have hsame : d.noted seg = d := by
        rw [noted, hhas, if_neg Bool.false_ne_true]
      have hplace : seg.dataSeq = seg.seq := by
        rw [TcpSegment.dataSeq, hhas, if_neg Bool.false_ne_true]
      rw [hplace] at hdata
      rw [hsame] at htraced hgap ⊢
      exact htraced.push hdata (fun hinit _ => h.first hhas hne hinit) nowUs hgap

/-- A segment that can be trusted. -/
theorem KnowsOrPoisoned.on_segment (h : KnowsOrPoisoned K (isn + 1) hasPreface limit given d)
    (hlimit : limit ≤ usizeMax) (hsyn : seg.has TcpFlags.syn = true → seg.seq = isn)
    (hdata : EachAt K seg.dataSeq seg.payload)
    (hsees : d.poisoned = false → d.SeesFirstByte isn seg nowUs) :
    KnowsOrPoisoned K (isn + 1) hasPreface limit
      (given ++ (handedOver (d.segmentTurns seg nowUs)).map .block) (d.onSegment seg nowUs).1 := by
  cases hpoisoned : d.poisoned with
  | true => exact Or.inl (poisoned_on_segment hpoisoned seg nowUs)
  | false =>
      have hsees := hsees hpoisoned
      have hguard := hsees.headers
      have hnoted : KnowsOrPoisoned K (isn + 1) hasPreface limit given (d.noted seg) := by
        obtain ⟨stream, hknows⟩ := h.of_not_poisoned hpoisoned
        exact Or.inr ⟨stream, hknows.noted hsyn⟩
      unfold segmentTurns at hguard
      unfold Direction.onSegment segmentTurns
      split
      · rw [handedOver, List.filterMap_nil, List.map_nil, List.append_nil]
        exact hnoted
      · next hempty =>
          rw [if_neg hempty] at hguard
          exact KnowsOrPoisoned.feed hnoted hlimit (fun _ _ htraced hgap =>
            hsees.traced_push (mt List.isEmpty_iff.mpr hempty) hdata htraced hgap) hguard

end Direction

/-! ## Connections -/

namespace Conn

variable [HuffmanDecoding]

/-- What a segment gives to the decoder of one side: the header blocks of its sender, and to the
other side the table sizes that the sender announces. -/
def gives (c : Conn) (isC2s : Bool) (seg : TcpSegment) (nowUs : Nat) (side : Bool) : List Seen :=
  if side = isC2s then
    (Direction.handedOver ((c.dirs isC2s).segmentTurns seg nowUs)).map .block
  else (Direction.settingsSizes ((c.dirs isC2s).onSegment seg nowUs).2).map .capacity

variable {K : Seq → UInt8 → Prop} {isn : Seq} {limit : Nat} {given : List Seen} {c : Conn}
  {side isC2s : Bool} {seg : TcpSegment} {nowUs : Nat}

/-- Any segment of the other side, and one of this side that can be trusted. -/
theorem knows_on_segment
    (h : Direction.KnowsOrPoisoned K (isn + 1) side limit given (c.dirs side))
    (hlimit : limit ≤ usizeMax)
    (hown : isC2s = side → (seg.has TcpFlags.syn = true → seg.seq = isn) ∧
      EachAt K seg.dataSeq seg.payload)
    (hsees : isC2s = side → (c.dirs side).poisoned = false →
      (c.dirs side).SeesFirstByte isn seg nowUs) :
    Direction.KnowsOrPoisoned K (isn + 1) side limit (given ++ c.gives isC2s seg nowUs side)
      ((c.onSegment isC2s seg nowUs).1.dirs side) := by
  rw [dirs_on_segment]
  unfold gives Direction.bothOnSegment
  split
  · next hside =>
      subst hside
      obtain ⟨hsyn, hdata⟩ := hown rfl
      exact h.on_segment hlimit hsyn hdata (hsees rfl)
  · exact Direction.KnowsOrPoisoned.peer_capacities h _

/-- A timeout. -/
theorem knows_tick (h : Direction.KnowsOrPoisoned K (isn + 1) side limit given (c.dirs side))
    (nowUs : Nat) :
    Direction.KnowsOrPoisoned K (isn + 1) side limit given ((c.tick nowUs).dirs side) := by
  have hside : (c.tick nowUs).dirs side = ((c.dirs side).tick nowUs).1 := by
    cases side <;> rfl
  rw [hside]
  exact Direction.KnowsOrPoisoned.tick h nowUs

end Conn

/-! ## Runs -/

/-- A segment between the endpoints `k` is one of a connection that the client opened: only the
client sends a bare SYN, and every SYN has the initial sequence number of its side. -/
def TrackerOp.OfConnection (k : Key) (client : SocketAddr) (isn : Bool → Seq) : TrackerOp → Prop
  | .segment seg _ => keyOf seg.src seg.dst = k →
      (seg.has TcpFlags.syn = true → seg.seq = isn (seg.src == client)) ∧
        (seg.freshSyn = true → seg.src = client)
  | .tick _ => True

instance (k : Key) (client : SocketAddr) (isn : Bool → Seq) (op : TrackerOp) :
    Decidable (op.OfConnection k client isn) :=
  match op with
  | .segment seg _ => inferInstanceAs (Decidable (keyOf seg.src seg.dst = k → _))
  | .tick _ => isTrue trivial

/-- The tracker was given the byte `b` with the number `seq`, from one side of a connection. -/
def Delivered (k : Key) (client : SocketAddr) (isC2s : Bool) (ops : List TrackerOp) (seq : Seq)
    (b : UInt8) : Prop :=
  ∃ seg nowUs, .segment seg nowUs ∈ ops ∧ keyOf seg.src seg.dst = k ∧
    (seg.src == client) = isC2s ∧
      ∃ i, seg.payload[i]? = some b ∧ seq = seg.dataSeq + BitVec.ofNat 32 i

/-- The tracker, and what the decoders of one connection were given since it was opened. -/
structure ConnWatch where
  tracker : Tracker
  given : Bool → List Seen

/-- No call changes the tracking limit. -/
theorem Tracker.table_limit_perform [HuffmanDecoding] (t : Tracker) (op : TrackerOp) :
    (t.perform op).tableLimit = t.tableLimit := by
  cases op with
  | tick nowUs => rfl
  | segment seg nowUs =>
      unfold perform onSegment deliver
      dsimp only
      split
      · simp only [apply_ite Tracker.tableLimit, ite_self]
      · simp only [apply_ite Tracker.tableLimit, ite_self]

namespace ConnWatch

variable [HuffmanDecoding]

/-- What the decoders were given after a segment. A bare SYN opens the connection anew. -/
def givenAfter (w : ConnWatch) (seg : EthSegment) (nowUs : Nat) (side : Bool) : List Seen :=
  match w.tracker.target seg nowUs with
  | none => []
  | some c => (if seg.freshSyn then [] else w.given side) ++
      c.toConn.gives (seg.src == c.client) seg.toTcpSegment nowUs side

/-- One call, with what it gives to the decoders of the connection `k`. -/
def perform (k : Key) (w : ConnWatch) : TrackerOp → ConnWatch × Unit
  | .segment seg nowUs =>
      (⟨w.tracker.onSegment seg nowUs,
        if keyOf seg.src seg.dst = k then w.givenAfter seg nowUs else w.given⟩, ())
  | .tick nowUs => (⟨w.tracker.tick nowUs, w.given⟩, ())

/-- Nothing but a bare SYN opens the connection, and the segments of the side can be trusted unless
its direction is poisoned. -/
def SeesFirstByte (k : Key) (isn : Bool → Seq) (side : Bool) (w : ConnWatch) : TrackerOp → Prop
  | .segment seg nowUs => keyOf seg.src seg.dst = k →
      (seg.freshSyn = false → w.tracker.conns.lookup k = none →
        w.tracker.target seg nowUs = none) ∧
      ∀ c ∈ w.tracker.target seg nowUs, (seg.src == c.client) = side →
        (c.dirs side).poisoned = false →
          (c.dirs side).SeesFirstByte (isn side) seg.toTcpSegment nowUs
  | .tick _ => True

instance (k : Key) (isn : Bool → Seq) (side : Bool) (w : ConnWatch) (op : TrackerOp) :
    Decidable (w.SeesFirstByte k isn side op) := by
  cases op <;> unfold SeesFirstByte <;> infer_instance

/-- The direction of one side has the table of what it has read, or is poisoned. -/
structure Knows (K : Seq → UInt8 → Prop) (k : Key) (client : SocketAddr) (isn : Bool → Seq)
    (side : Bool) (limit : Nat) (w : ConnWatch) : Prop where
  limit_eq : w.tracker.tableLimit = limit
  conn : ∀ c ∈ w.tracker.conns.lookup k, c.client = client ∧
    Direction.KnowsOrPoisoned K (isn side + 1) side limit (w.given side) (c.dirs side)

variable {K : Seq → UInt8 → Prop} {k : Key} {client : SocketAddr} {isn : Bool → Seq} {side : Bool}
  {limit : Nat} {w : ConnWatch} {seg : EthSegment} {nowUs : Nat}

/-- A connection that a segment is handed to is known as far as it was given anything. -/
theorem knows_target {c : TrackedConn} (hkey : keyOf seg.src seg.dst = k)
    (hlimit : w.tracker.tableLimit = limit)
    (hknows : seg.freshSyn = false → w.Knows K k client isn side limit)
    (hclient : seg.freshSyn = true → seg.src = client)
    (hopened : seg.freshSyn = false → w.tracker.conns.lookup k = none →
      w.tracker.target seg nowUs = none)
    (h : w.tracker.target seg nowUs = some c) :
    c.client = client ∧ Direction.KnowsOrPoisoned K (isn side + 1) side limit
      (if seg.freshSyn then [] else w.given side) (c.dirs side) := by
  cases hsyn : seg.freshSyn with
  | true =>
      have hopen : c = w.tracker.openConn seg nowUs := by
        rcases Tracker.target_cases h with ⟨hno, -⟩ | ⟨hopen, -⟩
        · rw [hsyn] at hno
          cases hno
        · exact hopen
      have hnew : c.dirs side =
          (Direction.fromConnectionStart false side).setTableTrackLimit limit := by
        rw [Conn.dirs, hopen, Tracker.dir_open_conn, hsyn, hlimit, Bool.and_true]
        rfl
      rw [hnew, if_pos rfl, hopen, (w.tracker.open_conn_of_fresh_syn hsyn nowUs).1]
      exact ⟨hclient hsyn, Or.inr ⟨[], Direction.knows_from_connection_start _ _ _ _⟩⟩
  | false =>
      rw [if_neg Bool.false_ne_true]
      rcases Tracker.target_cases h with ⟨-, hlookup⟩ | ⟨-, hnone⟩
      · rw [hkey] at hlookup
        exact (hknows hsyn).conn c hlookup
      · have hnone := hnone.resolve_left (by rw [hsyn]; exact Bool.false_ne_true)
        rw [hkey] at hnone
        rw [hopened hsyn hnone] at h
        cases h

/-- A segment of the connection. A bare SYN needs nothing to be known before. -/
theorem knows_segment (hkey : keyOf seg.src seg.dst = k) (hlimit : w.tracker.tableLimit = limit)
    (hmax : limit ≤ usizeMax) (hknows : seg.freshSyn = false → w.Knows K k client isn side limit)
    (hof : TrackerOp.OfConnection k client isn (.segment seg nowUs))
    (hdata : (seg.src == client) = side → EachAt K seg.dataSeq seg.payload)
    (hsees : w.SeesFirstByte k isn side (.segment seg nowUs)) :
    (w.perform k (.segment seg nowUs)).1.Knows K k client isn side limit := by
  obtain ⟨hseq, hclient⟩ := hof hkey
  obtain ⟨hopened, hsees⟩ := hsees hkey
  refine ⟨(Tracker.table_limit_perform w.tracker (.segment seg nowUs)).trans hlimit, ?_⟩
  simp only [perform, if_pos hkey]
  cases htarget : w.tracker.target seg nowUs with
  | none =>
      rw [← hkey, Tracker.lookup_on_segment_of_none htarget]
      exact fun c hc => absurd hc (Option.not_mem_none c)
  | some c =>
      obtain ⟨rfl, hbefore⟩ := knows_target hkey hlimit hknows hclient hopened htarget
      rw [← hkey, Tracker.lookup_on_segment htarget]
      intro after hafter
      obtain rfl := Option.some.inj hafter
      refine ⟨rfl, ?_⟩
      rw [givenAfter, htarget]
      refine Conn.knows_on_segment hbefore hmax (fun hside => ⟨?_, hdata hside⟩)
        (hsees c htarget)
      rw [← hside]
      exact hseq

/-- A segment of another connection. -/
theorem Knows.other_segment (h : w.Knows K k client isn side limit)
    (hne : keyOf seg.src seg.dst ≠ k) (nowUs : Nat) :
    (w.perform k (.segment seg nowUs)).1.Knows K k client isn side limit := by
  refine ⟨(Tracker.table_limit_perform w.tracker (.segment seg nowUs)).trans h.limit_eq, ?_⟩
  simp only [perform, if_neg hne]
  rw [Tracker.lookup_on_segment_ne w.tracker nowUs (Ne.symm hne)]
  exact h.conn

/-- A tick. -/
theorem Knows.tick (h : w.Knows K k client isn side limit) (nowUs : Nat) :
    (w.perform k (.tick nowUs)).1.Knows K k client isn side limit := by
  refine ⟨h.limit_eq, fun c hc => ?_⟩
  obtain ⟨before, hbefore, rfl⟩ := Tracker.exists_of_lookup_tick hc
  obtain ⟨hclient, hknows⟩ := h.conn before hbefore
  exact ⟨hclient, Conn.knows_tick hknows nowUs⟩

/-- What the tracker does beside the watch. -/
theorem tracker_run (w : ConnWatch) (ops : List TrackerOp) :
    (run (perform k) w ops).1.tracker = w.tracker.after ops := by
  induction ops generalizing w with
  | nil => rfl
  | cons op ops ih =>
      rw [run_cons_fst, ih]
      cases op <;> rfl

/-- The table of the direction stays known in a run whose segments can be trusted. -/
theorem Knows.run {ops : List TrackerOp} (h : w.Knows K k client isn side limit)
    (hmax : limit ≤ usizeMax) (hof : ∀ op ∈ ops, op.OfConnection k client isn)
    (hdata : ∀ seg nowUs, .segment seg nowUs ∈ ops → keyOf seg.src seg.dst = k →
      (seg.src == client) = side → EachAt K seg.dataSeq seg.payload)
    (hsees : Guarded (perform k) (SeesFirstByte k isn side) w ops) :
    (run (perform k) w ops).1.Knows K k client isn side limit := by
  refine (run_invariant (Q := fun _ => True) (perform k) (fun w op hw hop => ?_) h
    ((hsees.and_inputs hof).and_inputs (C := fun op => op ∈ ops) fun _ hop => hop)).1
  obtain ⟨⟨hsees, hof⟩, hmem⟩ := hop
  refine ⟨?_, trivial⟩
  cases op with
  | tick nowUs => exact hw.tick nowUs
  | segment seg nowUs =>
      by_cases hkey : keyOf seg.src seg.dst = k
      · exact knows_segment hkey hw.limit_eq hmax (fun _ => hw) hof
          (hdata seg nowUs hmem hkey) hsees
      · exact hw.other_segment hkey nowUs

end ConnWatch

/-! ## Usable snapshots -/

/-- The name of a direction in a snapshot. -/
def dirName (isC2s : Bool) : String := if isC2s then "c2s" else "s2c"

section

variable [HuffmanDecoding]

/-- All bytes of a direction up to `next_frame_seq`, from its first one on, are bytes of which `K`
is true, and the entries are the table of an RFC 7541 decoder that is given just these. -/
def DirSnapshot.KnownFromFirstByte (K : Seq → UInt8 → Prop) (isn : Seq) (isC2s : Bool)
    (s : DirSnapshot) : Prop :=
  ∃ stream : Bytes, s.nextFrameSeq = isn + 1 + BitVec.ofNat 32 stream.length ∧
    EachAt K (isn + 1) stream ∧
    s.entries = ((Standard.tableAfter .initial (headerBlocks isC2s stream)).table.map
      Header.field).map Entry.ofField

/-- The tracker is given the segments of a connection from the client's SYN on, which is the first
of `ops`. If the direction of one side is usable then, it is known from its first byte. -/
def UsableFromFirstByte (t : Tracker) (k : Key) (client : SocketAddr) (isn : Bool → Seq)
    (isC2s : Bool) (ops : List TrackerOp) (ringOldestUs : Option Nat) : Prop :=
  ∀ c ∈ (t.after ops).conns.lookup k, ∀ s ∈ (c.snapshot ringOldestUs).dirs,
    s.dir = dirName isC2s → s.usable = true →
      s.KnownFromFirstByte (Delivered k client isC2s ops) (isn isC2s) isC2s

omit [HuffmanDecoding] in
/-- The snapshot of one side. -/
theorem dir_snapshot_of_name {c : TrackedConn} {ringOldestUs : Option Nat} {s : DirSnapshot}
    {isC2s : Bool} (hs : s ∈ (c.snapshot ringOldestUs).dirs) (hdir : s.dir = dirName isC2s) :
    ∃ src dst, s = dirSnapshot (dirName isC2s) src dst (c.dir isC2s) ringOldestUs := by
  rcases List.mem_pair.mp hs with rfl | rfl
  · cases isC2s with
    | true => exact ⟨c.client, c.server, rfl⟩
    | false => exact absurd (show "c2s" = "s2c" from hdir) (by decide)
  · cases isC2s with
    | true => exact absurd (show "s2c" = "c2s" from hdir) (by decide)
    | false => exact ⟨c.server, c.client, rfl⟩

omit [HuffmanDecoding] in
/-- A usable direction is not poisoned, and its table is tracked. -/
theorem not_lost_of_usable {name : String} {src dst : SocketAddr} {t : DirTrack}
    {ringOldestUs : Option Nat} (h : (dirSnapshot name src dst t ringOldestUs).usable = true) :
    t.dir.poisoned = false ∧ t.dir.dec.overLimit = false := by
  have hreason : dirReason t ringOldestUs = none :=
    Option.isNone_iff_eq_none.mp (Bool.and_eq_true_iff.mp h).1
  rw [dir_reason_eq_none_iff, DirTrack.Doubtful, not_or, not_or] at hreason
  obtain ⟨hover, hpoisoned, -⟩ := hreason
  exact ⟨Bool.eq_false_iff.mpr hpoisoned, Bool.eq_false_iff.mpr hover⟩

/-- A usable direction that knows its table is known from its first byte. -/
theorem known_of_usable {K : Seq → UInt8 → Prop} {isn : Seq} {isC2s : Bool} {limit : Nat}
    {given : List Seen} {t : DirTrack} {name : String} {src dst : SocketAddr}
    {ringOldestUs : Option Nat}
    (h : Direction.KnowsOrPoisoned K (isn + 1) isC2s limit given t.dir)
    (hinit : t.dir.reasm.initialized = true)
    (hfits : Standard.fits .initial .initial given = true)
    (husable : (dirSnapshot name src dst t ringOldestUs).usable = true) :
    (dirSnapshot name src dst t ringOldestUs).KnownFromFirstByte K isn isC2s := by
  obtain ⟨hpoisoned, hover⟩ := not_lost_of_usable husable
  obtain ⟨stream, hknows⟩ := h.of_not_poisoned hpoisoned
  refine ⟨stream, hknows.traced.next_unparsed_seq hinit, hknows.traced.each, ?_⟩
  exact congrArg (List.map Entry.ofField) (hknows.table_eq hover hfits)

end

/-- The tracker is given the segments of a connection from the client's SYN on. If the segments of
one side can be trusted, then whenever that direction is usable it is known from its first byte, as
long as it has started and its tables fit the table sizes that were announced. -/
theorem known_from_first_byte [HuffmanDecoding] (t : Tracker) (syn : EthSegment) (synUs : Nat)
    (isn : Bool → Seq) (isC2s : Bool) (later : List TrackerOp) (ringOldestUs : Option Nat)
    (hmax : t.tableLimit ≤ usizeMax) (hsyn : syn.freshSyn = true)
    (hof : ∀ op ∈ .segment syn synUs :: later,
      op.OfConnection (keyOf syn.src syn.dst) syn.src isn)
    (hsees : Guarded (ConnWatch.perform (keyOf syn.src syn.dst))
      (ConnWatch.SeesFirstByte (keyOf syn.src syn.dst) isn isC2s) ⟨t, fun _ => []⟩
      (.segment syn synUs :: later))
    (hstarted : ∀ c ∈ (t.after (.segment syn synUs :: later)).conns.lookup
      (keyOf syn.src syn.dst), (c.dirs isC2s).reasm.initialized = true)
    (hfits : Standard.fits .initial .initial ((run (ConnWatch.perform (keyOf syn.src syn.dst))
      ⟨t, fun _ => []⟩ (.segment syn synUs :: later)).1.given isC2s) = true) :
    UsableFromFirstByte t (keyOf syn.src syn.dst) syn.src isn isC2s (.segment syn synUs :: later)
      ringOldestUs := by
  intro c hc s hs hdir husable
  have hdata : ∀ seg nowUs, .segment seg nowUs ∈ TrackerOp.segment syn synUs :: later →
      keyOf seg.src seg.dst = keyOf syn.src syn.dst → (seg.src == syn.src) = isC2s →
        EachAt (Delivered (keyOf syn.src syn.dst) syn.src isC2s (.segment syn synUs :: later))
          seg.dataSeq seg.payload :=
    fun seg nowUs hmem hkey hside i b hb => ⟨seg, nowUs, hmem, hkey, hside, i, hb, rfl⟩
  have hopened := ConnWatch.knows_segment rfl rfl hmax
    (fun hno => by rw [hsyn] at hno; cases hno) (hof _ List.mem_cons_self)
    (hdata syn synUs List.mem_cons_self rfl) hsees.1
  have hknows := hopened.run hmax (fun op hop => hof op (List.mem_cons_of_mem _ hop))
    (fun seg nowUs hmem => hdata seg nowUs (List.mem_cons_of_mem _ hmem)) hsees.2
  rw [← run_cons_fst] at hknows
  have hlookup := hc
  rw [← ConnWatch.tracker_run (k := keyOf syn.src syn.dst) ⟨t, fun _ => []⟩] at hlookup
  obtain ⟨src, dst, rfl⟩ := dir_snapshot_of_name hs hdir
  exact known_of_usable (hknows.conn c hlookup).2 (hstarted c hc) hfits husable

/-- After the handshake the server sends a header, in two segments of which the second comes
first. -/
theorem known_from_first_byte_reordered :
    let _ := noHuffman.toHuffmanDecoding
    UsableFromFirstByte (.new [7777] 100 300 65536) (keyOf Pkt.clientAddr Pkt.serverAddr)
      Pkt.clientAddr (fun isC2s => if isC2s then 99 else 199) false
      [.segment (referenceSegment true 99 TcpFlags.syn []) 1,
        .segment (referenceSegment false 199 (TcpFlags.syn ||| TcpFlags.ack) []) 2,
        .segment (referenceSegment false 209 TcpFlags.ack [0x40, 1, 0x61, 1, 0x62]) 3,
        .segment (referenceSegment false 200 TcpFlags.ack
          [0, 0, 5, FrameType.headers, 4, 0, 0, 0, 1]) 4,
        .tick 5] none := by
  exact @known_from_first_byte noHuffman.toHuffmanDecoding (.new [7777] 100 300 65536)
    (referenceSegment true 99 TcpFlags.syn []) 1 (fun isC2s => if isC2s then 99 else 199) false
    [.segment (referenceSegment false 199 (TcpFlags.syn ||| TcpFlags.ack) []) 2,
      .segment (referenceSegment false 209 TcpFlags.ack [0x40, 1, 0x61, 1, 0x62]) 3,
      .segment (referenceSegment false 200 TcpFlags.ack
        [0, 0, 5, FrameType.headers, 4, 0, 0, 0, 1]) 4,
      .tick 5] none (by decide) (by decide) (by decide) (by decide +kernel) (by decide +kernel)
    (by decide +kernel)

/-- The server's SYN and its first ten bytes are lost. The direction is usable from the next segment
on. -/
theorem server_start_lost :
    let _ := noHuffman.toHuffmanDecoding
    ¬∀ (t : Tracker) (syn : EthSegment) (synUs : Nat) (isn : Bool → Seq) (isC2s : Bool)
      (later : List TrackerOp) (ringOldestUs : Option Nat),
      t.tableLimit ≤ usizeMax → syn.freshSyn = true →
        (∀ op ∈ .segment syn synUs :: later,
          op.OfConnection (keyOf syn.src syn.dst) syn.src isn) →
        UsableFromFirstByte t (keyOf syn.src syn.dst) syn.src isn isC2s
          (.segment syn synUs :: later) ringOldestUs := by
  intro _ hclaim
  have hknown := hclaim (.new [7777] 100 300 65536) (referenceSegment true 99 TcpFlags.syn []) 1
    (fun isC2s => if isC2s then 99 else 199) false
    [.segment (referenceSegment false 210 TcpFlags.ack
      [0, 0, 5, FrameType.headers, 4, 0, 0, 0, 1, 0x40, 1, 0x61, 1, 0x62]) 2] none (by decide)
    (by decide) (by decide)
  have husable : ∃ c ∈ ((Tracker.new [7777] 100 300 65536).after
      [.segment (referenceSegment true 99 TcpFlags.syn []) 1,
        .segment (referenceSegment false 210 TcpFlags.ack
          [0, 0, 5, FrameType.headers, 4, 0, 0, 0, 1, 0x40, 1, 0x61, 1, 0x62]) 2]).conns.lookup
        (keyOf Pkt.clientAddr Pkt.serverAddr), ∃ s ∈ (c.snapshot none).dirs,
      s.dir = "s2c" ∧ s.usable = true ∧ s.nextFrameSeq = 224 := by
    decide +kernel
  obtain ⟨c, hc, s, hs, hdir, husable, hnext⟩ := husable
  obtain ⟨stream, hlength, heach, -⟩ := hknown c hc s hs hdir husable
  rw [hnext] at hlength
  cases stream with
  | nil =>
      revert hlength
      decide
  | cons first rest =>
      -- the byte with the number 200 was never delivered
      obtain ⟨seg, nowUs, hmem, -, -, i, hbyte, hseq⟩ := heach 0 first rfl
      simp only [List.mem_cons, List.not_mem_nil, or_false, TrackerOp.segment.injEq] at hmem
      rcases hmem with ⟨rfl, -⟩ | ⟨rfl, -⟩
      · cases hbyte
      · have hi : i < 14 := (List.getElem?_eq_some_iff.mp hbyte).1
        have hplace : (199 : Seq) + 1 + 0 = 210 + BitVec.ofNat 32 i := hseq
        bv_omega

end H2Tap
