import H2Tap.Rebuild.Replay

/-!
# What one packet does

A packet touches one connection: the one it finds, or the one it opens (`found`).
`on_segment_of_empty` and `on_segment_of_payload` say that the table of connections changes at its
addresses only, `touch_dir` and `absorb_dir` what becomes of the two directions.
-/

namespace H2Tap

open Lib

/-- The segment of a packet, if it belongs to the connection `k`. -/
def segmentOn (k : Key) (packet : Packet) : Option EthSegment :=
  (Pkt.parseEthernet packet.2).filter fun seg => keyOf seg.src seg.dst == k

theorem segment_on_some {k : Key} {packet : Packet} {seg : EthSegment}
    (h : segmentOn k packet = some seg) :
    Pkt.parseEthernet packet.2 = some seg ∧ keyOf seg.src seg.dst = k := by
  rw [segmentOn, Option.filter_eq_some_iff] at h
  exact ⟨h.1, by simpa using h.2⟩

theorem segment_on_none {k : Key} {packet : Packet} (h : segmentOn k packet = none)
    {seg : EthSegment} (hseg : Pkt.parseEthernet packet.2 = some seg) :
    keyOf seg.src seg.dst ≠ k := by
  intro hkey
  rw [segmentOn, hseg, Option.filter_some, hkey] at h
  simp at h

namespace ConnState

@[simp] theorem set_dir_client (cs : ConnState) (isC2s : Bool) (ds : DirState) :
    (cs.setDir isC2s ds).client = cs.client := by
  cases isC2s <;> rfl

@[simp] theorem set_dir_server (cs : ConnState) (isC2s : Bool) (ds : DirState) :
    (cs.setDir isC2s ds).server = cs.server := by
  cases isC2s <;> rfl

@[simp] theorem set_dir_saw_syn (cs : ConnState) (isC2s : Bool) (ds : DirState) :
    (cs.setDir isC2s ds).sawSyn = cs.sawSyn := by
  cases isC2s <;> rfl

@[simp] theorem set_dir_first_ts (cs : ConnState) (isC2s : Bool) (ds : DirState) :
    (cs.setDir isC2s ds).firstTs = cs.firstTs := by
  cases isC2s <;> rfl

@[simp] theorem set_dir_last_ts (cs : ConnState) (isC2s : Bool) (ds : DirState) :
    (cs.setDir isC2s ds).lastTs = cs.lastTs := by
  cases isC2s <;> rfl

/-- When a connection opens, nothing has failed and nothing was written. -/
theorem opened_dir (seg : EthSegment) (ts : Nat) (isC2s : Bool) :
    ((opened seg ts).dir isC2s).dir.decodeErrors = 0 ∧ ((opened seg ts).dir isC2s).out = [] := by
  cases isC2s <;> cases hsyn : seg.freshSyn <;> simp [opened, dir, hsyn] <;> exact ⟨rfl, rfl⟩

/-- When a connection opens, nothing was received. -/
theorem reasm_opened (seg : EthSegment) (ts : Nat) (isC2s : Bool) :
    ((opened seg ts).dir isC2s).dir.reasm = .new := by
  cases isC2s <;> cases hsyn : seg.freshSyn <;> simp only [opened, dir, hsyn, if_true,
    Bool.false_eq_true, if_false] <;> rfl

/-- The direction with what a packet does to it before its payload is looked at. -/
def touchedDir (cs : ConnState) (isC2s : Bool) (seed : Option Seed) (seg : EthSegment) : DirState :=
  (((cs.dir isC2s).noteEndpoint seg).seed cs.sawSyn seed).1.noteSyn seg

/-- Touching a connection changes one direction. -/
theorem touch_eq (cs : ConnState) (isC2s : Bool) (seed : Option Seed) (seg : EthSegment)
    (ts : Nat) :
    (cs.touch isC2s seed seg ts).1 =
      { cs with lastTs := ts }.setDir isC2s (cs.touchedDir isC2s seed seg) := rfl

@[simp] theorem touch_client (cs : ConnState) (isC2s : Bool) (seed : Option Seed) (seg : EthSegment)
    (ts : Nat) : (cs.touch isC2s seed seg ts).1.client = cs.client := by
  rw [touch_eq, set_dir_client]

@[simp] theorem touch_server (cs : ConnState) (isC2s : Bool) (seed : Option Seed) (seg : EthSegment)
    (ts : Nat) : (cs.touch isC2s seed seg ts).1.server = cs.server := by
  rw [touch_eq, set_dir_server]

@[simp] theorem touch_saw_syn (cs : ConnState) (isC2s : Bool) (seed : Option Seed)
    (seg : EthSegment) (ts : Nat) : (cs.touch isC2s seed seg ts).1.sawSyn = cs.sawSyn := by
  rw [touch_eq, set_dir_saw_syn]

@[simp] theorem touch_dir (cs : ConnState) (isC2s : Bool) (seed : Option Seed) (seg : EthSegment)
    (ts : Nat) : (cs.touch isC2s seed seg ts).1.dir isC2s = cs.touchedDir isC2s seed seg := by
  rw [touch_eq, dir_set_dir]

@[simp] theorem touch_dir_not (cs : ConnState) (isC2s : Bool) (seed : Option Seed)
    (seg : EthSegment) (ts : Nat) :
    (cs.touch isC2s seed seg ts).1.dir (!isC2s) = cs.dir (!isC2s) := by
  rw [touch_eq, dir_set_dir_not]
  cases isC2s <;> rfl

/-- What a property of the direction has to survive to survive being touched. -/
theorem touched_dir_rule {P : Direction → Prop} {cs : ConnState} {isC2s : Bool}
    (hdir : P (cs.dir isC2s).dir)
    (hseed : ∀ s : Seed, cs.sawSyn = false → (cs.dir isC2s).seeded = false →
      P ((cs.dir isC2s).dir.seedFromSnapshot s.entries s.maxSize s.nextFrameSeq))
    (hsyn : ∀ (d : Direction) (seq : Seq), P d → P { d with reasm := d.reasm.noteSyn seq })
    (seed : Option Seed) (seg : EthSegment) : P (cs.touchedDir isC2s seed seg).dir := by
  have hseeded : P (((cs.dir isC2s).noteEndpoint seg).seed cs.sawSyn seed).1.dir := by
    unfold DirState.seed
    split
    · exact hdir
    · next hfirst =>
        dsimp only
        split
        · exact hdir
        · next hsaw =>
            split
            · split
              · exact hseed _ (by simpa using hsaw) (by simpa [DirState.noteEndpoint] using hfirst)
              · exact hdir
            · exact hdir
  unfold touchedDir DirState.noteSyn
  split
  · exact hsyn _ _ hseeded
  · exact hseeded

/-- Touching writes nothing. -/
@[simp] theorem touched_dir_out (cs : ConnState) (isC2s : Bool) (seed : Option Seed)
    (seg : EthSegment) : (cs.touchedDir isC2s seed seg).out = (cs.dir isC2s).out := by
  have hseeded : (((cs.dir isC2s).noteEndpoint seg).seed cs.sawSyn seed).1.out =
      (cs.dir isC2s).out := by
    unfold DirState.seed
    split
    · rfl
    · dsimp only
      split
      · rfl
      · split
        · split <;> rfl
        · rfl
  unfold touchedDir DirState.noteSyn
  split <;> exact hseeded

variable (cs : ConnState) (isC2s : Bool) (fed : Direction × List ProcessedFrame) (ts : Nat)
  (items : List Normalized)

@[simp] theorem absorb_client : (cs.absorb isC2s fed ts items).client = cs.client := by
  simp [absorb]

@[simp] theorem absorb_server : (cs.absorb isC2s fed ts items).server = cs.server := by
  simp [absorb]

@[simp] theorem absorb_first_ts : (cs.absorb isC2s fed ts items).firstTs = cs.firstTs := by
  simp [absorb]

@[simp] theorem absorb_last_ts : (cs.absorb isC2s fed ts items).lastTs = cs.lastTs := by
  simp [absorb]

@[simp] theorem absorb_saw_syn : (cs.absorb isC2s fed ts items).sawSyn = cs.sawSyn := by
  simp [absorb]

@[simp] theorem absorb_dir :
    (cs.absorb isC2s fed ts items).dir isC2s =
      { cs.dir isC2s with
        dir := fed.1
        out := (cs.dir isC2s).out ++ items.map fun item => (ts, item) } := by
  cases isC2s <;> rfl

@[simp] theorem absorb_dir_not :
    (cs.absorb isC2s fed ts items).dir (!isC2s) =
      { cs.dir (!isC2s) with
        dir := (Direction.settingsSizes fed.2).foldl Direction.applyPeerCapacity
          (cs.dir (!isC2s)).dir } := by
  cases isC2s <;> rfl

/-- The endpoints stay as they are. -/
theorem absorb_ep (side : Bool) :
    ((cs.absorb isC2s fed ts items).dir side).ep = (cs.dir side).ep := by
  rcases Bool.eq_or_eq_not side isC2s with rfl | rfl
  · rw [absorb_dir]
  · rw [absorb_dir_not]

end ConnState

namespace Replay

/-- The connection of a segment, as it is or as it is opened. -/
def found (r : Replay) (seg : EthSegment) (ts : Nat) : ConnState :=
  if seg.freshSyn then ConnState.opened seg ts
  else (r.conns.lookup (keyOf seg.src seg.dst)).getD (ConnState.opened seg ts)

/-- A segment opens a connection if it is a bare SYN or the first one between its addresses. -/
def opens (r : Replay) (seg : EthSegment) : Bool :=
  seg.freshSyn || (r.conns.lookup (keyOf seg.src seg.dst)).isNone

/-- The list of connections after a segment. -/
def orderAfter (r : Replay) (seg : EthSegment) : List Key :=
  if r.opens seg then r.order ++ [keyOf seg.src seg.dst] else r.order

/-- `findConn` by what it opens and removes. -/
theorem find_conn_eq (r : Replay) (seg : EthSegment) (ts : Nat) :
    r.findConn seg ts =
      ({ conns := if seg.freshSyn then r.conns.erase (keyOf seg.src seg.dst) else r.conns
         order := r.orderAfter seg
         report := { r.report with conns := r.report.conns + (r.opens seg).toNat } },
        r.found seg ts) := by
  cases hsyn : seg.freshSyn with
  | true => simp [findConn, found, orderAfter, opens, hsyn]
  | false =>
      cases hlookup : r.conns.lookup (keyOf seg.src seg.dst) <;>
        simp [findConn, found, orderAfter, opens, hsyn, hlookup]

/-- The connection that a segment finds was in the table or is new. -/
theorem found_cases (r : Replay) (seg : EthSegment) (ts : Nat) :
    (r.found seg ts = ConnState.opened seg ts ∧
        (seg.freshSyn = true ∨ r.conns.lookup (keyOf seg.src seg.dst) = none)) ∨
      (seg.freshSyn = false ∧
        r.conns.lookup (keyOf seg.src seg.dst) = some (r.found seg ts)) := by
  cases hsyn : seg.freshSyn with
  | true => exact Or.inl ⟨by simp [found, hsyn], Or.inl rfl⟩
  | false =>
      cases hlookup : r.conns.lookup (keyOf seg.src seg.dst) with
      | none => exact Or.inl ⟨by simp [found, hsyn, hlookup], Or.inr rfl⟩
      | some cs => exact Or.inr ⟨rfl, by simp [found, hsyn, hlookup]⟩

/-- What a state says of its connections it says of the one that a segment finds. -/
theorem found_rule {r : Replay} {Q : DirState → Prop}
    (hconns : ∀ k cs, r.conns.lookup k = some cs → ∀ isC2s, Q (cs.dir isC2s))
    (seg : EthSegment) (ts : Nat) (hopened : ∀ isC2s, Q ((ConnState.opened seg ts).dir isC2s))
    (isC2s : Bool) : Q ((r.found seg ts).dir isC2s) := by
  rcases found_cases r seg ts with ⟨hnew, -⟩ | ⟨-, hlookup⟩
  · rw [hnew]
    exact hopened isC2s
  · exact hconns _ _ hlookup isC2s

/-- The side that sent a segment. -/
def sentByClient (r : Replay) (seg : EthSegment) (ts : Nat) : Bool :=
  seg.src == (r.found seg ts).client

/-- The connection of a segment before its payload is looked at. -/
def touched (seeds : Table (String × String) Seed) (r : Replay) (seg : EthSegment) (ts : Nat) :
    ConnState :=
  ((r.found seg ts).touch (r.sentByClient seg ts) (seeds.lookup (seg.src.text, seg.dst.text))
    seg ts).1

variable [HuffmanDecoding] (seeds : Table (String × String) Seed)

/-- What the payload of a segment gives. -/
def fed (r : Replay) (seg : EthSegment) (ts : Nat) : Direction × List ProcessedFrame :=
  ((r.touched seeds seg ts).dir (r.sentByClient seg ts)).dir.feed seg.seq seg.payload ts

/-- The report once the connection of a segment is touched. -/
def touchedReport (r : Replay) (seg : EthSegment) (ts : Nat) : Report :=
  { r.report with
    conns := r.report.conns + (r.opens seg).toNat
    connsSeeded := r.report.connsSeeded +
      ((r.found seg ts).touch (r.sentByClient seg ts) (seeds.lookup (seg.src.text, seg.dst.text))
        seg ts).2.toNat }

/-- The report with the frames and failures of a payload, and how many markers are written. -/
def failures (r : Replay) (seg : EthSegment) (ts : Nat) : Report × Nat :=
  ((r.fed seeds seg ts).2.foldl Report.countFrame (r.touchedReport seeds seg ts)).countFailures
    (r.fed seeds seg ts).1.decodeErrors

/-- What a segment with a payload writes. -/
def writes (r : Replay) (seg : EthSegment) (ts : Nat) : List Normalized :=
  (r.fed seeds seg ts).2.filterMap normalize ++ List.replicate (r.failures seeds seg ts).2 .failed

/-- The connection after a segment with a payload. -/
def absorbed (r : Replay) (seg : EthSegment) (ts : Nat) : ConnState :=
  (r.touched seeds seg ts).absorb (r.sentByClient seg ts) (r.fed seeds seg ts) ts
    (r.writes seeds seg ts)

omit [HuffmanDecoding] in
private theorem insert_found (r : Replay) (seg : EthSegment) (cs : ConnState) :
    (if seg.freshSyn then r.conns.erase (keyOf seg.src seg.dst) else r.conns).insert
      (keyOf seg.src seg.dst) cs = r.conns.insert (keyOf seg.src seg.dst) cs := by
  split
  · exact Table.insert_erase _ _ _
  · rfl

/-- A segment without a payload touches its connection. -/
theorem on_segment_of_empty {seg : EthSegment} (hempty : seg.payload.isEmpty = true) (r : Replay)
    (ts : Nat) :
    r.onSegment seeds seg ts =
      (⟨r.conns.insert (keyOf seg.src seg.dst) (r.touched seeds seg ts), r.orderAfter seg,
        r.touchedReport seeds seg ts⟩, none, []) := by
  simp only [onSegment, hempty, if_true, find_conn_eq, insert_found, touchedReport, touched,
    sentByClient]

/-- A segment with a payload replaces its connection by one that has taken the payload in. -/
theorem on_segment_of_payload {seg : EthSegment} (hpayload : seg.payload.isEmpty = false)
    (r : Replay) (ts : Nat) :
    r.onSegment seeds seg ts =
      (⟨r.conns.insert (keyOf seg.src seg.dst) (r.absorbed seeds seg ts), r.orderAfter seg,
          (r.failures seeds seg ts).1⟩,
        some ⟨keyOf seg.src seg.dst, r.sentByClient seg ts, ts, r.writes seeds seg ts⟩,
        (r.fed seeds seg ts).2.filterMap
          ((r.touched seeds seg ts).jsonRecord (r.sentByClient seg ts) ts)) := by
  simp only [onSegment, hpayload, Bool.false_eq_true, if_false, find_conn_eq,
    insert_found, absorbed,
    touched, touchedReport, sentByClient, fed, writes, failures]

omit [HuffmanDecoding] in
/-- The packet is counted before it is looked at. -/
def countPacket (r : Replay) : Replay :=
  { r with report := { r.report with packetsIn := r.report.packetsIn + 1 } }

theorem step_of_none {packet : Packet} (h : Pkt.parseEthernet packet.2 = none) (r : Replay) :
    r.step seeds packet = (r.countPacket, none, []) := by
  simp only [step, h, countPacket]

theorem step_of_segment {packet : Packet} {seg : EthSegment}
    (h : Pkt.parseEthernet packet.2 = some seg) (r : Replay) :
    r.step seeds packet = r.countPacket.onSegment seeds seg packet.1 := by
  simp only [step, h, countPacket]

end Replay

end H2Tap
