import H2Tap.Lib.SortedBlocks
import H2Tap.Rebuild.Replay

/-!
# Writing the rebuilt capture

`write_pcap` of `rebuild.rs`: every connection gets a handshake, the client's preface, its
normalized frames cut into segments, and a FIN of each side. All packets are sorted by time and
numbered as they are written. `stream_contains` says that sorting tears no frame apart: each
direction of a synthesized connection carries each of its frames once.
-/

namespace H2Tap

open Lib

/-- `bytes.chunks(mss.max(1))`. -/
def chunks (mss : Nat) (bytes : Bytes) : List Bytes :=
  if _h : bytes = [] then []
  else bytes.take (max mss 1) :: chunks mss (bytes.drop (max mss 1))
termination_by bytes.length
decreasing_by
  have hpos := List.length_pos_iff.mpr _h
  rw [List.length_drop]
  omega

theorem chunks_flatten (mss : Nat) (bytes : Bytes) : (chunks mss bytes).flatten = bytes := by
  induction bytes using chunks.induct mss with
  | case1 => rw [chunks]; simp
  | case2 bytes hne ih =>
      rw [chunks, dif_neg hne, List.flatten_cons, ih, List.take_append_drop]

theorem chunks_ne_nil (mss : Nat) {bytes : Bytes} (h : bytes ≠ []) : chunks mss bytes ≠ [] := by
  rw [chunks, dif_neg h]
  exact List.cons_ne_nil _ _

/-- `OutPkt`. The phase is 0 for the handshake, 1 for data and 2 for the end. -/
structure OutPkt where
  ts : Nat
  phase : Nat
  conn : Nat
  seqInConn : Nat
  isC2s : Bool
  flags : UInt8
  payload : Bytes
  deriving DecidableEq

namespace OutPkt

/-- What the packets are sorted by. -/
def sortKey (p : OutPkt) : ℕ ×ₗ ℕ ×ₗ ℕ ×ₗ ℕ :=
  toLex (p.ts, toLex (p.phase, toLex (p.conn, p.seqInConn)))

/-- Number the packets of a connection from `n` on. -/
def number (n : Nat) (pkts : List OutPkt) : List OutPkt :=
  (pkts.zipIdx n).map fun p => { p.1 with seqInConn := p.2 }

end OutPkt

namespace ConnState

/-- The handshake. -/
def handshake (cs : ConnState) (ci : Nat) : List OutPkt :=
  [⟨cs.firstTs, 0, ci, 0, true, TcpFlags.syn, []⟩,
    ⟨cs.firstTs, 0, ci, 0, false, TcpFlags.syn ||| TcpFlags.ack, []⟩,
    ⟨cs.firstTs, 0, ci, 0, true, TcpFlags.ack, []⟩]

/-- The frames of a direction with their times. The client's stream is led by the preface. -/
def stream (cs : ConnState) (isC2s : Bool) : List (Nat × Bytes) :=
  let frames := (cs.dir isC2s).frames
  if isC2s && !frames.isEmpty then (cs.firstTs, preface) :: frames else frames

/-- The segments of one frame. -/
def frameSegments (mss ci : Nat) (isC2s : Bool) (frame : Nat × Bytes) : List OutPkt :=
  (chunks mss frame.2).map fun chunk =>
    ⟨frame.1, 1, ci, 0, isC2s, TcpFlags.psh ||| TcpFlags.ack, chunk⟩

/-- The segments of a direction. -/
def segments (mss ci : Nat) (cs : ConnState) (isC2s : Bool) : List OutPkt :=
  (cs.stream isC2s).flatMap (frameSegments mss ci isC2s)

/-- A FIN of each side. -/
def closing (cs : ConnState) (ci : Nat) : List OutPkt :=
  let t1 := max cs.lastTs cs.firstTs
  [⟨t1, 2, ci, 0, true, TcpFlags.fin ||| TcpFlags.ack, []⟩,
    ⟨t1, 2, ci, 0, false, TcpFlags.fin ||| TcpFlags.ack, []⟩]

/-- The packets of a connection. -/
def packets (mss ci : Nat) (cs : ConnState) : List OutPkt :=
  OutPkt.number 0
    (cs.handshake ci ++ segments mss ci cs true ++ segments mss ci cs false ++ cs.closing ci)

/-- `std::mem::take` of both outputs. -/
def takeOut (cs : ConnState) : ConnState :=
  { cs with c2s := { cs.c2s with out := [] }, s2c := { cs.s2c with out := [] } }

end ConnState

/-- A connection that is written out: its number, its state and its endpoints. -/
structure Taken where
  conn : Nat
  state : ConnState
  c2s : Pkt.Endpoint
  s2c : Pkt.Endpoint
  deriving DecidableEq

/-- The connections in the order in which they were opened, from number `ci` on. The frames are
taken out of the table. One direction may never have been captured; then the other is mirrored. -/
def takeConns (ci : Nat) : List Key → Table Key ConnState → List Taken
  | [], _ => []
  | k :: ks, conns =>
      match conns.lookup k with
      | none => takeConns (ci + 1) ks conns
      | some cs =>
          match cs.c2s.ep.or (cs.s2c.ep.map Pkt.Endpoint.reversed),
            cs.s2c.ep.or (cs.c2s.ep.map Pkt.Endpoint.reversed) with
          | some a, some b => ⟨ci, cs, a, b⟩ :: takeConns (ci + 1) ks (conns.insert k cs.takeOut)
          | _, _ => takeConns (ci + 1) ks conns

/-- All packets, connections interleaved by time. A connection number out of range is skipped. -/
def sortedPackets (mss : Nat) (taken : List Taken) : List OutPkt :=
  ((taken.flatMap fun t => t.state.packets mss t.conn).mergeSort fun p q =>
    decide (p.sortKey ≤ q.sortKey)).filter fun p => p.conn < taken.length

/-- The next sequence numbers and IP identifications of all connections. -/
structure Emitter where
  nextSeq : Nat → Bool → Seq
  ipId : Nat → Bool → UInt16

/-- `ISN`. -/
def Emitter.start : Emitter where
  nextSeq _ isC2s := if isC2s then 0x10000000 else 0x20000000
  ipId _ _ := 0

/-- Write a packet. The peer's next expected byte is exactly right for a synthesized stream with no
loss. -/
def Emitter.emit (taken : List Taken) (e : Emitter) (p : OutPkt) : Emitter × Option Packet :=
  match taken[p.conn]? with
  | none => (e, none)
  | some t =>
      let seq := e.nextSeq p.conn p.isC2s
      let ack := if p.flags &&& TcpFlags.ack ≠ 0 then e.nextSeq p.conn (!p.isC2s) else 0
      let frame := Pkt.buildTcpPacket (if p.isC2s then t.c2s else t.s2c) seq ack p.flags 65535
        (e.ipId p.conn p.isC2s) p.payload
      let consumed := p.payload.length +
        (decide (p.flags &&& (TcpFlags.syn ||| TcpFlags.fin) ≠ 0)).toNat
      ({ nextSeq := Function.update e.nextSeq p.conn
          (Function.update (e.nextSeq p.conn) p.isC2s (seq + BitVec.ofNat 32 consumed))
         ipId := Function.update e.ipId p.conn
          (Function.update (e.ipId p.conn) p.isC2s (e.ipId p.conn p.isC2s + 1)) },
        some (p.ts, frame))

/-- `write_pcap`: the packets of the rebuilt capture. -/
def writePcap (mss : Nat) (r : Replay) : List Packet :=
  let taken := takeConns 0 r.order r.conns
  (run (Emitter.emit taken) Emitter.start (sortedPackets mss taken)).2.reduceOption

/-- `run`: the report, the rebuilt capture and the JSON lines. -/
def rebuild [HuffmanDecoding] (snap : Option CaptureSnapshot) (mss : Nat) (packets : List Packet) :
    Report × List Packet × List JsonRecord :=
  let seeds := snap.elim ∅ seedsOf
  let replayed := run (Replay.step seeds) Replay.start packets
  let out := writePcap mss replayed.1
  ({ replayed.1.finalReport with packetsOut := out.length }, out,
    replayed.2.flatMap fun turn => turn.2)

/-! ## What a synthesized connection carries -/

/-- The bytes that a direction of a connection carries. -/
def streamIn (pkts : List OutPkt) (conn : Nat) (isC2s : Bool) : Bytes :=
  (pkts.filter fun p => p.conn == conn && p.isC2s == isC2s).flatMap OutPkt.payload

/-- The bytes are those of the frames, each of them once. -/
def ContainsOnce (bytes : Bytes) (frames : List Bytes) : Prop :=
  ∃ inOrder : List Bytes, inOrder.Perm frames ∧ bytes = inOrder.flatten

namespace OutPkt

theorem number_append (n : Nat) (pkts more : List OutPkt) :
    number n (pkts ++ more) = number n pkts ++ number (n + pkts.length) more := by
  simp only [number, List.zipIdx_append, List.map_append]

theorem number_cons (n : Nat) (p : OutPkt) (pkts : List OutPkt) :
    number n (p :: pkts) = { p with seqInConn := n } :: number (n + 1) pkts := by
  simp only [number, List.zipIdx_cons, List.map_cons]

/-- Numbering does not change what is carried. -/
theorem number_payloads (n : Nat) (pkts : List OutPkt) :
    (number n pkts).flatMap payload = pkts.flatMap payload := by
  induction pkts generalizing n with
  | nil => rfl
  | cons p pkts ih => rw [number_cons, List.flatMap_cons, List.flatMap_cons, ih]

/-- A numbered packet is one of the packets with its number. -/
theorem mem_number {n : Nat} {pkts : List OutPkt} {p : OutPkt} (h : p ∈ number n pkts) :
    ∃ q ∈ pkts, p = { q with seqInConn := p.seqInConn } ∧ n ≤ p.seqInConn ∧
      p.seqInConn < n + pkts.length := by
  induction pkts generalizing n with
  | nil => simp [number] at h
  | cons q pkts ih =>
      rw [number_cons] at h
      rcases List.mem_cons.mp h with rfl | h
      · exact ⟨q, List.mem_cons_self, rfl, le_refl _, by simp⟩
      · obtain ⟨q', hq', heq, hle, hlt⟩ := ih h
        exact ⟨q', List.mem_cons_of_mem _ hq', heq, by omega, by rw [List.length_cons]; omega⟩

theorem number_pairwise (n : Nat) (pkts : List OutPkt) :
    (number n pkts).Pairwise fun p q => p.seqInConn < q.seqInConn := by
  induction pkts generalizing n with
  | nil => exact List.Pairwise.nil
  | cons p pkts ih =>
      rw [number_cons, List.pairwise_cons]
      refine ⟨fun q hq => ?_, ih _⟩
      obtain ⟨-, -, -, hle, -⟩ := mem_number hq
      exact Nat.lt_of_succ_le hle

/-- A condition that does not look at the number selects all numbered packets or none. -/
theorem filter_number {sel : OutPkt → Bool} (n : Nat) {pkts : List OutPkt} {keep : Bool}
    (h : ∀ q ∈ pkts, ∀ i, sel { q with seqInConn := i } = keep) :
    (number n pkts).filter sel = if keep then number n pkts else [] := by
  have hall : ∀ p ∈ number n pkts, sel p = keep := by
    intro p hp
    obtain ⟨q, hq, heq, -⟩ := mem_number hp
    rw [heq]
    exact h q hq _
  cases keep with
  | true => exact List.filter_eq_self.mpr hall
  | false => exact List.filter_eq_nil_iff.mpr fun p hp => by simp [hall p hp]

/-- A condition that does not look at the number and holds of no packet selects none. -/
theorem filter_number_none {sel : OutPkt → Bool} (n : Nat) {pkts : List OutPkt}
    (h : ∀ q ∈ pkts, ∀ i, sel { q with seqInConn := i } = false) :
    (number n pkts).filter sel = [] := by
  rw [filter_number n h]
  exact if_neg Bool.false_ne_true

/-- Number blocks of packets one after the other. -/
def numberBlocks (n : Nat) : List (List OutPkt) → List (List OutPkt)
  | [] => []
  | b :: blocks => number n b :: numberBlocks (n + b.length) blocks

theorem number_flatten (n : Nat) (blocks : List (List OutPkt)) :
    number n blocks.flatten = (numberBlocks n blocks).flatten := by
  induction blocks generalizing n with
  | nil => rfl
  | cons b blocks ih =>
      rw [List.flatten_cons, number_append, ih, numberBlocks, List.flatten_cons]

theorem number_blocks_payloads (n : Nat) (blocks : List (List OutPkt)) :
    (numberBlocks n blocks).map (fun b => b.flatMap payload) =
      blocks.map fun b => b.flatMap payload := by
  induction blocks generalizing n with
  | nil => rfl
  | cons b blocks ih => rw [numberBlocks, List.map_cons, List.map_cons, number_payloads, ih]

end OutPkt

namespace ConnState

variable (mss ci : Nat) (isC2s : Bool)

theorem frame_segments_payload (frame : Nat × Bytes) :
    (frameSegments mss ci isC2s frame).flatMap OutPkt.payload = frame.2 := by
  rw [frameSegments, List.flatMap_map]
  show (chunks mss frame.2).flatMap id = _
  rw [List.flatMap_id, chunks_flatten]

/-- The segments of frames, numbered one after the other, do not overlap. -/
theorem separate_frame_segments {frames : List (Nat × Bytes)}
    (h : ∀ f ∈ frames, f.2 ≠ []) (n : Nat) :
    Separate OutPkt.sortKey
      (OutPkt.numberBlocks n (frames.map (frameSegments mss ci isC2s))) := by
  have hmem : ∀ {n : Nat} {f : Nat × Bytes} {p : OutPkt},
      p ∈ OutPkt.number n (frameSegments mss ci isC2s f) → p.ts = f.1 ∧ p.phase = 1 ∧ p.conn = ci ∧
        n ≤ p.seqInConn ∧ p.seqInConn < n + (frameSegments mss ci isC2s f).length := by
    intro n f p hp
    obtain ⟨q, hq, heq, hle, hlt⟩ := OutPkt.mem_number hp
    obtain ⟨chunk, -, rfl⟩ := List.mem_map.mp hq
    rw [heq]
    exact ⟨rfl, rfl, rfl, hle, hlt⟩
  have hlt : ∀ {p q : OutPkt}, p.phase = 1 → q.phase = 1 → p.conn = ci → q.conn = ci →
      (p.ts < q.ts ∨ p.ts = q.ts ∧ p.seqInConn < q.seqInConn) → p.sortKey < q.sortKey := by
    intro p q hp hq hpc hqc hcmp
    simp only [OutPkt.sortKey, Prod.Lex.toLex_lt_toLex, hp, hq, hpc, hqc, lt_irrefl, false_or,
      true_and]
    exact hcmp
  -- the blocks after the first `n` packets have numbers from `n` on
  have hfrom : ∀ (frames : List (Nat × Bytes)) (n : Nat),
      ∀ b ∈ OutPkt.numberBlocks n (frames.map (frameSegments mss ci isC2s)),
        ∃ f ∈ frames, ∃ m, n ≤ m ∧ b = OutPkt.number m (frameSegments mss ci isC2s f) := by
    intro frames
    induction frames with
    | nil => intro n b hb; cases hb
    | cons f frames ih =>
        intro n b hb
        rw [List.map_cons, OutPkt.numberBlocks] at hb
        rcases List.mem_cons.mp hb with rfl | hb
        · exact ⟨f, List.mem_cons_self, n, le_refl n, rfl⟩
        · obtain ⟨f', hf', m, hm, rfl⟩ := ih _ b hb
          exact ⟨f', List.mem_cons_of_mem _ hf', m, by omega, rfl⟩
  refine ⟨fun b hb => ?_, ?_, fun b hb => ?_⟩
  · obtain ⟨f, -, m, -, rfl⟩ := hfrom frames n b hb
    refine List.Pairwise.imp_of_mem ?_ (OutPkt.number_pairwise m _)
    intro p q hp hq hseq
    obtain ⟨hpts, hpphase, hpconn, -, -⟩ := hmem hp
    obtain ⟨hqts, hqphase, hqconn, -, -⟩ := hmem hq
    exact hlt hpphase hqphase hpconn hqconn (Or.inr ⟨hpts.trans hqts.symm, hseq⟩)
  · induction frames generalizing n with
    | nil => exact List.Pairwise.nil
    | cons f frames ih =>
        rw [List.map_cons, OutPkt.numberBlocks, List.pairwise_cons]
        refine ⟨fun b hb => ?_, ih (fun f' hf' => h f' (List.mem_cons_of_mem _ hf')) _⟩
        obtain ⟨f', -, m, hm, rfl⟩ := hfrom frames _ b hb
        rcases le_or_gt f.1 f'.1 with hle | hgt
        · refine Or.inl fun p hp q hq => ?_
          obtain ⟨hpts, hpphase, hpconn, -, hpseq⟩ := hmem hp
          obtain ⟨hqts, hqphase, hqconn, hqseq, -⟩ := hmem hq
          refine hlt hpphase hqphase hpconn hqconn ?_
          rcases hle.lt_or_eq with hlt' | heq
          · exact Or.inl (by rw [hpts, hqts]; exact hlt')
          · exact Or.inr ⟨by rw [hpts, hqts, heq], by omega⟩
        · refine Or.inr fun q hq p hp => ?_
          obtain ⟨hpts, hpphase, hpconn, -, -⟩ := hmem hp
          obtain ⟨hqts, hqphase, hqconn, -, -⟩ := hmem hq
          exact hlt hqphase hpphase hqconn hpconn (Or.inl (by rw [hpts, hqts]; exact hgt))
  · obtain ⟨f, hf, m, -, rfl⟩ := hfrom frames n b hb
    have hchunks := chunks_ne_nil mss (h f hf)
    rw [OutPkt.number, Ne, List.map_eq_nil_iff, List.zipIdx_eq_nil_iff, frameSegments,
      List.map_eq_nil_iff]
    exact hchunks

/-- Whether a packet carries data of a direction. -/
def isData (isC2s : Bool) (p : OutPkt) : Bool := p.phase == 1 && p.isC2s == isC2s

/-- The packets of a connection that carry data of a direction. -/
theorem filter_packets (cs : ConnState) :
    ∃ n, (packets mss ci cs).filter (isData isC2s) =
      OutPkt.number n (segments mss ci cs isC2s) := by
  have hhandshake : ∀ n, (OutPkt.number n (cs.handshake ci)).filter (isData isC2s) = [] := by
    intro n
    exact OutPkt.filter_number_none n (by simp [handshake, isData])
  have hclosing : ∀ n, (OutPkt.number n (cs.closing ci)).filter (isData isC2s) = [] := by
    intro n
    exact OutPkt.filter_number_none n (by simp [closing, isData])
  have hsegments : ∀ n side, (OutPkt.number n (segments mss ci cs side)).filter (isData isC2s) =
      if side == isC2s then OutPkt.number n (segments mss ci cs side) else [] := by
    intro n side
    refine OutPkt.filter_number n fun q hq i => ?_
    obtain ⟨f, -, hf⟩ := List.mem_flatMap.mp hq
    obtain ⟨chunk, -, rfl⟩ := List.mem_map.mp hf
    simp [isData]
  rw [packets]
  simp only [OutPkt.number_append, List.filter_append, hhandshake, hclosing, hsegments,
    List.nil_append, List.append_nil]
  cases isC2s with
  | true => exact ⟨(cs.handshake ci).length, by simp⟩
  | false => exact ⟨(cs.handshake ci).length + (segments mss ci cs true).length, by simp⟩

/-- All packets of a connection have its number, and those that carry no data are empty. -/
theorem packets_facts (cs : ConnState) {p : OutPkt} (hp : p ∈ packets mss ci cs) :
    p.conn = ci ∧ (p.phase ≠ 1 → p.payload = []) ∧
      (p.flags = TcpFlags.syn → p = ⟨cs.firstTs, 0, ci, p.seqInConn, true, TcpFlags.syn, []⟩) := by
  obtain ⟨q, hq, heq, -⟩ := OutPkt.mem_number hp
  rw [heq]
  have hdata : ∀ {side : Bool}, q ∈ segments mss ci cs side → q.conn = ci ∧ q.phase = 1 ∧
      q.flags = TcpFlags.psh ||| TcpFlags.ack := by
    intro side hmem
    obtain ⟨f, -, hf⟩ := List.mem_flatMap.mp hmem
    obtain ⟨chunk, -, rfl⟩ := List.mem_map.mp hf
    exact ⟨rfl, rfl, rfl⟩
  have hothers : TcpFlags.syn ||| TcpFlags.ack ≠ TcpFlags.syn ∧ TcpFlags.ack ≠ TcpFlags.syn ∧
      TcpFlags.fin ||| TcpFlags.ack ≠ TcpFlags.syn := by decide
  simp only [List.mem_append] at hq
  rcases hq with ((hq | hq) | hq) | hq
  · simp only [handshake, List.mem_cons, List.not_mem_nil, or_false] at hq
    rcases hq with rfl | rfl | rfl
    · exact ⟨rfl, fun _ => rfl, fun _ => rfl⟩
    · exact ⟨rfl, fun _ => rfl, fun hflags => absurd hflags hothers.1⟩
    · exact ⟨rfl, fun _ => rfl, fun hflags => absurd hflags hothers.2.1⟩
  · obtain ⟨hconn, hphase, hflags⟩ := hdata hq
    exact ⟨hconn, fun hne => absurd hphase hne,
      fun hsyn => absurd (hflags.symm.trans hsyn) (by decide)⟩
  · obtain ⟨hconn, hphase, hflags⟩ := hdata hq
    exact ⟨hconn, fun hne => absurd hphase hne,
      fun hsyn => absurd (hflags.symm.trans hsyn) (by decide)⟩
  · simp only [closing, List.mem_cons, List.not_mem_nil, or_false] at hq
    rcases hq with rfl | rfl
    · exact ⟨rfl, fun _ => rfl, fun hflags => absurd hflags hothers.2.2⟩
    · exact ⟨rfl, fun _ => rfl, fun hflags => absurd hflags hothers.2.2⟩

end ConnState

/-- The connections have different numbers, all in range. -/
structure Numbered (taken : List Taken) : Prop where
  nodup : (taken.map Taken.conn).Nodup
  inRange : ∀ t ∈ taken, taken[t.conn]? = some t

/-- What is selected of the packets of one connection among those of all. -/
theorem filter_conn {mss : Nat} {taken : List Taken} (h : (taken.map Taken.conn).Nodup) {t : Taken}
    (ht : t ∈ taken) (sel : OutPkt → Bool) :
    (taken.flatMap fun t => t.state.packets mss t.conn).filter
        (fun p => p.conn == t.conn && sel p) =
      (t.state.packets mss t.conn).filter sel := by
  have hone : ∀ t' : Taken, (t'.state.packets mss t'.conn).filter
      (fun p => p.conn == t.conn && sel p) =
        if t'.conn = t.conn then (t'.state.packets mss t'.conn).filter sel else [] := by
    intro t'
    split
    · next heq =>
        refine List.filter_congr fun p hp => ?_
        rw [(ConnState.packets_facts mss t'.conn t'.state hp).1, heq]
        simp
    · next hne =>
        refine List.filter_eq_nil_iff.mpr fun p hp => ?_
        rw [(ConnState.packets_facts mss t'.conn t'.state hp).1]
        simp [hne]
  rw [List.filter_flatMap]
  simp only [hone]
  induction taken with
  | nil => cases ht
  | cons t' taken ih =>
      obtain ⟨hfresh, hnodup⟩ := List.nodup_cons.mp h
      rw [List.flatMap_cons]
      rcases List.mem_cons.mp ht with rfl | ht
      · have hrest : (taken.flatMap fun t' =>
            if t'.conn = t.conn then (t'.state.packets mss t'.conn).filter sel else []) = [] := by
          refine List.flatMap_eq_nil_iff.mpr fun t' ht' => if_neg fun heq => hfresh ?_
          exact heq ▸ List.mem_map_of_mem ht'
        rw [hrest, if_pos rfl, List.append_nil]
      · have hne : t'.conn ≠ t.conn := fun heq => hfresh (heq ▸ List.mem_map_of_mem ht)
        rw [if_neg hne, List.nil_append, ih hnodup ht]

/-- Two selections that differ in what contributes nothing. -/
theorem flat_map_filter_congr {α : Type*} {l : List α} {sel sel' : α → Bool} {f : α → Bytes}
    (h : ∀ x ∈ l, sel x ≠ sel' x → f x = []) : (l.filter sel).flatMap f =
      (l.filter sel').flatMap f := by
  induction l with
  | nil => rfl
  | cons x l ih =>
      have hrest := ih fun y hy => h y (List.mem_cons_of_mem _ hy)
      have hx := h x List.mem_cons_self
      cases hsel : sel x <;> cases hsel' : sel' x <;> simp_all

/-- Each direction of a synthesized connection carries each of its frames once. -/
theorem stream_contains {mss : Nat} {taken : List Taken} (h : Numbered taken) {t : Taken}
    (ht : t ∈ taken) {isC2s : Bool} (hframes : ∀ f ∈ t.state.stream isC2s, f.2 ≠ []) :
    ContainsOnce (streamIn (sortedPackets mss taken) t.conn isC2s)
      ((t.state.stream isC2s).map Prod.snd) := by
  let all := taken.flatMap fun t => t.state.packets mss t.conn
  let sel : OutPkt → Bool := fun p => p.conn == t.conn && ConnState.isData isC2s p
  obtain ⟨n, hpackets⟩ := ConnState.filter_packets mss t.conn isC2s t.state
  let blocks := OutPkt.numberBlocks n
    ((t.state.stream isC2s).map (ConnState.frameSegments mss t.conn isC2s))
  have hblocks : all.filter sel = blocks.flatten := by
    rw [filter_conn h.nodup ht, hpackets, ← OutPkt.number_flatten, ConnState.segments,
      List.flatMap_def]
  obtain ⟨ordered, hperm, hsorted⟩ := sort_filter_blocks OutPkt.sortKey hblocks
    (ConnState.separate_frame_segments mss t.conn isC2s hframes n)
  -- the number of the connection is in range, and what is not data is empty
  have hstream : streamIn (sortedPackets mss taken) t.conn isC2s =
      ordered.flatten.flatMap OutPkt.payload := by
    rw [← hsorted, streamIn, sortedPackets, List.filter_filter]
    refine flat_map_filter_congr fun p hp hdiffer => ?_
    obtain ⟨t', ht', hp⟩ := List.mem_flatMap.mp (List.mem_mergeSort.mp hp)
    refine (ConnState.packets_facts mss t'.conn t'.state hp).2.1 fun hphase => hdiffer ?_
    obtain ⟨hrange, -⟩ := List.getElem?_eq_some_iff.mp (h.inRange t ht)
    simp only [sel, ConnState.isData, hphase, beq_self_eq_true, Bool.true_and]
    by_cases hconn : p.conn = t.conn
    · simp [hconn, hrange]
    · simp [hconn]
  refine ⟨ordered.map fun b => b.flatMap OutPkt.payload, ?_, ?_⟩
  · refine (hperm.map _).trans ?_
    rw [OutPkt.number_blocks_payloads, List.map_map]
    simp only [Function.comp_def, ConnState.frame_segments_payload]
    exact List.Perm.refl _
  · have hflat : ∀ bs : List (List OutPkt), bs.flatten.flatMap OutPkt.payload =
        (bs.map fun b => b.flatMap OutPkt.payload).flatten := by
      intro bs
      induction bs with
      | nil => rfl
      | cons b bs ih => simp only [List.flatten_cons, List.flatMap_append, List.map_cons, ih]
    rw [hstream, hflat]

/-- A connection of the rebuilt capture: its addresses and what it carries. -/
structure Synthesized where
  key : Key
  c2s : Bytes
  s2c : Bytes
  deriving DecidableEq

/-- The connections of the rebuilt capture. Each of them begins with a bare SYN. -/
def synthesized (mss : Nat) (taken : List Taken) : List Synthesized :=
  let pkts := sortedPackets mss taken
  (pkts.filter fun p => p.flags == TcpFlags.syn).filterMap fun p =>
    taken[p.conn]?.map fun t =>
      ⟨keyOf t.c2s.src t.c2s.dst, streamIn pkts p.conn true, streamIn pkts p.conn false⟩

/-- There is one connection for each that was taken out of the table. -/
theorem synthesized_perm (mss : Nat) {taken : List Taken} (h : Numbered taken) :
    (synthesized mss taken).Perm (taken.map fun t =>
      ⟨keyOf t.c2s.src t.c2s.dst, streamIn (sortedPackets mss taken) t.conn true,
        streamIn (sortedPackets mss taken) t.conn false⟩) := by
  let syn : Taken → OutPkt := fun t => ⟨t.state.firstTs, 0, t.conn, 0, true, TcpFlags.syn, []⟩
  -- the packets of a connection begin with its SYN, and no other packet is a bare SYN
  have hone : ∀ t : Taken, (t.state.packets mss t.conn).filter
      (fun p => p.flags == TcpFlags.syn) = [syn t] := by
    intro t
    have hdata : ∀ n side, (OutPkt.number n (ConnState.segments mss t.conn t.state side)).filter
        (fun p => p.flags == TcpFlags.syn) = [] := by
      intro n side
      refine OutPkt.filter_number_none n fun q hq i => ?_
      obtain ⟨f, -, hf⟩ := List.mem_flatMap.mp hq
      obtain ⟨chunk, -, rfl⟩ := List.mem_map.mp hf
      rfl
    have hclosing : ∀ n, (OutPkt.number n (t.state.closing t.conn)).filter
        (fun p => p.flags == TcpFlags.syn) = [] := by
      intro n
      refine OutPkt.filter_number_none n fun q hq i => ?_
      simp only [ConnState.closing, List.mem_cons, List.not_mem_nil, or_false] at hq
      rcases hq with rfl | rfl <;> rfl
    rw [ConnState.packets]
    simp only [OutPkt.number_append, List.filter_append, hdata, hclosing, List.append_nil]
    rfl
  have hsyns : ((sortedPackets mss taken).filter fun p => p.flags == TcpFlags.syn).Perm
      (taken.map syn) := by
    rw [sortedPackets]
    refine (((List.mergeSort_perm _ _).filter _).filter _).trans (List.Perm.of_eq ?_)
    have hrange : ∀ p ∈ taken.flatMap fun t => t.state.packets mss t.conn,
        decide (p.conn < taken.length) = true := by
      intro p hp
      obtain ⟨t, ht, hp⟩ := List.mem_flatMap.mp hp
      rw [(ConnState.packets_facts mss t.conn t.state hp).1]
      exact decide_eq_true (List.getElem?_eq_some_iff.mp (h.inRange t ht)).1
    rw [List.filter_eq_self.mpr hrange, List.filter_flatMap]
    simp only [hone]
    exact List.map_eq_flatMap.symm
  refine (hsyns.filterMap _).trans ?_
  rw [List.filterMap_map]
  refine List.Perm.of_eq ?_
  rw [← List.filterMap_eq_map]
  refine List.filterMap_congr fun t ht => ?_
  simp only [Function.comp_def, syn, h.inRange t ht, Option.map_some]

end H2Tap
