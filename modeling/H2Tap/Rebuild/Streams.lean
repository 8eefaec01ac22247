import H2Tap.Lib.Run
import H2Tap.Reassembly
import H2Tap.Rebuild.ReadBack
import H2Tap.Rebuild.Synthesis

/-!
# Reading a direction of the rebuilt capture

The segments between two addresses are taken from a capture in file order and handed to one
reassembler. `CarriesExactly` says that they form one stream, from the SYN to the FIN, of just these
bytes. What `write_pcap` emits for a direction carries them exactly if its packets do
(`carries_exactly_arrivals_iff`): all of them fit, the SYN comes first and the FIN last.
-/

namespace H2Tap

open Lib

/-! ## Reading -/

/-- The segments from `src` to `dst` in a capture, in file order, with their times. -/
def segmentsBetween (src dst : SocketAddr) (pcap : List Packet) : List (Nat × TcpSegment) :=
  pcap.filterMap fun packet =>
    ((Pkt.parseEthernet packet.2).filter fun seg => seg.src == src && seg.dst == dst).map
      fun seg => (packet.1, seg.toTcpSegment)

/-- Hand a segment to the reassembler of its direction; true if a gap was declared. -/
def Reassembler.read (r : Reassembler) (s : Nat × TcpSegment) : Reassembler × Bool :=
  (if s.2.has TcpFlags.syn then r.noteSyn s.2.seq else r).push s.2.seq s.2.payload s.1

/-- Where the next segment starts. A SYN and a FIN take up a sequence number. -/
def TcpSegment.endSeq (seg : TcpSegment) : Seq :=
  seg.seq + BitVec.ofNat 32 (seg.payload.length +
    (decide (seg.flags &&& (TcpFlags.syn ||| TcpFlags.fin) ≠ 0)).toNat)

/-- The SYN comes first and the FIN last. -/
structure SynToFin (flags : List UInt8) : Prop where
  synFirst : ∃ f rest, flags = f :: rest ∧ f &&& TcpFlags.syn ≠ 0 ∧
    ∀ g ∈ rest, g &&& TcpFlags.syn = 0
  finLast : ∃ front f, flags = front ++ [f] ∧ f &&& TcpFlags.fin ≠ 0 ∧
    ∀ g ∈ front, g &&& TcpFlags.fin = 0

/-- The segments form one stream: from the SYN to the FIN, without overlaps or holes, and without a
byte on or after the FIN. -/
structure OneStream (segs : List TcpSegment) : Prop where
  synToFin : SynToFin (segs.map TcpSegment.flags)
  finEmpty : ∀ s ∈ segs, s.flags &&& TcpFlags.fin ≠ 0 → s.payload = []
  contiguous : segs.IsChain fun s t => s.endSeq = t.seq

/-- The segments form one stream, of which a reassembler delivers exactly `bytes`. -/
structure CarriesExactly (segs : List (Nat × TcpSegment)) (bytes : Bytes) : Prop where
  oneStream : OneStream (segs.map Prod.snd)
  delivered : (run Reassembler.read .new segs).1.available = bytes
  nothingHeld : (run Reassembler.read .new segs).1.ooo = []
  noGap : ∀ gap ∈ (run Reassembler.read .new segs).2, gap = false

/-! ## Contiguous segments -/

/-- A segment without SYN and FIN is followed by the byte after its payload. -/
theorem end_seq_of_plain {seg : TcpSegment} (hsyn : seg.flags &&& TcpFlags.syn = 0)
    (hfin : seg.flags &&& TcpFlags.fin = 0) :
    seg.endSeq = seg.seq + BitVec.ofNat 32 seg.payload.length := by
  have hneither : seg.flags &&& (TcpFlags.syn ||| TcpFlags.fin) = 0 := by
    have hdistrib : seg.flags &&& (TcpFlags.syn ||| TcpFlags.fin) =
        (seg.flags &&& TcpFlags.syn) ||| (seg.flags &&& TcpFlags.fin) :=
      UInt8.toBitVec_inj.mp BitVec.and_or_distrib_left
    rw [hdistrib, hsyn, hfin]
    rfl
  rw [TcpSegment.endSeq, hneither]
  rfl

/-- The SYN takes up a sequence number of its own. -/
theorem end_seq_of_syn {seg : TcpSegment} (hsyn : seg.flags &&& TcpFlags.syn ≠ 0)
    (hempty : seg.payload = []) : seg.endSeq = seg.seq + 1 := by
  have hcounts : seg.flags &&& (TcpFlags.syn ||| TcpFlags.fin) ≠ 0 := by
    intro hzero
    refine hsyn ?_
    calc seg.flags &&& TcpFlags.syn
        = seg.flags &&& (TcpFlags.syn ||| TcpFlags.fin) &&& TcpFlags.syn := by
          rw [UInt8.and_assoc]
          rfl
      _ = 0 := by
          rw [hzero]
          rfl
  rw [TcpSegment.endSeq, hempty, decide_eq_true hcounts]
  rfl

/-- Segments that follow the bytes received so far, a FIN at most at the end, are delivered. -/
theorem read_contiguous {base : Seq} {segs : List (Nat × TcpSegment)}
    (hsyn : ∀ s ∈ segs, s.2.flags &&& TcpFlags.syn = 0)
    (hfin : ∀ s ∈ segs.dropLast, s.2.flags &&& TcpFlags.fin = 0)
    (hchain : (segs.map Prod.snd).IsChain fun s t => s.endSeq = t.seq) {r : Reassembler} {k : Nat}
    (hr : r.InOrder base k) (hstart : ∀ s ∈ segs.head?, s.2.seq = base + BitVec.ofNat 32 k) :
    (run Reassembler.read r segs).1.available =
        r.available ++ (segs.flatMap fun s => s.2.payload) ∧
      (run Reassembler.read r segs).1.ooo = [] ∧
      ∀ gap ∈ (run Reassembler.read r segs).2, gap = false := by
  induction segs generalizing r k with
  | nil => exact ⟨by simp, hr.ooo, by simp⟩
  | cons s segs ih =>
      have hread : r.read s = r.push (base + BitVec.ofNat 32 k) s.2.payload s.1 := by
        have hnosyn : s.2.has TcpFlags.syn = false := by
          rw [TcpSegment.has, hsyn s List.mem_cons_self]
          rfl
        rw [Reassembler.read, hnosyn, hstart s rfl]
        rfl
      obtain ⟨hgap, havailable, hinorder⟩ := Reassembler.push_in_order hr s.2.payload s.1
      rw [← hread] at hgap havailable hinorder
      have hnext : ∀ t ∈ segs.head?,
          t.2.seq = base + BitVec.ofNat 32 (k + s.2.payload.length) := by
        intro t ht
        obtain ⟨rest, rfl⟩ := List.head?_eq_some_iff.mp ht
        have hplain := end_seq_of_plain (hsyn s List.mem_cons_self)
          (hfin s (by simp))
        rw [← (List.isChain_cons_cons.mp hchain).1, hplain, hstart s rfl, BitVec.add_assoc,
          ← BitVec.ofNat_add]
      have hfin' : ∀ t ∈ segs.dropLast, t.2.flags &&& TcpFlags.fin = 0 := by
        intro t ht
        cases segs with
        | nil => cases ht
        | cons u segs =>
            exact hfin t (by
              rw [List.dropLast_cons_cons]
              exact List.mem_cons_of_mem _ ht)
      obtain ⟨havailable', hooo, hgaps⟩ := ih (fun t ht => hsyn t (List.mem_cons_of_mem _ ht)) hfin'
        hchain.tail hinorder hnext
      simp only [run]
      refine ⟨?_, hooo, List.forall_mem_cons.mpr ⟨hgap, hgaps⟩⟩
      rw [havailable', havailable, List.flatMap_cons, List.append_assoc]

/-- Only the last segment of a stream has a FIN. -/
theorem SynToFin.fin_of_dropLast {α : Type*} {flags : α → UInt8} {l : List α}
    (h : SynToFin (l.map flags)) : ∀ x ∈ l.dropLast, flags x &&& TcpFlags.fin = 0 := by
  obtain ⟨front, f, heq, -, hfront⟩ := h.finLast
  intro x hx
  refine hfront _ ?_
  have hdrop : (l.map flags).dropLast = front := by rw [heq, List.dropLast_concat]
  rw [← hdrop, ← List.map_dropLast]
  exact List.mem_map_of_mem hx

/-- One stream is delivered: the reassembler has all payloads and holds nothing. -/
theorem OneStream.read {segs : List (Nat × TcpSegment)} (h : OneStream (segs.map Prod.snd))
    (hsynEmpty : ∀ s ∈ segs, s.2.flags &&& TcpFlags.syn ≠ 0 → s.2.payload = []) :
    (run Reassembler.read .new segs).1.available = (segs.flatMap fun s => s.2.payload) ∧
      (run Reassembler.read .new segs).1.ooo = [] ∧
      ∀ gap ∈ (run Reassembler.read .new segs).2, gap = false := by
  have hflags : SynToFin (segs.map fun s => s.2.flags) := by
    have hmap := h.synToFin
    rwa [List.map_map] at hmap
  obtain ⟨f, restFlags, heq, hf, hrest⟩ := hflags.synFirst
  obtain ⟨s, segs, rfl, rfl, rfl⟩ := List.map_eq_cons_iff.mp heq
  rw [List.forall_mem_map] at hrest
  have hempty : s.2.payload = [] := hsynEmpty s List.mem_cons_self hf
  have hread : Reassembler.new.read s = (Reassembler.new.noteSyn s.2.seq, false) := by
    have hsyn : s.2.has TcpFlags.syn = true := by
      rw [TcpSegment.has, bne_iff_ne]
      exact hf
    rw [Reassembler.read, hsyn, hempty]
    rfl
  have hstart : ∀ t ∈ segs.head?, t.2.seq = s.2.seq + 1 + BitVec.ofNat 32 0 := by
    intro t ht
    obtain ⟨rest, rfl⟩ := List.head?_eq_some_iff.mp ht
    rw [← (List.isChain_cons_cons.mp h.contiguous).1, end_seq_of_syn hf hempty]
    exact (BitVec.add_zero _).symm
  have hfin : ∀ t ∈ segs.dropLast, t.2.flags &&& TcpFlags.fin = 0 := by
    intro t ht
    cases segs with
    | nil => cases ht
    | cons u segs =>
        exact hflags.fin_of_dropLast t (by
          rw [List.dropLast_cons_cons]
          exact List.mem_cons_of_mem _ ht)
  obtain ⟨havailable, hooo, hgaps⟩ := read_contiguous hrest hfin h.contiguous.tail
    (Reassembler.in_order_note_syn s.2.seq) hstart
  simp only [run, hread]
  refine ⟨?_, hooo, List.forall_mem_cons.mpr ⟨rfl, hgaps⟩⟩
  rw [havailable, List.flatMap_cons, hempty]
  rfl

/-! ## What arrives of the packets that are emitted -/

namespace OutPkt

/-- How far a packet moves the sequence number. -/
def consumed (p : OutPkt) : Nat :=
  p.payload.length + (decide (p.flags &&& (TcpFlags.syn ||| TcpFlags.fin) ≠ 0)).toNat

/-- The length of the packet fits the header of its IP version. -/
def Fits (ip : IpAddr) (p : OutPkt) : Prop := Pkt.overhead ip + p.payload.length < 2 ^ 16

instance (ip : IpAddr) (p : OutPkt) : Decidable (p.Fits ip) :=
  inferInstanceAs (Decidable (_ < _))

/-- What a reader gets of a packet that is emitted with a sequence number. -/
def arrival (ip : IpAddr) (seq : Seq) (p : OutPkt) : Option (Nat × TcpSegment) :=
  if Pkt.wrappedLen ip p.payload < Pkt.overhead ip then none
  else some (p.ts, ⟨seq, p.flags,
    p.payload.take (Pkt.wrappedLen ip p.payload - Pkt.overhead ip)⟩)

/-- What a reader gets of the packets of a direction. -/
def arrivals (ip : IpAddr) : Seq → List OutPkt → List (Nat × TcpSegment)
  | _, [] => []
  | seq, p :: pkts =>
      (p.arrival ip seq).toList ++ arrivals ip (seq + BitVec.ofNat 32 p.consumed) pkts

end OutPkt

namespace Taken

/-- The endpoint that sends a direction. -/
def endpoint (t : Taken) (isC2s : Bool) : Pkt.Endpoint := if isC2s then t.c2s else t.s2c

end Taken

/-- Only one direction of one connection lies between the addresses. -/
def OnlyBetween (taken : List Taken) (src dst : SocketAddr) (ci : Nat) (isC2s : Bool) : Prop :=
  ∀ (ci' : Nat) (t : Taken) (isC2s' : Bool), taken[ci']? = some t →
    (t.endpoint isC2s').src = src → (t.endpoint isC2s').dst = dst → ci' = ci ∧ isC2s' = isC2s

/-- A packet of a connection that was taken is emitted at its sequence number. -/
theorem emit_of_taken {taken : List Taken} {p : OutPkt} {t : Taken} (ht : taken[p.conn]? = some t)
    (e : Emitter) :
    ∃ ack ipId, (e.emit taken p).2 = some (p.ts, Pkt.buildTcpPacket (t.endpoint p.isC2s)
        (e.nextSeq p.conn p.isC2s) ack p.flags 65535 ipId p.payload) ∧
      (e.emit taken p).1.nextSeq = Function.update e.nextSeq p.conn
        (Function.update (e.nextSeq p.conn) p.isC2s
          (e.nextSeq p.conn p.isC2s + BitVec.ofNat 32 p.consumed)) := by
  rw [Emitter.emit, ht]
  exact ⟨_, _, rfl, rfl⟩

/-- A packet on its own, read by its addresses. -/
theorem segments_between_packet {src dst : SocketAddr} {ep : Pkt.Endpoint}
    (hversion : ep.SameVersion) (seq ack : Seq) (p : OutPkt) (window ipId : UInt16)
    (rest : List Packet) :
    segmentsBetween src dst
        ((p.ts, Pkt.buildTcpPacket ep seq ack p.flags window ipId p.payload) :: rest) =
      (if ep.src = src ∧ ep.dst = dst then (p.arrival ep.src.ip seq).toList else []) ++
        segmentsBetween src dst rest := by
  have hhead : ((Pkt.parseEthernet (Pkt.buildTcpPacket ep seq ack p.flags window ipId
      p.payload)).filter fun seg => seg.src == src && seg.dst == dst).map
        (fun seg => (p.ts, seg.toTcpSegment)) =
      if ep.src = src ∧ ep.dst = dst then p.arrival ep.src.ip seq else none := by
    rw [Pkt.parse_ethernet_build hversion, OutPkt.arrival]
    split
    · simp
    · by_cases haddr : ep.src = src ∧ ep.dst = dst
      · simp [Option.filter, Pkt.Endpoint.segment, haddr]
      · simp [Option.filter, Pkt.Endpoint.segment, haddr]
  rw [segmentsBetween, List.filterMap_cons, hhead]
  by_cases haddr : ep.src = src ∧ ep.dst = dst
  · rw [if_pos haddr, if_pos haddr]
    cases p.arrival ep.src.ip seq <;> rfl
  · rw [if_neg haddr, if_neg haddr]
    rfl

/-- The segments of a direction in what is emitted. -/
theorem segments_between_emitted {taken : List Taken}
    (hversion : ∀ t ∈ taken, ∀ isC2s, (t.endpoint isC2s).SameVersion) {ci : Nat} {t : Taken}
    (ht : taken[ci]? = some t) {isC2s : Bool}
    (honly : OnlyBetween taken (t.endpoint isC2s).src (t.endpoint isC2s).dst ci isC2s)
    (pkts : List OutPkt) (e : Emitter) :
    segmentsBetween (t.endpoint isC2s).src (t.endpoint isC2s).dst
        (run (Emitter.emit taken) e pkts).2.reduceOption =
      OutPkt.arrivals (t.endpoint isC2s).src.ip (e.nextSeq ci isC2s)
        (pkts.filter fun p => p.conn == ci && p.isC2s == isC2s) := by
  induction pkts generalizing e with
  | nil => rfl
  | cons p pkts ih =>
      simp only [run]
      cases htaken : taken[p.conn]? with
      | none =>
          have hemit : e.emit taken p = (e, none) := by rw [Emitter.emit, htaken]
          have hne : p.conn ≠ ci := by
            intro heq
            rw [heq, ht] at htaken
            cases htaken
          rw [hemit, List.reduceOption_cons_of_none, ih, List.filter_cons_of_neg (by simp [hne])]
      | some t' =>
          obtain ⟨ack, ipId, hpacket, hnext⟩ := emit_of_taken htaken e
          rw [hpacket, List.reduceOption_cons_of_some,
            segments_between_packet (hversion t' (List.mem_of_getElem? htaken) p.isC2s), ih, hnext]
          by_cases hown : p.conn = ci ∧ p.isC2s = isC2s
          · obtain ⟨rfl, rfl⟩ := hown
            obtain rfl : t' = t := Option.some.inj (htaken.symm.trans ht)
            rw [if_pos ⟨rfl, rfl⟩, List.filter_cons_of_pos (by simp), OutPkt.arrivals,
              Function.update_self, Function.update_self]
          · have haddr : ¬((t'.endpoint p.isC2s).src = (t.endpoint isC2s).src ∧
                (t'.endpoint p.isC2s).dst = (t.endpoint isC2s).dst) :=
              fun haddr => hown (honly _ _ _ htaken haddr.1 haddr.2)
            have hother : Function.update e.nextSeq p.conn
                (Function.update (e.nextSeq p.conn) p.isC2s
                  (e.nextSeq p.conn p.isC2s + BitVec.ofNat 32 p.consumed)) ci isC2s =
                e.nextSeq ci isC2s := by
              by_cases hconn : ci = p.conn
              · subst hconn
                rw [Function.update_self, Function.update_of_ne fun heq => hown ⟨rfl, heq.symm⟩]
              · rw [Function.update_of_ne hconn]
            rw [if_neg haddr, List.nil_append, hother,
              List.filter_cons_of_neg (by simpa using hown)]

/-- Every packet without a payload that is sent between the addresses can be counted in what is
emitted. -/
theorem count_emitted {taken : List Taken}
    (hversion : ∀ t ∈ taken, ∀ isC2s, (t.endpoint isC2s).SameVersion) {src dst : SocketAddr}
    {sel : OutPkt → Bool} (hsel : ∀ p t, sel p = true → taken[p.conn]? = some t →
      p.payload = [] ∧ p.flags &&& TcpFlags.syn ≠ 0 ∧ (t.endpoint p.isC2s).src = src ∧
        (t.endpoint p.isC2s).dst = dst) {pkts : List OutPkt}
    (hrange : ∀ p ∈ pkts, p.conn < taken.length) (e : Emitter) :
    pkts.countP sel ≤ (segmentsBetween src dst
      (run (Emitter.emit taken) e pkts).2.reduceOption).countP
        fun s => s.2.flags &&& TcpFlags.syn != 0 := by
  induction pkts generalizing e with
  | nil => exact Nat.zero_le _
  | cons p pkts ih =>
      obtain ⟨hp, hpkts⟩ := List.forall_mem_cons.mp hrange
      obtain ⟨t, ht⟩ : ∃ t, taken[p.conn]? = some t := ⟨_, List.getElem?_eq_getElem hp⟩
      obtain ⟨ack, ipId, hpacket, -⟩ := emit_of_taken ht e
      have hrest := ih hpkts (e.emit taken p).1
      simp only [run]
      rw [hpacket, List.reduceOption_cons_of_some,
        segments_between_packet (hversion t (List.mem_of_getElem? ht) p.isC2s), List.countP_append,
        List.countP_cons]
      by_cases hp : sel p = true
      · obtain ⟨hempty, hsyn, hsrc, hdst⟩ := hsel p t hp ht
        have harrival : p.arrival (t.endpoint p.isC2s).src.ip (e.nextSeq p.conn p.isC2s) =
            some (p.ts, ⟨e.nextSeq p.conn p.isC2s, p.flags, []⟩) := by
          rw [OutPkt.arrival, hempty]
          cases (t.endpoint p.isC2s).src.ip <;> rfl
        rw [if_pos hp, if_pos ⟨hsrc, hdst⟩, harrival]
        have hone : ([(p.ts, (⟨e.nextSeq p.conn p.isC2s, p.flags, []⟩ : TcpSegment))]).countP
            (fun s => s.2.flags &&& TcpFlags.syn != 0) = 1 := by
          rw [List.countP_singleton, if_pos (bne_iff_ne.mpr hsyn)]
        rw [Option.toList_some, hone]
        omega
      · rw [if_neg hp]
        omega

/-- In one stream there is one SYN. -/
theorem SynToFin.count_syn {α : Type*} {flags : α → UInt8} {l : List α}
    (h : SynToFin (l.map flags)) : l.countP (fun x => flags x &&& TcpFlags.syn != 0) = 1 := by
  obtain ⟨f, rest, heq, hf, hrest⟩ := h.synFirst
  obtain ⟨x, l, rfl, rfl, rfl⟩ := List.map_eq_cons_iff.mp heq
  rw [List.forall_mem_map] at hrest
  have hnone : l.countP (fun x => flags x &&& TcpFlags.syn != 0) = 0 := by
    refine List.countP_eq_zero.mpr fun y hy => ?_
    rw [hrest y hy]
    exact Bool.noConfusion
  rw [List.countP_cons, hnone, if_pos (bne_iff_ne.mpr hf)]

/-! ## What the packets of a direction have to be -/

namespace OutPkt

variable {ip : IpAddr}

theorem arrival_of_fits {p : OutPkt} (h : p.Fits ip) (seq : Seq) :
    p.arrival ip seq = some (p.ts, ⟨seq, p.flags, p.payload⟩) := by
  rw [arrival, Pkt.wrapped_len_of_fits h, if_neg (by omega), Nat.add_sub_cancel_left,
    List.take_length]

/-- Of a packet that does not fit, some bytes never arrive. -/
theorem arrival_short {p : OutPkt} (h : ¬p.Fits ip) (seq : Seq) :
    ((p.arrival ip seq).toList.flatMap fun s => s.2.payload).length < p.payload.length := by
  have hlong : 2 ^ 16 ≤ Pkt.overhead ip + p.payload.length := Nat.le_of_not_lt h
  have hoverhead : Pkt.overhead ip ≤ 40 := by
    cases ip <;> simp only [Pkt.overhead] <;> omega
  have hwrapped : Pkt.wrappedLen ip p.payload < 2 ^ 16 := Nat.mod_lt _ (by decide)
  rw [arrival]
  split
  · simp only [Option.toList_none, List.flatMap_nil, List.length_nil]
    omega
  · simp only [Option.toList_some, List.flatMap_cons, List.flatMap_nil, List.append_nil,
      List.length_take]
    omega

/-- The packets as they arrive when all of them fit. -/
theorem arrivals_of_fits {pkts : List OutPkt} (h : ∀ p ∈ pkts, p.Fits ip) (seq : Seq) :
    ((arrivals ip seq pkts).map fun s => s.2.flags) = pkts.map flags ∧
      ((arrivals ip seq pkts).flatMap fun s => s.2.payload) = pkts.flatMap payload ∧
      ((arrivals ip seq pkts).map Prod.snd).IsChain (fun s t => s.endSeq = t.seq) ∧
      ∀ s ∈ (arrivals ip seq pkts).head?, s.2.seq = seq := by
  induction pkts generalizing seq with
  | nil => exact ⟨rfl, rfl, List.IsChain.nil, by simp [arrivals]⟩
  | cons p pkts ih =>
      obtain ⟨hp, hpkts⟩ := List.forall_mem_cons.mp h
      obtain ⟨hflags, hpayload, hchain, hhead⟩ := ih hpkts (seq + BitVec.ofNat 32 p.consumed)
      have harrivals : arrivals ip seq (p :: pkts) = (p.ts, ⟨seq, p.flags, p.payload⟩) ::
          arrivals ip (seq + BitVec.ofNat 32 p.consumed) pkts := by
        rw [arrivals, arrival_of_fits hp]
        rfl
      rw [harrivals]
      refine ⟨?_, ?_, ?_, ?_⟩
      · rw [List.map_cons, List.map_cons, hflags]
      · rw [List.flatMap_cons, List.flatMap_cons, hpayload]
      · refine List.isChain_cons.mpr ⟨fun t ht => ?_, hchain⟩
        rw [List.head?_map, Option.mem_def, Option.map_eq_some_iff] at ht
        obtain ⟨s, hs, rfl⟩ := ht
        exact (hhead s hs).symm
      · intro s hs
        cases hs
        rfl

/-- Packets of which some do not fit arrive with less than they carry. -/
theorem arrivals_length (seq : Seq) (pkts : List OutPkt) :
    ((arrivals ip seq pkts).flatMap fun s => s.2.payload).length ≤
        (pkts.flatMap payload).length ∧
      (((arrivals ip seq pkts).flatMap fun s => s.2.payload).length =
        (pkts.flatMap payload).length → ∀ p ∈ pkts, p.Fits ip) := by
  induction pkts generalizing seq with
  | nil => exact ⟨le_refl _, fun _ p hp => by cases hp⟩
  | cons p pkts ih =>
      obtain ⟨hle, hall⟩ := ih (seq + BitVec.ofNat 32 p.consumed)
      rw [arrivals, List.flatMap_append, List.flatMap_cons, List.length_append, List.length_append]
      by_cases hfits : p.Fits ip
      · have hsame : (((p.arrival ip seq).toList.flatMap fun s => s.2.payload)).length =
            p.payload.length := by
          rw [arrival_of_fits hfits]
          simp
        rw [hsame]
        refine ⟨by omega, fun heq => List.forall_mem_cons.mpr ⟨hfits, hall (by omega)⟩⟩
      · have hshort := arrival_short hfits seq
        exact ⟨by omega, fun heq => absurd heq (by omega)⟩

/-- Every segment that arrives is one of the packets, as far as it goes. -/
theorem mem_arrivals {seq : Seq} {pkts : List OutPkt} {s : Nat × TcpSegment}
    (h : s ∈ arrivals ip seq pkts) :
    ∃ p ∈ pkts, s.2.flags = p.flags ∧ (p.payload = [] → s.2.payload = []) := by
  induction pkts generalizing seq with
  | nil => cases h
  | cons p pkts ih =>
      rw [arrivals] at h
      rcases List.mem_append.mp h with h | h
      · refine ⟨p, List.mem_cons_self, ?_⟩
        rw [Option.mem_toList, arrival] at h
        split at h
        · cases h
        · cases h
          exact ⟨rfl, fun hpayload => by rw [hpayload, List.take_nil]⟩
      · obtain ⟨q, hq, hflags, hpayload⟩ := ih h
        exact ⟨q, List.mem_cons_of_mem _ hq, hflags, hpayload⟩

end OutPkt

/-- The packets of a direction are carried exactly if all of them fit, the SYN comes first, the FIN
last, and the payloads are the bytes in their order. -/
theorem carries_exactly_arrivals_iff {ip : IpAddr} {pkts : List OutPkt} {bytes : Bytes}
    (hcontrol : ∀ p ∈ pkts,
      p.flags &&& TcpFlags.syn ≠ 0 ∨ p.flags &&& TcpFlags.fin ≠ 0 → p.payload = [])
    (hlength : (pkts.flatMap OutPkt.payload).length = bytes.length) (seq : Seq) :
    CarriesExactly (OutPkt.arrivals ip seq pkts) bytes ↔
      (∀ p ∈ pkts, p.Fits ip) ∧ SynToFin (pkts.map OutPkt.flags) ∧
        pkts.flatMap OutPkt.payload = bytes := by
  have hempty : ∀ s ∈ OutPkt.arrivals ip seq pkts,
      s.2.flags &&& TcpFlags.syn ≠ 0 ∨ s.2.flags &&& TcpFlags.fin ≠ 0 → s.2.payload = [] := by
    intro s hs hflags
    obtain ⟨p, hp, heq, hpayload⟩ := OutPkt.mem_arrivals hs
    exact hpayload (hcontrol p hp (heq ▸ hflags))
  constructor
  · intro h
    obtain ⟨havailable, -⟩ := h.oneStream.read fun s hs hsyn => hempty s hs (Or.inl hsyn)
    have hbytes := havailable.symm.trans h.delivered
    have hfits : ∀ p ∈ pkts, p.Fits ip :=
      (OutPkt.arrivals_length seq pkts).2 ((congrArg List.length hbytes).trans hlength.symm)
    obtain ⟨hflags, hpayload, -⟩ := OutPkt.arrivals_of_fits hfits seq
    refine ⟨hfits, ?_, hpayload.symm.trans hbytes⟩
    have hsyn := h.oneStream.synToFin
    rw [List.map_map] at hsyn
    rwa [← hflags]
  · rintro ⟨hfits, hsynToFin, rfl⟩
    obtain ⟨hflags, hpayload, hchain, -⟩ := OutPkt.arrivals_of_fits hfits seq
    have hone : OneStream ((OutPkt.arrivals ip seq pkts).map Prod.snd) := by
      refine ⟨?_, ?_, hchain⟩
      · rw [List.map_map]
        exact hflags.symm ▸ hsynToFin
      · intro s hs hfin
        obtain ⟨t, ht, rfl⟩ := List.mem_map.mp hs
        exact hempty t ht (Or.inr hfin)
    obtain ⟨havailable, hooo, hgaps⟩ := hone.read fun s hs hsyn => hempty s hs (Or.inl hsyn)
    exact ⟨hone, havailable.trans hpayload, hooo, hgaps⟩

end H2Tap
