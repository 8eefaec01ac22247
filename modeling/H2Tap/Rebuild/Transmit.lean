import H2Tap.Rebuild.FileOrder
import H2Tap.Rebuild.Isolation

/-!
# What the rebuilt capture has of a connection

If all packets of a connection fit, a reader of the rebuilt capture gets exactly its packets, with
sequence numbers that go on from the ISNs (`arrivals_on_emitted`). A capture in which every
connection begins with its only bare SYN opens the connections in the order of the SYNs
(`order_of_syn_first`).
-/

namespace H2Tap

open Lib

namespace Taken

/-- What is sent of packets of a connection, from the next sequence numbers on. -/
def transmit (t : Taken) : (Bool → Seq) → List OutPkt → List (EthSegment × Nat)
  | _, [] => []
  | next, p :: pkts =>
      ((t.endpoint p.isC2s).segment (next p.isC2s)
          (if p.flags &&& TcpFlags.ack ≠ 0 then next (!p.isC2s) else 0) p.flags p.payload, p.ts) ::
        transmit t
          (Function.update next p.isC2s (next p.isC2s + BitVec.ofNat 32 p.consumed)) pkts

/-- The next sequence numbers after packets. -/
def advance (next : Bool → Seq) (pkts : List OutPkt) : Bool → Seq :=
  pkts.foldl (fun next p =>
    Function.update next p.isC2s (next p.isC2s + BitVec.ofNat 32 p.consumed)) next

theorem transmit_append (t : Taken) (next : Bool → Seq) (pkts later : List OutPkt) :
    t.transmit next (pkts ++ later) =
      t.transmit next pkts ++ t.transmit (advance next pkts) later := by
  induction pkts generalizing next with
  | nil => rfl
  | cons p pkts ih =>
      rw [List.cons_append, transmit, transmit, ih]
      rfl

/-- The numbers of the packets do not matter. -/
theorem transmit_unnumbered (t : Taken) (next : Bool → Seq) (pkts : List OutPkt) :
    t.transmit next (pkts.map OutPkt.unnumbered) = t.transmit next pkts := by
  induction pkts generalizing next with
  | nil => rfl
  | cons p pkts ih => exact congrArg₂ List.cons rfl (ih _)

/-- Both endpoints lie between the addresses of the connection. -/
def key (t : Taken) : Key := keyOf t.c2s.src t.c2s.dst

end Taken

/-- The connections that are written lie between different addresses, and each of them has the same
addresses in both directions. -/
structure Separated (taken : List Taken) : Prop where
  version : ∀ t ∈ taken, ∀ isC2s, (t.endpoint isC2s).SameVersion
  keyed : ∀ t ∈ taken, ∀ isC2s, keyOf (t.endpoint isC2s).src (t.endpoint isC2s).dst = t.key
  nodup : (taken.map Taken.key).Nodup

/-- A packet that fits is read as it was sent. -/
theorem parse_of_fits {ep : Pkt.Endpoint} (hversion : ep.SameVersion) {p : OutPkt}
    (hfits : p.Fits ep.src.ip) (seq ack : Seq) (window ipId : UInt16) :
    Pkt.parseEthernet (Pkt.buildTcpPacket ep seq ack p.flags window ipId p.payload) =
      some (ep.segment seq ack p.flags p.payload) := by
  rw [Pkt.parse_ethernet_build hversion, Pkt.wrapped_len_of_fits hfits, if_neg (by omega),
    Nat.add_sub_cancel_left, List.take_length]

/-- Every packet fits the IP version of its sender. -/
def AllFit (taken : List Taken) (pkts : List OutPkt) : Prop :=
  ∀ p ∈ pkts, ∀ t, taken[p.conn]? = some t → p.Fits (t.endpoint p.isC2s).src.ip

/-- What a reader gets of a connection in what is emitted. -/
theorem arrivals_on_emit {taken : List Taken} (h : Separated taken) {ci : Nat} {t : Taken}
    (ht : taken[ci]? = some t) {pkts : List OutPkt} (hfits : AllFit taken pkts) (e : Emitter) :
    arrivalsOn t.key (run (Emitter.emit taken) e pkts).2.reduceOption =
      t.transmit (e.nextSeq ci) (pkts.filter fun p => p.conn == ci) := by
  induction pkts generalizing e with
  | nil => rfl
  | cons p pkts ih =>
      obtain ⟨hp, hpkts⟩ := List.forall_mem_cons.mp hfits
      simp only [run]
      cases htaken : taken[p.conn]? with
      | none =>
          have hemit : e.emit taken p = (e, none) := by rw [Emitter.emit, htaken]
          have hne : p.conn ≠ ci := by
            intro heq
            rw [heq, ht] at htaken
            cases htaken
          rw [hemit, List.reduceOption_cons_of_none, ih hpkts,
            List.filter_cons_of_neg (by simp [hne])]
      | some t' =>
          have hmem : t' ∈ taken := List.mem_of_getElem? htaken
          have hparse := parse_of_fits (h.version t' hmem p.isC2s) (hp t' htaken)
            (e.nextSeq p.conn p.isC2s)
            (if p.flags &&& TcpFlags.ack ≠ 0 then e.nextSeq p.conn (!p.isC2s) else 0) 65535
            (e.ipId p.conn p.isC2s)
          have hemit : (e.emit taken p).2 = some (p.ts, Pkt.buildTcpPacket (t'.endpoint p.isC2s)
              (e.nextSeq p.conn p.isC2s)
              (if p.flags &&& TcpFlags.ack ≠ 0 then e.nextSeq p.conn (!p.isC2s) else 0) p.flags
              65535 (e.ipId p.conn p.isC2s) p.payload) := by
            rw [Emitter.emit, htaken]
            rfl
          have hnext : (e.emit taken p).1.nextSeq = Function.update e.nextSeq p.conn
              (Function.update (e.nextSeq p.conn) p.isC2s
                (e.nextSeq p.conn p.isC2s + BitVec.ofNat 32 p.consumed)) := by
            rw [Emitter.emit, htaken]
            rfl
          have hrest := ih hpkts (e.emit taken p).1
          rw [hemit, List.reduceOption_cons_of_some]
          by_cases hown : p.conn = ci
          · obtain rfl := hown
            obtain rfl : t' = t := Option.some.inj (htaken.symm.trans ht)
            rw [hnext, Function.update_self] at hrest
            have hsegment : segmentOn t'.key (p.ts, Pkt.buildTcpPacket (t'.endpoint p.isC2s)
                (e.nextSeq p.conn p.isC2s)
                (if p.flags &&& TcpFlags.ack ≠ 0 then e.nextSeq p.conn (!p.isC2s) else 0) p.flags
                65535 (e.ipId p.conn p.isC2s) p.payload) =
                some ((t'.endpoint p.isC2s).segment (e.nextSeq p.conn p.isC2s)
                  (if p.flags &&& TcpFlags.ack ≠ 0 then e.nextSeq p.conn (!p.isC2s) else 0) p.flags
                  p.payload) := by
              rw [segmentOn, hparse, Option.filter_some, if_pos]
              exact beq_iff_eq.mpr (h.keyed t' hmem p.isC2s)
            rw [arrivalsOn, List.filterMap_cons_some (by rw [hsegment]; rfl),
              List.filter_cons_of_pos (by simp), Taken.transmit, ← hrest, arrivalsOn]
          · have hkey : t'.key ≠ t.key := by
              intro hsame
              refine hown ?_
              have hplace : (taken.map Taken.key)[p.conn]? = (taken.map Taken.key)[ci]? := by
                rw [List.getElem?_map, List.getElem?_map, htaken, ht, Option.map_some,
                  Option.map_some, hsame]
              obtain ⟨hrange, -⟩ := List.getElem?_eq_some_iff.mp htaken
              exact (List.getElem?_inj (by rwa [List.length_map]) h.nodup).mp hplace
            have hsegment : segmentOn t.key (p.ts, Pkt.buildTcpPacket (t'.endpoint p.isC2s)
                (e.nextSeq p.conn p.isC2s)
                (if p.flags &&& TcpFlags.ack ≠ 0 then e.nextSeq p.conn (!p.isC2s) else 0) p.flags
                65535 (e.ipId p.conn p.isC2s) p.payload) = none := by
              rw [segmentOn, hparse, Option.filter_some, if_neg]
              rw [beq_iff_eq]
              exact fun hsame => hkey ((h.keyed t' hmem p.isC2s).symm.trans hsame)
            rw [hnext, Function.update_of_ne (Ne.symm hown)] at hrest
            rw [arrivalsOn, List.filterMap_cons_none (by rw [hsegment]; rfl),
              List.filter_cons_of_neg (by simpa using hown), ← hrest, arrivalsOn]

/-- What a reader gets of a connection in the rebuilt capture. -/
theorem arrivals_on_emitted {taken : List Taken} (h : Separated taken) {ci : Nat} {t : Taken}
    (ht : taken[ci]? = some t) {mss : Nat} (hfits : AllFit taken (sortedPackets mss taken)) :
    arrivalsOn t.key (emitted mss taken) =
      t.transmit (Emitter.start.nextSeq ci) (connPackets mss taken ci) := by
  rw [connPackets, Taken.transmit_unnumbered, emitted, arrivals_on_emit h ht hfits]

/-- Between other addresses there is nothing. -/
theorem arrivals_on_other {taken : List Taken} (h : Separated taken) {k : Key}
    (hk : k ∉ taken.map Taken.key) {pkts : List OutPkt} (hfits : AllFit taken pkts) (e : Emitter) :
    arrivalsOn k (run (Emitter.emit taken) e pkts).2.reduceOption = [] := by
  induction pkts generalizing e with
  | nil => rfl
  | cons p pkts ih =>
      obtain ⟨hp, hpkts⟩ := List.forall_mem_cons.mp hfits
      have hrest := ih hpkts (e.emit taken p).1
      simp only [run]
      cases htaken : taken[p.conn]? with
      | none =>
          have hemit : (e.emit taken p).2 = none := by rw [Emitter.emit, htaken]
          rw [hemit, List.reduceOption_cons_of_none, hrest]
      | some t =>
          have hmem : t ∈ taken := List.mem_of_getElem? htaken
          obtain ⟨ack, ipId, hpacket, -⟩ := emit_of_taken htaken e
          have hsegment : segmentOn k (p.ts, Pkt.buildTcpPacket (t.endpoint p.isC2s)
              (e.nextSeq p.conn p.isC2s) ack p.flags 65535 ipId p.payload) = none := by
            rw [segmentOn, parse_of_fits (h.version t hmem p.isC2s) (hp t htaken),
              Option.filter_some, if_neg]
            rw [beq_iff_eq]
            rintro rfl
            exact hk ((h.keyed t hmem p.isC2s).symm ▸ List.mem_map_of_mem hmem)
          rw [hpacket, List.reduceOption_cons_of_some, arrivalsOn,
            List.filterMap_cons_none (by rw [hsegment]; rfl), ← hrest, arrivalsOn]

/-! ## In which order connections open -/

/-- The addresses of a packet with a bare SYN. -/
def synKey (packet : Packet) : Option Key :=
  ((Pkt.parseEthernet packet.2).filter fun seg => seg.freshSyn).map fun seg =>
    keyOf seg.src seg.dst

theorem syn_key_of_segment {packet : Packet} {seg : EthSegment}
    (h : Pkt.parseEthernet packet.2 = some seg) :
    synKey packet = if seg.freshSyn then some (keyOf seg.src seg.dst) else none := by
  rw [synKey, h, Option.filter_some]
  cases seg.freshSyn <;> rfl

/-- The addresses of the bare SYNs of a capture, in its order. -/
def synKeys (packets : List Packet) : List Key := packets.filterMap synKey

/-- Every connection of the capture begins with a bare SYN, and has no other. -/
def SynFirst (packets : List Packet) : Prop :=
  ∀ k, ∀ seg segs, segmentsOn k packets = seg :: segs →
    seg.freshSyn = true ∧ ∀ later ∈ segs, later.freshSyn = false

/-- The flags of a bare SYN. -/
def TcpFlags.bareSyn (flags : UInt8) : Bool :=
  flags &&& TcpFlags.syn != 0 && !(flags &&& TcpFlags.ack != 0)

theorem bare_syn_flags : TcpFlags.bareSyn TcpFlags.syn = true ∧
    TcpFlags.bareSyn (TcpFlags.syn ||| TcpFlags.ack) = false ∧
    TcpFlags.bareSyn TcpFlags.ack = false ∧
    TcpFlags.bareSyn (TcpFlags.psh ||| TcpFlags.ack) = false ∧
    TcpFlags.bareSyn (TcpFlags.fin ||| TcpFlags.ack) = false := by decide

/-- A packet with a bare SYN. -/
def OutPkt.isSyn (p : OutPkt) : Bool := TcpFlags.bareSyn p.flags

/-- Of the packets of a connection only the first one has a bare SYN. -/
theorem ConnState.filter_syn (mss ci : Nat) (cs : ConnState) :
    (cs.packets mss ci).filter OutPkt.isSyn = [cs.synPkt ci true] := by
  obtain ⟨hsyn, hsynAck, hack, hdata, hfin⟩ := bare_syn_flags
  have hsegments : ∀ n side,
      (OutPkt.number n (segments mss ci cs side)).filter OutPkt.isSyn = [] := by
    intro n side
    refine OutPkt.filter_number_none n fun q hq i => ?_
    obtain ⟨f, -, hf⟩ := List.mem_flatMap.mp hq
    obtain ⟨chunk, -, rfl⟩ := List.mem_map.mp hf
    exact hdata
  have hclosing : ∀ n, (OutPkt.number n (cs.closing ci)).filter OutPkt.isSyn = [] := by
    intro n
    refine OutPkt.filter_number_none n fun q hq i => ?_
    simp only [closing, List.mem_cons, List.not_mem_nil, or_false] at hq
    rcases hq with rfl | rfl <;> exact hfin
  have hhandshake : (OutPkt.number 0 (cs.handshake ci)).filter OutPkt.isSyn =
      [cs.synPkt ci true] := by
    have hthree : OutPkt.number 0 (cs.handshake ci) = [cs.synPkt ci true,
        ⟨cs.firstTs, 0, ci, 1, false, TcpFlags.syn ||| TcpFlags.ack, []⟩,
        ⟨cs.firstTs, 0, ci, 2, true, TcpFlags.ack, []⟩] := rfl
    have hneg : ∀ p : OutPkt, TcpFlags.bareSyn p.flags = false → ¬ p.isSyn = true := by
      intro p hp
      rw [OutPkt.isSyn, hp]
      exact Bool.false_ne_true
    have hfirst : (cs.synPkt ci true).isSyn = true := hsyn
    rw [hthree, List.filter_cons_of_pos hfirst, List.filter_cons_of_neg (hneg _ hsynAck),
      List.filter_cons_of_neg (hneg _ hack), List.filter_nil]
  rw [packets]
  simp only [OutPkt.number_append, List.filter_append, hsegments, hclosing, hhandshake,
    List.append_nil]

/-- If connections are numbered in the order of their times, so are their SYNs. -/
theorem sorted_syns (mss : Nat) {taken : List Taken} (h : Numbered taken)
    (hsorted : taken.Pairwise fun t u => t.state.firstTs ≤ u.state.firstTs ∧ t.conn < u.conn) :
    (sortedPackets mss taken).filter OutPkt.isSyn =
      taken.map fun t => t.state.synPkt t.conn true := by
  rw [sortedPackets, List.filter_filter]
  refine sort_filter_eq OutPkt.sortKey (List.Perm.of_eq ?_) ?_
  · have hrange : ∀ p ∈ taken.flatMap fun t => t.state.packets mss t.conn,
        (p.isSyn && decide (p.conn < taken.length)) = p.isSyn := by
      intro p hp
      obtain ⟨t, ht, hp⟩ := List.mem_flatMap.mp hp
      have hlt := (List.getElem?_eq_some_iff.mp (h.inRange t ht)).1
      rw [(ConnState.packets_facts mss t.conn t.state hp).1, decide_eq_true hlt, Bool.and_true]
    rw [List.filter_congr hrange, List.filter_flatMap]
    simp only [ConnState.filter_syn]
    exact List.map_eq_flatMap
  · refine List.pairwise_map.mpr (hsorted.imp fun {t u} hlt => ?_)
    rw [OutPkt.sort_key_lt_iff]
    rcases hlt.1.lt_or_eq with hearlier | hsame
    · exact Or.inl hearlier
    · exact Or.inr ⟨hsame, Or.inr ⟨rfl, Or.inl hlt.2⟩⟩

/-- The bare SYNs of what is emitted. -/
theorem syn_keys_emit {taken : List Taken} (h : Separated taken) {pkts : List OutPkt}
    (hfits : AllFit taken pkts) (e : Emitter) :
    synKeys (run (Emitter.emit taken) e pkts).2.reduceOption =
      (pkts.filter OutPkt.isSyn).filterMap fun p => taken[p.conn]?.map Taken.key := by
  induction pkts generalizing e with
  | nil => rfl
  | cons p pkts ih =>
      obtain ⟨hp, hpkts⟩ := List.forall_mem_cons.mp hfits
      have hrest := ih hpkts (e.emit taken p).1
      simp only [run]
      cases htaken : taken[p.conn]? with
      | none =>
          have hemit : (e.emit taken p).2 = none := by rw [Emitter.emit, htaken]
          rw [hemit, List.reduceOption_cons_of_none, hrest, List.filter_cons]
          split
          · rw [List.filterMap_cons_none (by rw [htaken]; rfl)]
          · rfl
      | some t =>
          have hmem : t ∈ taken := List.mem_of_getElem? htaken
          obtain ⟨ack, ipId, hpacket, -⟩ := emit_of_taken htaken e
          have hparse := parse_of_fits (h.version t hmem p.isC2s) (hp t htaken)
            (e.nextSeq p.conn p.isC2s) ack 65535 ipId
          have hhead : synKey (p.ts, Pkt.buildTcpPacket (t.endpoint p.isC2s)
              (e.nextSeq p.conn p.isC2s) ack p.flags 65535 ipId p.payload) =
              if p.isSyn then some t.key else none := by
            rw [syn_key_of_segment hparse, ← h.keyed t hmem p.isC2s]
            rfl
          rw [hpacket, List.reduceOption_cons_of_some]
          cases hsyn : p.isSyn with
          | true =>
              rw [hsyn, if_pos rfl] at hhead
              rw [synKeys, List.filterMap_cons_some hhead, ← synKeys, hrest,
                List.filter_cons_of_pos hsyn, List.filterMap_cons_some (by rw [htaken]; rfl)]
          | false =>
              rw [hsyn, if_neg Bool.false_ne_true] at hhead
              rw [synKeys, List.filterMap_cons_none hhead, ← synKeys, hrest,
                List.filter_cons_of_neg (by rw [hsyn]; exact Bool.false_ne_true)]

/-- They are those of the connections that are written, in their order. -/
theorem syn_keys_emitted {taken : List Taken} (h : Separated taken) (hnumbered : Numbered taken)
    (hsorted : taken.Pairwise fun t u => t.state.firstTs ≤ u.state.firstTs ∧ t.conn < u.conn)
    {mss : Nat} (hfits : AllFit taken (sortedPackets mss taken)) :
    synKeys (emitted mss taken) = taken.map Taken.key := by
  rw [emitted, syn_keys_emit h hfits, sorted_syns mss hnumbered hsorted, List.filterMap_map,
    ← List.filterMap_eq_map]
  refine List.filterMap_congr fun t ht => ?_
  simp only [Function.comp_apply, ConnState.synPkt, hnumbered.inRange t ht, Option.map_some]

theorem Taken.transmit_flags (t : Taken) (next : Bool → Seq) (pkts : List OutPkt) :
    (t.transmit next pkts).map (fun arrival => arrival.1.flags) = pkts.map OutPkt.flags := by
  induction pkts generalizing next with
  | nil => rfl
  | cons p pkts ih => exact congrArg₂ List.cons rfl (ih _)

/-- The segments of a connection, without their times. -/
theorem segments_on_eq_arrivals (k : Key) (packets : List Packet) :
    segmentsOn k packets = (arrivalsOn k packets).map Prod.fst := by
  rw [segmentsOn, arrivalsOn, List.map_filterMap]
  refine List.filterMap_congr fun packet _ => ?_
  cases segmentOn k packet <;> rfl

/-- Every connection of the rebuilt capture begins with its only bare SYN, if no piece is older than
its first packet or newer than its last one. -/
theorem syn_first_emitted {taken : List Taken} (h : Separated taken) (hnumbered : Numbered taken)
    (hwithin : ∀ t ∈ taken, ∀ p ∈ t.state.allPieces,
      t.state.firstTs ≤ p.ts ∧ p.ts ≤ max t.state.lastTs t.state.firstTs)
    {mss : Nat} (hfits : AllFit taken (sortedPackets mss taken)) :
    SynFirst (emitted mss taken) := by
  intro k seg segs hsegs
  rw [segments_on_eq_arrivals] at hsegs
  by_cases hk : k ∈ taken.map Taken.key
  · obtain ⟨t, ht, rfl⟩ := List.mem_map.mp hk
    rw [arrivals_on_emitted h (hnumbered.inRange t ht) hfits,
      conn_packets_of_within mss hnumbered ht (hwithin t ht)] at hsegs
    have hflags := congrArg (List.map fun seg : EthSegment => seg.flags) hsegs
    rw [List.map_map] at hflags
    have hall := (Taken.transmit_flags t _ _).symm.trans hflags
    rw [List.map_append, List.map_append] at hall
    have hpieces : ∀ flags ∈ ((Piece.byTime t.state.allPieces).flatMap
        (Piece.segments mss t.conn)).map OutPkt.flags, flags = TcpFlags.psh ||| TcpFlags.ack := by
      intro flags hmem
      obtain ⟨p, hp, rfl⟩ := List.mem_map.mp hmem
      obtain ⟨piece, -, hp⟩ := List.mem_flatMap.mp hp
      exact (Piece.mem_segments hp).2.2.2
    simp only [ConnState.handshake, ConnState.closing, List.map_cons, List.map_nil,
      List.cons_append, List.nil_append, List.cons.injEq] at hall
    obtain ⟨hsyn, hsynAck, hack, hdata, hfin⟩ := bare_syn_flags
    obtain ⟨hfirst, hrest⟩ := hall
    have hfresh : ∀ seg : EthSegment, seg.freshSyn = TcpFlags.bareSyn seg.flags := fun _ => rfl
    refine ⟨by rw [hfresh, ← hfirst, hsyn], fun later hlater => ?_⟩
    have hmem : later.flags ∈ segs.map fun seg : EthSegment => seg.flags :=
      List.mem_map_of_mem hlater
    rw [← hrest] at hmem
    rw [hfresh]
    simp only [List.mem_cons, List.mem_append, List.not_mem_nil, or_false] at hmem
    rcases hmem with heq | heq | hpiece | heq | heq
    · rw [heq, hsynAck]
    · rw [heq, hack]
    · rw [hpieces _ hpiece, hdata]
    · rw [heq, hfin]
    · rw [heq, hfin]
  · rw [emitted, arrivals_on_other h hk hfits] at hsegs
    cases hsegs

/-- The last packet of such a capture has a bare SYN exactly if it is the first one of its
connection. -/
theorem SynFirst.concat {packets : List Packet} {packet : Packet}
    (h : SynFirst (packets ++ [packet])) :
    SynFirst packets ∧ ∀ seg, Pkt.parseEthernet packet.2 = some seg →
      seg.freshSyn = (segmentsOn (keyOf seg.src seg.dst) packets).isEmpty := by
  have hsegs : ∀ k, segmentsOn k (packets ++ [packet]) =
      segmentsOn k packets ++ (segmentOn k packet).toList := by
    intro k
    simp only [segmentsOn, List.filterMap_append]
    cases hseg : segmentOn k packet <;> simp [hseg]
  refine ⟨fun k seg segs hk => ?_, fun seg hseg => ?_⟩
  · have hall := h k seg (segs ++ (segmentOn k packet).toList) (by rw [hsegs, hk]; rfl)
    exact ⟨hall.1, fun later hlater => hall.2 later (List.mem_append_left _ hlater)⟩
  · have hon : segmentOn (keyOf seg.src seg.dst) packet = some seg := by
      rw [segmentOn, hseg, Option.filter_some, if_pos (beq_self_eq_true _)]
    have hall := h (keyOf seg.src seg.dst)
    rw [hsegs, hon] at hall
    cases hold : segmentsOn (keyOf seg.src seg.dst) packets with
    | nil =>
        rw [hold] at hall
        exact (hall seg [] rfl).1
    | cons first rest =>
        rw [hold] at hall
        exact (hall first (rest ++ [seg]) rfl).2 seg (by simp)

namespace Replay

variable [HuffmanDecoding] (seeds : Table (String × String) Seed)

/-- Connections open in the order of their SYNs. -/
theorem order_of_syn_first {packets : List Packet} (h : SynFirst packets) :
    (run (step seeds) start packets).1.order = synKeys packets := by
  induction packets using List.reverseRecOn with
  | nil => rfl
  | append_singleton packets packet ih =>
      obtain ⟨hbefore, hlast⟩ := h.concat
      have hkeys : synKeys (packets ++ [packet]) = synKeys packets ++ synKeys [packet] :=
        List.filterMap_append
      rw [run_concat_fst, hkeys, ← ih hbefore]
      cases hseg : Pkt.parseEthernet packet.2 with
      | none =>
          have hnone : synKeys [packet] = [] := by simp [synKeys, synKey, hseg]
          rw [step_of_none seeds hseg, hnone]
          exact (List.append_nil _).symm
      | some seg =>
          have hopen := (count_order seeds packets (keyOf seg.src seg.dst)).2
          have hopens :
              (run (step seeds) start packets).1.countPacket.opens seg = seg.freshSyn := by
            have hnone : ((run (step seeds) start packets).1.countPacket.conns.lookup
                (keyOf seg.src seg.dst)).isNone = seg.freshSyn := by
              rw [hlast seg hseg, ← Option.not_isSome]
              exact (congrArg (!·) hopen).trans (Bool.not_not _)
            rw [opens, hnone, Bool.or_self]
          have hone : synKeys [packet] = if seg.freshSyn then [keyOf seg.src seg.dst] else [] := by
            cases hsyn : seg.freshSyn <;> simp [synKeys, syn_key_of_segment hseg, hsyn]
          rw [step_of_segment seeds hseg, on_segment_order, orderAfter, hopens, hone]
          cases hsyn : seg.freshSyn with
          | true => rfl
          | false => exact (List.append_nil _).symm

end Replay

end H2Tap
