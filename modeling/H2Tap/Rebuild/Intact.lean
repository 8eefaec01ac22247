import H2Tap.Rebuild.Client
import H2Tap.Rebuild.Reuse
import H2Tap.Rebuild.TimeOrder

/-!
# Which streams come out intact

Reading a direction of the rebuilt capture back, against the frames that were written for it
(`streams_intact_iff`). Sorting the packets by the times of the input keeps their causal order only
where those times do: no frame older than the connection's first packet or newer than its last one,
and none that was decoded later is older. The addresses have to stand for one connection, and every
piece of a frame has to fit an IP packet.
-/

namespace H2Tap

open Lib

namespace ConnState

/-- The address that sends a direction. -/
def source (cs : ConnState) (isC2s : Bool) : SocketAddr := if isC2s then cs.client else cs.server

/-- An endpoint sends a direction of a connection. -/
structure Sends (cs : ConnState) (isC2s : Bool) (ep : Pkt.Endpoint) : Prop where
  src : ep.src = cs.source isC2s
  dst : ep.dst = cs.source (!isC2s)
  version : ep.SameVersion

/-- The connection lies between the addresses of its key, and so do its endpoints. -/
structure Between (k : Key) (cs : ConnState) : Prop where
  key : keyOf cs.client cs.server = k
  sends : ∀ isC2s, ∀ ep ∈ (cs.dir isC2s).ep, cs.Sends isC2s ep

/-- The reversed endpoint sends the other direction. -/
theorem Sends.reversed {cs : ConnState} {isC2s : Bool} {ep : Pkt.Endpoint}
    (h : cs.Sends isC2s ep) : cs.Sends (!isC2s) ep.reversed := by
  obtain ⟨hsrc, hdst, hversion⟩ := h
  refine ⟨hdst, ?_, ?_⟩
  · rw [Bool.not_not]
    exact hsrc
  · unfold Pkt.Endpoint.SameVersion at hversion ⊢
    unfold Pkt.Endpoint.reversed
    cases hs : ep.src.ip <;> cases hd : ep.dst.ip <;> simp_all

/-- Only the addresses and the endpoints matter. -/
theorem Sends.congr {cs cs' : ConnState} (hclient : cs'.client = cs.client)
    (hserver : cs'.server = cs.server) {isC2s : Bool} {ep : Pkt.Endpoint} (h : cs.Sends isC2s ep) :
    cs'.Sends isC2s ep := by
  obtain ⟨hsrc, hdst, hversion⟩ := h
  unfold source at hsrc hdst
  rw [← hclient, ← hserver] at hsrc hdst
  exact ⟨hsrc, hdst, hversion⟩

/-- Sorting by time keeps a direction in causal order: its frames lie between the first packet of
the connection and the last one, and sorting them leaves their bytes as they are. -/
structure InTime (cs : ConnState) (isC2s : Bool) : Prop where
  within : ∀ f ∈ cs.stream isC2s, cs.firstTs ≤ f.1 ∧ f.1 ≤ max cs.lastTs cs.firstTs
  inOrder : ((inTimeOrder (cs.stream isC2s)).map Prod.snd).flatten =
    ((cs.stream isC2s).map Prod.snd).flatten

/-- Frames whose times never go back are in time between the first packet and the last one. -/
theorem in_time_of_sorted {cs : ConnState} {isC2s : Bool}
    (hsorted : (cs.stream isC2s).Pairwise fun f g => f.1 ≤ g.1)
    (hwithin : ∀ f ∈ cs.stream isC2s, cs.firstTs ≤ f.1 ∧ f.1 ≤ max cs.lastTs cs.firstTs) :
    cs.InTime isC2s := by
  refine ⟨hwithin, ?_⟩
  rw [inTimeOrder, List.mergeSort_of_pairwise (hsorted.imp fun hle => decide_eq_true hle)]

/-- Every piece of a frame fits a packet of the IP version of its sender. -/
def FitsPackets (cs : ConnState) (mss : Nat) (isC2s : Bool) : Prop :=
  ∀ f ∈ cs.stream isC2s,
    Pkt.overhead (cs.source isC2s).ip + min (max mss 1) f.2.length < 2 ^ 16

instance (cs : ConnState) (mss : Nat) (isC2s : Bool) : Decidable (cs.FitsPackets mss isC2s) :=
  inferInstanceAs (Decidable (∀ _ ∈ _, _))

end ConnState

/-! ## What the replay keeps -/

namespace Replay

variable [HuffmanDecoding] (seeds : Table (String × String) Seed)

omit [HuffmanDecoding] in
/-- A segment of a connection is sent by one of its two addresses to the other. -/
theorem sends_of_key {cs : ConnState} {packet : Packet} {seg : EthSegment}
    (hseg : Pkt.parseEthernet packet.2 = some seg)
    (h : keyOf cs.client cs.server = keyOf seg.src seg.dst) :
    cs.Sends (seg.src == cs.client) ⟨seg.ethDst, seg.ethSrc, seg.src, seg.dst⟩ := by
  have haddrs := key_of_eq_iff.mp h
  by_cases hsame : seg.src = cs.client
  · rw [beq_iff_eq.mpr hsame]
    refine ⟨hsame, ?_, Pkt.same_version_of_parse hseg⟩
    rcases haddrs with ⟨-, hserver⟩ | ⟨hclient, hserver⟩
    · exact hserver.symm
    · exact hclient.symm.trans (hsame.symm.trans hserver.symm)
  · rw [beq_false_of_ne hsame]
    rcases haddrs with ⟨hclient, -⟩ | ⟨hclient, hserver⟩
    · exact absurd hclient.symm hsame
    · exact ⟨hserver.symm, hclient.symm, Pkt.same_version_of_parse hseg⟩

omit [HuffmanDecoding] in
theorem between_found {r : Replay} (h : ∀ k cs, r.conns.lookup k = some cs → cs.Between k)
    (seg : EthSegment) (ts : Nat) : (r.found seg ts).Between (keyOf seg.src seg.dst) := by
  rcases found_cases r seg ts with ⟨hopened, -⟩ | ⟨-, hlookup⟩
  · rw [hopened]
    refine ⟨rfl, fun isC2s ep hep => ?_⟩
    unfold ConnState.opened ConnState.dir at hep
    cases isC2s <;> cases hsyn : seg.freshSyn <;> simp [hsyn, DirState.new] at hep
  · exact h _ _ hlookup

omit [HuffmanDecoding] in
theorem between_touched {r : Replay} {packet : Packet} {seg : EthSegment}
    (hseg : Pkt.parseEthernet packet.2 = some seg)
    (h : ∀ k cs, r.conns.lookup k = some cs → cs.Between k) (ts : Nat) :
    (r.touched seeds seg ts).Between (keyOf seg.src seg.dst) := by
  obtain ⟨hkey, hsends⟩ := between_found h seg ts
  refine ⟨?_, fun isC2s ep hep => ConnState.Sends.congr (ConnState.touch_client _ _ _ _ _)
    (ConnState.touch_server _ _ _ _ _) ?_⟩
  · rw [touched, ConnState.touch_client, ConnState.touch_server]
    exact hkey
  rcases Bool.eq_or_eq_not isC2s (r.sentByClient seg ts) with rfl | rfl
  · rw [touched, ConnState.touch_dir, touched_dir_ep, Option.mem_def, Option.or_eq_some_iff] at hep
    rcases hep with hep | ⟨-, hep⟩
    · exact hsends _ ep hep
    · cases hep
      exact sends_of_key hseg hkey
  · rw [touched, ConnState.touch_dir_not] at hep
    exact hsends _ ep hep

/-- A packet keeps the connections between their addresses. -/
theorem between_step {r : Replay} (packet : Packet)
    (h : ∀ k cs, r.conns.lookup k = some cs → cs.Between k) :
    ∀ k cs, (r.step seeds packet).1.conns.lookup k = some cs → cs.Between k := by
  intro k cs hlookup
  rcases lookup_step_cases seeds hlookup with hbefore | ⟨seg, hseg, rfl, hcs⟩
  · exact h k cs hbefore
  have htouched := between_touched seeds hseg (r := r.countPacket) h packet.1
  rcases hcs with rfl | rfl
  · exact htouched
  · refine ⟨?_, fun isC2s ep hep => ?_⟩
    · rw [absorbed, ConnState.absorb_client, ConnState.absorb_server]
      exact htouched.key
    · rw [absorbed, ConnState.absorb_ep] at hep
      exact (htouched.sends isC2s ep hep).congr (ConnState.absorb_client _ _ _ _ _)
        (ConnState.absorb_server _ _ _ _ _)

theorem between_run (packets : List Packet) :
    ∀ k cs, (run (step seeds) start packets).1.conns.lookup k = some cs → cs.Between k :=
  (run_invariant (step seeds) (P := fun r => ∀ k cs, r.conns.lookup k = some cs → cs.Between k)
    (Q := fun _ => True) (fun _ packet h _ => ⟨between_step seeds packet h, trivial⟩)
    (fun k cs hlookup => by simp [start] at hlookup) (guarded_true _ packets)).1

/-! ## How often a connection is opened -/

omit [HuffmanDecoding] in
/-- How often segments between the same addresses open a connection: with the first of them, and
with every bare SYN after it. -/
def openings : List EthSegment → Nat
  | [] => 0
  | _ :: segs => 1 + segs.countP fun seg => seg.freshSyn

omit [HuffmanDecoding] in
theorem openings_concat (segs : List EthSegment) (seg : EthSegment) :
    openings (segs ++ [seg]) = openings segs + (segs.isEmpty || seg.freshSyn).toNat := by
  cases segs with
  | nil => rfl
  | cons s segs =>
      rw [List.cons_append, openings, openings, List.countP_append, List.countP_singleton]
      cases seg.freshSyn <;> rfl

theorem on_segment_order (r : Replay) (seg : EthSegment) (ts : Nat) :
    (r.onSegment seeds seg ts).1.order = r.orderAfter seg := by
  cases hpayload : seg.payload.isEmpty with
  | true => rw [on_segment_of_empty seeds hpayload]
  | false => rw [on_segment_of_payload seeds hpayload]

/-- The list has the addresses once for each opening, and they are in the table from the first one
on. -/
theorem count_order (packets : List Packet) (k : Key) :
    (run (step seeds) start packets).1.order.count k = openings (segmentsOn k packets) ∧
      ((run (step seeds) start packets).1.conns.lookup k).isSome =
        !(segmentsOn k packets).isEmpty := by
  induction packets using List.reverseRecOn with
  | nil => exact ⟨rfl, rfl⟩
  | append_singleton packets packet ih =>
      obtain ⟨hcount, hopen⟩ := ih
      rw [run_concat_fst]
      generalize (run (step seeds) start packets).1 = r at hcount hopen
      have hsegs : segmentsOn k (packets ++ [packet]) =
          segmentsOn k packets ++ (segmentOn k packet).toList := by
        simp only [segmentsOn, List.filterMap_append]
        cases hseg : segmentOn k packet <;> simp [hseg]
      rw [hsegs]
      cases hon : segmentOn k packet with
      | none =>
          rw [lookup_step_other hon, Option.toList_none, List.append_nil, ← hcount]
          refine ⟨?_, hopen⟩
          cases hseg : Pkt.parseEthernet packet.2 with
          | none => rw [step_of_none seeds hseg, countPacket]
          | some seg =>
              rw [step_of_segment seeds hseg, on_segment_order, orderAfter]
              split
              · rw [List.count_append, List.count_singleton,
                  beq_false_of_ne (segment_on_none hon hseg)]
                rfl
              · rfl
      | some seg =>
          obtain ⟨hseg, rfl⟩ := segment_on_some hon
          obtain ⟨cs, hconns, -⟩ := on_segment_client seeds r.countPacket seg packet.1
          have hopens : r.countPacket.opens seg =
              ((segmentsOn (keyOf seg.src seg.dst) packets).isEmpty || seg.freshSyn) := by
            have hnone : (r.countPacket.conns.lookup (keyOf seg.src seg.dst)).isNone =
                (segmentsOn (keyOf seg.src seg.dst) packets).isEmpty := by
              rw [← Option.not_isSome]
              exact (congrArg (!·) hopen).trans (Bool.not_not _)
            rw [opens, hnone, Bool.or_comm]
          rw [step_of_segment seeds hseg, Option.toList_some, openings_concat, ← hcount, hconns,
            AList.lookup_insert, on_segment_order, orderAfter, hopens]
          refine ⟨?_, by simp⟩
          cases (segmentsOn (keyOf seg.src seg.dst) packets).isEmpty || seg.freshSyn with
          | true => simp [countPacket]
          | false => simp [countPacket]

/-- The addresses stand for one connection: after the first segment between them there is no bare
SYN. -/
def OpenedOnce (k : Key) (packets : List Packet) : Prop :=
  ∀ seg ∈ (segmentsOn k packets).tail, seg.freshSyn = false

instance (k : Key) (packets : List Packet) : Decidable (OpenedOnce k packets) :=
  inferInstanceAs (Decidable (∀ _ ∈ _, _))

/-- The list has the addresses of a connection at least once, and only once if they were opened
once. -/
theorem count_order_of_lookup {packets : List Packet} {k : Key} {cs : ConnState}
    (h : (run (step seeds) start packets).1.conns.lookup k = some cs) :
    0 < (run (step seeds) start packets).1.order.count k ∧
      ((run (step seeds) start packets).1.order.count k = 1 ↔ OpenedOnce k packets) := by
  obtain ⟨hcount, hopen⟩ := count_order seeds packets k
  rw [h] at hopen
  rw [hcount, OpenedOnce]
  cases hsegs : segmentsOn k packets with
  | nil =>
      rw [hsegs] at hopen
      cases hopen
  | cons seg segs =>
      have hzero : segs.countP (fun seg => seg.freshSyn) = 0 ↔
          ∀ seg ∈ segs, seg.freshSyn = false := by
        rw [List.countP_eq_zero]
        exact forall₂_congr fun _ _ => Bool.not_eq_true _ ▸ Iff.rfl
      rw [openings, List.tail_cons, ← hzero]
      omega

end Replay

/-! ## The connections that are written out -/

/-- A connection was taken out of the table at its addresses: its endpoints send its directions, and
its state is the one in the table if it is taken only once. -/
structure TakenAt (conns₀ conns : Table Key ConnState) (keys : List Key) (k : Key) (t : Taken) :
    Prop where
  mem : k ∈ keys
  sends : ∃ cs, conns₀.lookup k = some cs ∧ ∀ isC2s, cs.Sends isC2s (t.endpoint isC2s)
  state : keys.count k = 1 → conns.lookup k = some t.state

/-- Every entry of the list is taken, whether it was taken before or not. -/
theorem take_conns_forall₂ {conns₀ : Table Key ConnState} (ci : Nat) (keys : List Key)
    (conns : Table Key ConnState)
    (h : ∀ k ∈ keys, ∃ cs, conns₀.lookup k = some cs ∧ cs.Between k ∧ HasEndpoint k cs ∧
      (conns.lookup k = some cs ∨ conns.lookup k = some cs.takeOut)) :
    List.Forall₂ (TakenAt conns₀ conns keys) keys (takeConns ci keys conns) := by
  induction keys generalizing ci conns with
  | nil => exact List.Forall₂.nil
  | cons k ks ih =>
      obtain ⟨cs, hcs, hbetween, hep, htable⟩ := h k List.mem_cons_self
      -- what is in the table has the endpoints of the connection, also when it was taken before
      obtain ⟨now, hnow, hsame, htakeOut⟩ : ∃ now, conns.lookup k = some now ∧
          (∀ isC2s, (now.dir isC2s).ep = (cs.dir isC2s).ep) ∧ now.takeOut = cs.takeOut := by
        rcases htable with hnow | hnow
        · exact ⟨cs, hnow, fun _ => rfl, rfl⟩
        · refine ⟨cs.takeOut, hnow, fun isC2s => ?_, rfl⟩
          cases isC2s <;> rfl
      have hends : ∀ isC2s, ∃ ep, (now.dir isC2s).ep.or
          ((now.dir (!isC2s)).ep.map Pkt.Endpoint.reversed) = some ep ∧ cs.Sends isC2s ep := by
        intro isC2s
        obtain ⟨side, hside⟩ := hep.known
        rw [hsame, hsame]
        cases hown : (cs.dir isC2s).ep with
        | some ep => exact ⟨ep, rfl, hbetween.sends isC2s ep hown⟩
        | none =>
            cases hother : (cs.dir (!isC2s)).ep with
            | some ep =>
                refine ⟨ep.reversed, rfl, ?_⟩
                rw [← Bool.not_not isC2s]
                exact (hbetween.sends (!isC2s) ep hother).reversed
            | none =>
                rcases Bool.eq_or_eq_not side isC2s with rfl | rfl
                · rw [hown] at hside
                  cases hside
                · rw [hother] at hside
                  cases hside
      obtain ⟨a, ha, hasends⟩ := hends true
      obtain ⟨b, hb, hbsends⟩ := hends false
      have hrest := ih (ci + 1) (conns.insert k now.takeOut) (by
        intro k' hk'
        obtain ⟨cs', hcs', hbetween', hep', htable'⟩ := h k' (List.mem_cons_of_mem _ hk')
        refine ⟨cs', hcs', hbetween', hep', ?_⟩
        by_cases heq : k' = k
        · subst heq
          rw [AList.lookup_insert, htakeOut]
          exact Or.inr (congrArg (fun o => o.map ConnState.takeOut) (hcs.symm.trans hcs'))
        · rw [AList.lookup_insert_ne heq]
          exact htable')
      have htaken : takeConns ci (k :: ks) conns =
          ⟨ci, now, a, b⟩ :: takeConns (ci + 1) ks (conns.insert k now.takeOut) := by
        have hclient : now.c2s.ep.or (now.s2c.ep.map Pkt.Endpoint.reversed) = some a := ha
        have hserver : now.s2c.ep.or (now.c2s.ep.map Pkt.Endpoint.reversed) = some b := hb
        rw [takeConns, hnow]
        simp only [hclient, hserver]
      rw [htaken]
      refine List.Forall₂.cons ⟨List.mem_cons_self, ⟨cs, hcs, fun isC2s => ?_⟩, fun _ => hnow⟩
        (hrest.imp fun k' t ht => ⟨List.mem_cons_of_mem _ ht.mem, ht.sends, fun hcount => ?_⟩)
      · cases isC2s
        · exact hbsends
        · exact hasends
      · have hpos := List.count_pos_iff.mpr ht.mem
        rw [List.count_cons] at hcount
        have hne : k' ≠ k := by
          rintro rfl
          rw [beq_self_eq_true, if_pos rfl] at hcount
          omega
        rw [beq_false_of_ne hne.symm, if_neg Bool.false_ne_true, Nat.add_zero] at hcount
        rw [← ht.state hcount, AList.lookup_insert_ne hne]

/-- What is taken at a place of the list has the endpoints of the connection of that place. -/
theorem taken_at_place {conns : Table Key ConnState} {keys : List Key} {taken : List Taken}
    (htaken : List.Forall₂ (TakenAt conns conns keys) keys taken) {i : Nat} {k : Key}
    {cs : ConnState} (hi : keys[i]? = some k) (hlookup : conns.lookup k = some cs) :
    ∃ t, taken[i]? = some t ∧ (∀ isC2s, cs.Sends isC2s (t.endpoint isC2s)) ∧
      (keys.count k = 1 → t.state = cs) := by
  obtain ⟨hrange, rfl⟩ := List.getElem?_eq_some_iff.mp hi
  have hrange' : i < taken.length := htaken.length_eq ▸ hrange
  obtain ⟨-, ⟨cs', hcs', hsends⟩, hstate⟩ := htaken.get hrange hrange'
  rw [List.get_eq_getElem] at hcs' hstate
  obtain rfl : cs' = cs := Option.some.inj (hcs'.symm.trans hlookup)
  refine ⟨taken[i], List.getElem?_eq_getElem hrange', hsends, fun hone => ?_⟩
  exact Option.some.inj ((hstate hone).symm.trans hlookup)

/-- A connection that is taken at the addresses of a key is the only one between its addresses
exactly if the list has the key once and the addresses differ. -/
theorem only_between_iff {conns : Table Key ConnState} {keys : List Key} {taken : List Taken}
    (hbetween : ∀ k cs, conns.lookup k = some cs → cs.Between k)
    (htaken : List.Forall₂ (TakenAt conns conns keys) keys taken) {i : Nat} {k : Key}
    {cs : ConnState} (hi : keys[i]? = some k) (hlookup : conns.lookup k = some cs) (isC2s : Bool) :
    OnlyBetween taken (cs.source isC2s) (cs.source (!isC2s)) i isC2s ↔
      keys.count k = 1 ∧ cs.client ≠ cs.server := by
  rw [count_eq_one_iff hi]
  constructor
  · refine fun honly => ⟨fun j hj => ?_, fun hsame => ?_⟩
    · obtain ⟨t, ht, hsends, -⟩ := taken_at_place htaken hj hlookup
      exact (honly j t isC2s ht (hsends isC2s).src (hsends isC2s).dst).1
    · obtain ⟨t, ht, hsends, -⟩ := taken_at_place htaken hi hlookup
      have hsource : ∀ side, cs.source side = cs.client := by
        intro side
        cases side
        · exact hsame.symm
        · rfl
      have hside := (honly i t (!isC2s) ht
        ((hsends _).src.trans ((hsource _).trans (hsource _).symm))
        ((hsends _).dst.trans ((hsource _).trans (hsource _).symm))).2
      exact Bool.not_ne_self _ hside
  · rintro ⟨honce, hdiffer⟩ j t side ht hsrc hdst
    obtain ⟨hrange', rfl⟩ := List.getElem?_eq_some_iff.mp ht
    have hrange : j < keys.length := htaken.length_eq.symm ▸ hrange'
    obtain ⟨cs', hcs', hsends⟩ := (htaken.get hrange hrange').sends
    rw [List.get_eq_getElem] at hcs'
    have hkey : ∀ (c : ConnState) (s : Bool), keyOf (c.source s) (c.source (!s)) =
        keyOf c.client c.server := by
      intro c s
      cases s
      · exact key_of_comm _ _
      · rfl
    have hsrc' : cs'.source side = cs.source isC2s := (hsends side).src.symm.trans hsrc
    have hdst' : cs'.source (!side) = cs.source (!isC2s) := (hsends side).dst.symm.trans hdst
    have hk : keys[j] = k := by
      rw [← (hbetween _ _ hcs').key, ← (hbetween _ _ hlookup).key, ← hkey cs' side, hsrc', hdst',
        hkey]
    rw [hk] at hcs'
    obtain rfl : cs' = cs := Option.some.inj (hcs'.symm.trans hlookup)
    refine ⟨honce j (by rw [List.getElem?_eq_getElem hrange, hk]), ?_⟩
    by_contra hne
    rw [Bool.eq_not_of_ne hne] at hsrc'
    cases isC2s
    · exact hdiffer hsrc'
    · exact hdiffer hsrc'.symm

/-- The endpoints of what is taken have addresses of one IP version. -/
theorem same_version_of_taken {conns₀ conns : Table Key ConnState} {keys : List Key}
    {taken : List Taken} (htaken : List.Forall₂ (TakenAt conns₀ conns keys) keys taken) :
    ∀ t ∈ taken, ∀ isC2s, (t.endpoint isC2s).SameVersion := by
  intro t ht isC2s
  obtain ⟨i, hi, rfl⟩ := List.getElem_of_mem ht
  obtain ⟨cs, -, hsends⟩ := (htaken.get (htaken.length_eq.symm ▸ hi) hi).sends
  exact (hsends isC2s).version

/-! ## A direction that is read back -/

/-- What `write_pcap` emits for the connections that are taken. -/
def emitted (mss : Nat) (taken : List Taken) : List Packet :=
  (run (Emitter.emit taken) .start (sortedPackets mss taken)).2.reduceOption

/-- The connections are where their numbers say. -/
theorem Numbered.conn_eq {taken : List Taken} (h : Numbered taken) {ci : Nat} {t : Taken}
    (ht : taken[ci]? = some t) : t.conn = ci := by
  have hown := h.inRange t (List.mem_of_getElem? ht)
  obtain ⟨hrange, -⟩ := List.getElem?_eq_some_iff.mp hown
  have hsame : (taken.map Taken.conn)[t.conn]? = (taken.map Taken.conn)[ci]? := by
    rw [List.getElem?_map, List.getElem?_map, hown, ht]
  exact (List.getElem?_inj (by rwa [List.length_map]) h.nodup).mp hsame

/-- If two directions lie between the same addresses, there are two SYNs between them. -/
theorem only_between_of_one_stream {taken : List Taken} (h : Numbered taken)
    (hversion : ∀ t ∈ taken, ∀ isC2s, (t.endpoint isC2s).SameVersion) {t : Taken} (ht : t ∈ taken)
    {mss : Nat} {isC2s : Bool}
    (hone : OneStream ((segmentsBetween (t.endpoint isC2s).src (t.endpoint isC2s).dst
      (emitted mss taken)).map Prod.snd)) :
    OnlyBetween taken (t.endpoint isC2s).src (t.endpoint isC2s).dst t.conn isC2s := by
  intro ci t' isC2s' ht' hsrc hdst
  by_contra hother
  have hmem' : t' ∈ taken := List.mem_of_getElem? ht'
  obtain rfl := h.conn_eq ht'
  let p := t.state.synPkt t.conn isC2s
  let p' := t'.state.synPkt t'.conn isC2s'
  have hne : p ≠ p' := fun heq =>
    hother ⟨(congrArg OutPkt.conn heq).symm, (congrArg OutPkt.isC2s heq).symm⟩
  have htwo : 2 ≤ (sortedPackets mss taken).countP fun q => decide (q = p ∨ q = p') := by
    have hp : p ∈ sortedPackets mss taken :=
      List.mem_of_mem_filter (direction_packets_mem mss h ht isC2s).1
    have hp' : p' ∈ sortedPackets mss taken :=
      List.mem_of_mem_filter (direction_packets_mem mss h hmem' isC2s').1
    rw [List.countP_eq_length_filter]
    have hnodup : [p, p'].Nodup := by simpa using hne
    refine (List.subperm_of_subset hnodup ?_).length_le
    simp [hp, hp']
  have hsel : ∀ q u, decide (q = p ∨ q = p') = true → taken[q.conn]? = some u →
      q.payload = [] ∧ q.flags &&& TcpFlags.syn ≠ 0 ∧
        (u.endpoint q.isC2s).src = (t.endpoint isC2s).src ∧
        (u.endpoint q.isC2s).dst = (t.endpoint isC2s).dst := by
    intro q u hq hu
    rcases of_decide_eq_true hq with rfl | rfl
    · obtain rfl : t = u := Option.some.inj ((h.inRange t ht).symm.trans hu)
      exact ⟨rfl, (ConnState.syn_pkt_flags _ _ _).1, rfl, rfl⟩
    · obtain rfl : t' = u := Option.some.inj (ht'.symm.trans hu)
      exact ⟨rfl, (ConnState.syn_pkt_flags _ _ _).1, hsrc, hdst⟩
  have hrange : ∀ q ∈ sortedPackets mss taken, q.conn < taken.length :=
    fun q hq => of_decide_eq_true (List.mem_filter.mp hq).2
  have hcount := count_emitted hversion hsel hrange .start
  have hsyns := hone.synToFin
  rw [List.map_map] at hsyns
  have hsingle := hsyns.count_syn
  unfold emitted at hsingle
  simp only [Function.comp_apply] at hsingle
  omega

/-- A direction that is alone between its addresses is carried exactly if its frames are in time and
fit. -/
theorem carries_stream_iff {taken : List Taken} (h : Numbered taken)
    (hversion : ∀ t ∈ taken, ∀ isC2s, (t.endpoint isC2s).SameVersion) {t : Taken} (ht : t ∈ taken)
    {isC2s : Bool} (hsends : t.state.Sends isC2s (t.endpoint isC2s))
    (honly : OnlyBetween taken (t.endpoint isC2s).src (t.endpoint isC2s).dst t.conn isC2s)
    (mss : Nat) :
    CarriesExactly (segmentsBetween (t.endpoint isC2s).src (t.endpoint isC2s).dst
        (emitted mss taken)) ((t.state.stream isC2s).map Prod.snd).flatten ↔
      t.state.InTime isC2s ∧ t.state.FitsPackets mss isC2s := by
  have hframes := stream_ne_nil t.state isC2s
  have hpayload := direction_packets_payload mss h ht isC2s
  rw [emitted, segments_between_emitted hversion (h.inRange t ht) honly]
  change CarriesExactly (OutPkt.arrivals _ _ (directionPackets mss taken t.conn isC2s)) _ ↔ _
  rw [carries_exactly_arrivals_iff, direction_packets_fit_iff mss h ht isC2s hframes,
    syn_to_fin_iff mss h ht isC2s hframes, hpayload, hsends.src]
  · exact ⟨fun ⟨hfits, hwithin, horder⟩ => ⟨⟨hwithin, horder⟩, hfits⟩,
      fun ⟨⟨hwithin, horder⟩, hfits⟩ => ⟨hfits, hwithin, horder⟩⟩
  · intro p hp hflags
    obtain ⟨m, hcontrol⟩ := control_of_flags mss h ht isC2s
    rcases hflags with hsyn | hfin
    · rw [(hcontrol p hp).1 hsyn]
      rfl
    · rw [(hcontrol p hp).2 hfin]
      rfl
  · rw [hpayload]
    exact ((List.mergeSort_perm _ _).map Prod.snd).flatten.length_eq

/-- What is read back of a direction of a connection in the table: exactly its frames, if the
connection is the only one between its addresses, its frames are in time and their pieces fit. -/
theorem carries_written_iff {r : Replay}
    (hendpoints : ∀ k cs, r.conns.lookup k = some cs → HasEndpoint k cs)
    (hbetween : ∀ k cs, r.conns.lookup k = some cs → cs.Between k)
    (hopened : ∀ k ∈ r.order, (r.conns.lookup k).isSome = true) {k : Key} (hk : k ∈ r.order)
    {cs : ConnState} (hlookup : r.conns.lookup k = some cs) (mss : Nat) (isC2s : Bool) :
    CarriesExactly (segmentsBetween (cs.source isC2s) (cs.source (!isC2s)) (writePcap mss r))
        (carriedFrames isC2s (cs.dir isC2s).out).flatten ↔
      (r.order.count k = 1 ∧ cs.client ≠ cs.server) ∧
        cs.InTime isC2s ∧ cs.FitsPackets mss isC2s := by
  have htaken : List.Forall₂ (TakenAt r.conns r.conns r.order) r.order
      (takeConns 0 r.order r.conns) := by
    refine take_conns_forall₂ 0 r.order r.conns fun k' hk' => ?_
    obtain ⟨cs', hcs'⟩ := Option.isSome_iff_exists.mp (hopened k' hk')
    exact ⟨cs', hcs', hbetween k' cs' hcs', hendpoints k' cs' hcs', Or.inl hcs'⟩
  have hnumbered : Numbered (takeConns 0 r.order r.conns) :=
    numbered_of_conns (take_conns_spec 0 r.order r.conns hendpoints hopened).1
  rw [← stream_map_snd]
  change CarriesExactly (segmentsBetween _ _ (emitted mss (takeConns 0 r.order r.conns))) _ ↔ _
  generalize takeConns 0 r.order r.conns = taken at hnumbered htaken
  obtain ⟨i, hi⟩ := List.mem_iff_getElem?.mp hk
  obtain ⟨t, ht, hsends, hstate⟩ := taken_at_place htaken hi hlookup
  have hmem : t ∈ taken := List.mem_of_getElem? ht
  have hversion := same_version_of_taken htaken
  have honce := only_between_iff hbetween htaken hi hlookup isC2s
  obtain rfl := hnumbered.conn_eq ht
  have hiff : OnlyBetween taken (cs.source isC2s) (cs.source (!isC2s)) t.conn isC2s →
      (CarriesExactly (segmentsBetween (cs.source isC2s) (cs.source (!isC2s)) (emitted mss taken))
          ((cs.stream isC2s).map Prod.snd).flatten ↔
        cs.InTime isC2s ∧ cs.FitsPackets mss isC2s) := by
    intro honly
    obtain rfl := hstate (honce.mp honly).1
    rw [← (hsends isC2s).src, ← (hsends isC2s).dst] at honly ⊢
    exact carries_stream_iff hnumbered hversion hmem (hsends isC2s) honly mss
  rw [← honce]
  constructor
  · intro hcarries
    have honly : OnlyBetween taken (cs.source isC2s) (cs.source (!isC2s)) t.conn isC2s := by
      have hone := hcarries.oneStream
      rw [← (hsends isC2s).src, ← (hsends isC2s).dst] at hone ⊢
      exact only_between_of_one_stream hnumbered hversion hmem hone
    exact ⟨honly, (hiff honly).mp hcarries⟩
  · rintro ⟨honly, hstream⟩
    exact (hiff honly).mpr hstream

namespace Replay

variable [HuffmanDecoding] (seeds : Table (String × String) Seed)

/-- What is read back of a connection of a replay. -/
theorem carries_written_run {packets : List Packet} {k : Key} {cs : ConnState}
    (hlookup : (run (step seeds) start packets).1.conns.lookup k = some cs) (mss : Nat)
    (isC2s : Bool) :
    CarriesExactly (segmentsBetween (cs.source isC2s) (cs.source (!isC2s))
        (writePcap mss (run (step seeds) start packets).1))
        (carriedFrames isC2s (cs.dir isC2s).out).flatten ↔
      (OpenedOnce k packets ∧ cs.client ≠ cs.server) ∧
        cs.InTime isC2s ∧ cs.FitsPackets mss isC2s := by
  have htracks := tracks_run seeds packets
  obtain ⟨hpos, hcount⟩ := count_order_of_lookup seeds hlookup
  rw [← hcount]
  exact carries_written_iff htracks.endpoints (between_run seeds packets) htracks.order_opened
    (List.count_pos_iff.mp hpos) hlookup mss isC2s

/-- The rebuilt capture carries exactly the frames of every direction of every connection, in the
order in which they were decoded, exactly if every connection is the only one between its addresses,
its frames are in time and their pieces fit. -/
theorem streams_intact_iff (mss : Nat) (packets : List Packet) :
    (∀ k cs, (run (step seeds) start packets).1.conns.lookup k = some cs → ∀ isC2s,
      CarriesExactly (segmentsBetween (cs.source isC2s) (cs.source (!isC2s))
        (writePcap mss (run (step seeds) start packets).1))
        (carriedFrames isC2s (cs.dir isC2s).out).flatten) ↔
    ∀ k cs, (run (step seeds) start packets).1.conns.lookup k = some cs →
      (OpenedOnce k packets ∧ cs.client ≠ cs.server) ∧
        ∀ isC2s, cs.InTime isC2s ∧ cs.FitsPackets mss isC2s := by
  refine forall₂_congr fun k cs => imp_congr_right fun hlookup => ?_
  rw [forall_congr' (carries_written_run seeds hlookup mss), forall_and, forall_const]

end Replay

/-- A client whose clock is set back while it sends: its second frame is older than the first. -/
def setBackPackets : List Packet :=
  [(1000, Pkt.buildTcpPacket Pkt.clientEndpoint 100 0 TcpFlags.syn 65535 0 []),
    (1002, Pkt.buildTcpPacket Pkt.clientEndpoint 101 0 TcpFlags.ack 65535 1
      (preface ++ buildFrame FrameType.settings 0 0 [])),
    (1001, Pkt.buildTcpPacket Pkt.clientEndpoint 134 0 TcpFlags.ack 65535 2
      (buildFrame FrameType.settings Flags.ack 0 []))]

/-- The frame that is newer than the last packet comes after the FIN. The connection is the only one
between its addresses, and its frames fit. -/
theorem set_back_reordered :
    let _ := noHuffman.toHuffmanDecoding
    let k := keyOf Pkt.clientEndpoint.src Pkt.clientEndpoint.dst
    let r := (run (Replay.step ∅) Replay.start setBackPackets).1
    Replay.OpenedOnce k setBackPackets ∧ ∃ cs, r.conns.lookup k = some cs ∧
      cs.client ≠ cs.server ∧ cs.FitsPackets 1460 true ∧
      ¬ CarriesExactly (segmentsBetween cs.client cs.server (writePcap 1460 r))
        (carriedFrames true cs.c2s.out).flatten := by
  intro _ k r
  have hfacts : ∃ cs, cs ∈ r.conns.lookup k ∧ cs.client ≠ cs.server ∧ cs.FitsPackets 1460 true ∧
      ∃ f ∈ cs.stream true, max cs.lastTs cs.firstTs < f.1 := by
    decide +kernel
  obtain ⟨cs, hlookup, hdiffer, hfits, f, hf, hlate⟩ := hfacts
  refine ⟨by decide +kernel, cs, hlookup, hdiffer, hfits, fun hcarries => ?_⟩
  have hintime := ((Replay.carries_written_run ∅ hlookup 1460 true).mp hcarries).2.1
  exact absurd (hintime.within f hf).2 (Nat.not_le_of_lt hlate)

end H2Tap
