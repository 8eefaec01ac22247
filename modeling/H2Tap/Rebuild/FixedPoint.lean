import H2Tap.Rebuild.InRange
import H2Tap.Rebuild.Retrace

/-!
# Rebuilding a rebuilt capture

A rebuilt capture needs no snapshot: every connection begins with its SYN, and no header block
refers to a dynamic table. So rebuilding it once more finds the same connections, reads every item
as it was written (`reads_rebuilt`), and writes the same capture (`rebuild_again`).
-/

namespace H2Tap

open Lib

namespace Replay

variable [HuffmanDecoding] (seeds : Table (String × String) Seed)

/-! ## When connections open -/

omit [HuffmanDecoding] in
/-- Touching a connection keeps the time of its first packet. -/
theorem touched_first_ts (r : Replay) (seg : EthSegment) (ts : Nat) :
    (r.touched seeds seg ts).firstTs = (r.found seg ts).firstTs := by
  rw [touched, ConnState.touch_eq, ConnState.set_dir_first_ts]

/-- The connection of a segment after its turn has the first packet of the one that was found. -/
theorem first_ts_found {r : Replay} {packet : Packet} {seg : EthSegment}
    (hseg : Pkt.parseEthernet packet.2 = some seg) {cs : ConnState}
    (h : (r.step seeds packet).1.conns.lookup (keyOf seg.src seg.dst) = some cs) :
    cs.firstTs = (r.countPacket.found seg packet.1).firstTs := by
  rw [step_of_segment seeds hseg] at h
  cases hpayload : seg.payload.isEmpty with
  | true =>
      rw [on_segment_of_empty seeds hpayload, AList.lookup_insert] at h
      rw [← Option.some.inj h, touched_first_ts]
  | false =>
      rw [on_segment_of_payload seeds hpayload, AList.lookup_insert] at h
      rw [← Option.some.inj h, absorbed, ConnState.absorb_first_ts, touched_first_ts]

/-- A packet opens the connection `k`. -/
def Opens (r : Replay) (packet : Packet) (k : Key) : Prop :=
  ∃ seg, Pkt.parseEthernet packet.2 = some seg ∧ keyOf seg.src seg.dst = k ∧ r.opens seg = true

/-- The packet that opens a connection is its first one. -/
theorem first_ts_of_opens {r : Replay} {packet : Packet} {k : Key} (hopens : r.Opens packet k)
    {cs : ConnState} (h : (r.step seeds packet).1.conns.lookup k = some cs) :
    cs.firstTs = packet.1 := by
  obtain ⟨seg, hseg, rfl, hopens⟩ := hopens
  rw [first_ts_found seeds hseg h]
  rcases found_cases r.countPacket seg packet.1 with ⟨hopened, -⟩ | ⟨hsyn, hlookup⟩
  · rw [hopened]
    rfl
  · have hknown : r.conns.lookup (keyOf seg.src seg.dst) =
        some (r.countPacket.found seg packet.1) := hlookup
    rw [opens, hsyn, hknown] at hopens
    cases hopens

/-- Any other packet leaves the first packet as it is. -/
theorem first_ts_of_not_opens {r : Replay} {packet : Packet} {k : Key}
    (hopens : ¬ r.Opens packet k) {cs : ConnState}
    (h : (r.step seeds packet).1.conns.lookup k = some cs) :
    ∃ cs', r.conns.lookup k = some cs' ∧ cs'.firstTs = cs.firstTs := by
  cases hon : segmentOn k packet with
  | none =>
      rw [lookup_step_other hon] at h
      exact ⟨cs, h, rfl⟩
  | some seg =>
      obtain ⟨hseg, rfl⟩ := segment_on_some hon
      have hfirst := first_ts_found seeds hseg h
      rcases found_cases r.countPacket seg packet.1 with ⟨-, hnew⟩ | ⟨-, hlookup⟩
      · refine absurd ⟨seg, hseg, rfl, ?_⟩ hopens
        rcases hnew with hsyn | hnone
        · rw [opens, hsyn, Bool.true_or]
        · have hnone' : r.conns.lookup (keyOf seg.src seg.dst) = none := hnone
          rw [opens, hnone', Option.isNone_none, Bool.or_true]
      · exact ⟨_, hlookup, hfirst.symm⟩

/-- The list of connections only grows. -/
theorem order_grows (r : Replay) (packets : List Packet) :
    ∃ more, (run (step seeds) r packets).1.order = r.order ++ more := by
  induction packets generalizing r with
  | nil => exact ⟨[], (List.append_nil _).symm⟩
  | cons packet packets ih =>
      obtain ⟨more, hmore⟩ := ih (r.step seeds packet).1
      have hstep : ∃ opened, (r.step seeds packet).1.order = r.order ++ opened := by
        cases hseg : Pkt.parseEthernet packet.2 with
        | none => exact ⟨[], by rw [step_of_none seeds hseg, List.append_nil]; rfl⟩
        | some seg =>
            rw [step_of_segment seeds hseg, on_segment_order, orderAfter]
            split
            · exact ⟨_, rfl⟩
            · exact ⟨[], (List.append_nil _).symm⟩
      obtain ⟨opened, hopened⟩ := hstep
      exact ⟨opened ++ more, by rw [run_cons_fst, hmore, hopened, List.append_assoc]⟩

/-- The first packets of the connections are in the order of the list, and not later than now. -/
structure OpenedInOrder (now : Nat) (r : Replay) : Prop where
  past : ∀ k cs, r.conns.lookup k = some cs → cs.firstTs ≤ now
  sorted : r.order.Pairwise fun k k' => ∀ cs cs', r.conns.lookup k = some cs →
    r.conns.lookup k' = some cs' → cs.firstTs ≤ cs'.firstTs

/-- A packet that is not older than the connections keeps them in order, as long as it does not open
a connection for the second time. -/
theorem opened_in_order_step {r : Replay} {now : Nat} {packet : Packet} (h : r.OpenedInOrder now)
    (hts : now ≤ packet.1) (hnodup : (r.step seeds packet).1.order.Nodup) :
    (r.step seeds packet).1.OpenedInOrder packet.1 := by
  have hpast : ∀ k cs, (r.step seeds packet).1.conns.lookup k = some cs →
      cs.firstTs ≤ packet.1 := by
    intro k cs hlookup
    by_cases hopens : r.Opens packet k
    · exact (first_ts_of_opens seeds hopens hlookup).le
    · obtain ⟨cs', hbefore, hfirst⟩ := first_ts_of_not_opens seeds hopens hlookup
      exact hfirst ▸ (h.past k cs' hbefore).trans hts
  refine ⟨hpast, ?_⟩
  have hold : (∀ k ∈ r.order, ¬ r.Opens packet k) → r.order.Pairwise fun k k' => ∀ cs cs',
      (r.step seeds packet).1.conns.lookup k = some cs →
        (r.step seeds packet).1.conns.lookup k' = some cs' → cs.firstTs ≤ cs'.firstTs := by
    intro hothers
    refine h.sorted.imp_of_mem fun {k k'} hk hk' hle cs cs' hcs hcs' => ?_
    obtain ⟨before, hbefore, hfirst⟩ := first_ts_of_not_opens seeds (hothers k hk) hcs
    obtain ⟨before', hbefore', hfirst'⟩ := first_ts_of_not_opens seeds (hothers k' hk') hcs'
    rw [← hfirst, ← hfirst']
    exact hle before before' hbefore hbefore'
  cases hseg : Pkt.parseEthernet packet.2 with
  | none =>
      have horder : (r.step seeds packet).1.order = r.order := by
        rw [step_of_none seeds hseg]
        rfl
      rw [horder]
      refine hold fun k _ hopens => ?_
      obtain ⟨seg, hsome, -⟩ := hopens
      rw [hseg] at hsome
      cases hsome
  | some seg =>
      have horder : (r.step seeds packet).1.order =
          if r.opens seg then r.order ++ [keyOf seg.src seg.dst] else r.order := by
        rw [step_of_segment seeds hseg, on_segment_order]
        rfl
      have hsegment : ∀ {k}, r.Opens packet k → keyOf seg.src seg.dst = k ∧ r.opens seg = true := by
        rintro k ⟨seg', hseg', hkey, hopens⟩
        obtain rfl := Option.some.inj (hseg.symm.trans hseg')
        exact ⟨hkey, hopens⟩
      rw [horder] at hnodup ⊢
      cases hopens : r.opens seg with
      | false =>
          rw [if_neg Bool.false_ne_true]
          refine hold fun k _ hopens' => ?_
          rw [(hsegment hopens').2] at hopens
          cases hopens
      | true =>
          rw [hopens, if_pos rfl] at hnodup
          rw [if_pos rfl]
          obtain ⟨-, -, hfresh⟩ := List.nodup_append.mp hnodup
          have hothers : ∀ k ∈ r.order, ¬ r.Opens packet k := fun k hk hopens' =>
            hfresh k hk _ (List.mem_singleton_self _) (hsegment hopens').1.symm
          refine List.pairwise_append.mpr ⟨hold hothers, List.pairwise_singleton _ _, ?_⟩
          intro k _ k' hk' cs cs' hcs hcs'
          obtain rfl := List.mem_singleton.mp hk'
          rw [first_ts_of_opens seeds ⟨seg, hseg, rfl, hopens⟩ hcs']
          exact hpast k cs hcs

/-- In a capture whose times never go back, connections that are opened once are opened in the order
of their first packets. -/
theorem opened_in_order_run {r : Replay} {now : Nat} {packets : List Packet}
    (h : r.OpenedInOrder now)
    (hsorted : ((now, []) :: packets).Pairwise fun p q : Packet => p.1 ≤ q.1)
    (hnodup : (run (step seeds) r packets).1.order.Nodup) :
    ∃ last, (run (step seeds) r packets).1.OpenedInOrder last := by
  induction packets generalizing r now with
  | nil => exact ⟨now, h⟩
  | cons packet packets ih =>
      obtain ⟨hnow, hrest⟩ := List.pairwise_cons.mp hsorted
      obtain ⟨hpacket, hpackets⟩ := List.pairwise_cons.mp hrest
      rw [run_cons_fst] at hnodup ⊢
      obtain ⟨more, hmore⟩ := order_grows seeds (r.step seeds packet).1 packets
      have hstep : (r.step seeds packet).1.order.Nodup := by
        rw [hmore] at hnodup
        exact (List.nodup_append.mp hnodup).1
      exact ih (opened_in_order_step seeds h (hnow packet List.mem_cons_self) hstep)
        (List.pairwise_cons.mpr ⟨hpacket, hpackets⟩) hnodup

end Replay

/-! ## The connections that are written -/

/-- Connections that are written so that they can be replayed: they lie between different addresses,
come in the order of their first packets, and all that they carry can be read back. -/
structure Orderly (mss : Nat) (taken : List Taken) : Prop where
  separated : Separated taken
  numbered : taken.map Taken.conn = List.range' 0 taken.length
  sound : ∀ t ∈ taken, t.Sound
  timely : ∀ t ∈ taken, ∃ now, t.state.Timely now
  readable : ∀ t ∈ taken, t.state.Readable
  opened : taken.Pairwise fun t u => t.state.firstTs ≤ u.state.firstTs
  fits : ∀ t ∈ taken, ∀ isC2s, t.state.FitsPackets mss isC2s

namespace Orderly

variable {mss : Nat} {taken : List Taken} (h : Orderly mss taken)

include h

theorem numbers : Numbered taken := numbered_of_conns h.numbered

/-- Connections that come later have a larger number and no earlier first packet. -/
theorem sorted :
    taken.Pairwise fun t u => t.state.firstTs ≤ u.state.firstTs ∧ t.conn < u.conn := by
  have hconns : (taken.map Taken.conn).Pairwise fun i j => i < j := by
    rw [h.numbered]
    exact List.pairwise_lt_range'
  exact h.opened.and (List.pairwise_map.mp hconns)

/-- All packets fit. -/
theorem all_fit : AllFit taken (sortedPackets mss taken) := by
  intro p hp t ht
  have hmem := List.mem_of_getElem? ht
  have hconn := h.numbers.conn_eq ht
  have hfits := (direction_packets_fit_iff mss h.numbers hmem p.isC2s
    (stream_ne_nil t.state p.isC2s) (t.endpoint p.isC2s).src.ip).mpr (by
      rw [((h.sound t hmem).sends p.isC2s).src]
      exact h.fits t hmem p.isC2s)
  refine hfits p (List.mem_filter.mpr ⟨hp, ?_⟩)
  rw [hconn, beq_self_eq_true, beq_self_eq_true, Bool.and_self]

/-- No piece is older than the first packet of its connection or newer than its last one. -/
theorem within : ∀ t ∈ taken, ∀ p ∈ t.state.allPieces,
    t.state.firstTs ≤ p.ts ∧ p.ts ≤ max t.state.lastTs t.state.firstTs := by
  intro t ht p hp
  obtain ⟨now, htimely⟩ := h.timely t ht
  have hbounds : ∀ isC2s, p ∈ t.state.pieces isC2s →
      t.state.firstTs ≤ p.ts ∧ p.ts ≤ max t.state.lastTs t.state.firstTs := by
    intro isC2s hp
    obtain ⟨hfirst, hlast⟩ := (htimely.pieces isC2s).2 p hp
    exact ⟨hfirst, hlast.trans (le_max_left _ _)⟩
  rcases List.mem_append.mp hp with hp | hp
  · exact hbounds true hp
  · exact hbounds false hp

end Orderly

namespace Replay

variable [HuffmanDecoding] (seeds : Table (String × String) Seed)

/-! ## Replaying what was written -/

omit [HuffmanDecoding] in
/-- Counting frames and failures applies no snapshot. -/
theorem conns_seeded_counted (frames : List ProcessedFrame) (rep : Report) (n : Nat) :
    ((frames.foldl Report.countFrame rep).countFailures n).1.connsSeeded = rep.connsSeeded := by
  have hframes : (frames.foldl Report.countFrame rep).connsSeeded = rep.connsSeeded := by
    induction frames generalizing rep with
    | nil => rfl
    | cons f frames ih =>
        rw [List.foldl_cons, ih]
        unfold Report.countFrame
        split
        · rfl
        · split
          · split <;> rfl
          · rfl
  unfold Report.countFailures
  split <;> exact hframes

/-- A packet that finds a connection known from its SYN, or opens one with a bare SYN, applies no
snapshot. -/
theorem unseeded_step {r : Replay} (hseeded : r.report.connsSeeded = 0)
    (hsaw : ∀ k cs, r.conns.lookup k = some cs → cs.sawSyn = true) {packet : Packet}
    (hopens : ∀ seg, Pkt.parseEthernet packet.2 = some seg →
      r.conns.lookup (keyOf seg.src seg.dst) = none → seg.freshSyn = true) :
    (r.step seeds packet).1.report.connsSeeded = 0 ∧
      ∀ k cs, (r.step seeds packet).1.conns.lookup k = some cs → cs.sawSyn = true := by
  cases hseg : Pkt.parseEthernet packet.2 with
  | none =>
      rw [step_of_none seeds hseg]
      exact ⟨hseeded, hsaw⟩
  | some seg =>
      rw [step_of_segment seeds hseg]
      have hfound : (r.countPacket.found seg packet.1).sawSyn = true := by
        rcases found_cases r.countPacket seg packet.1 with ⟨hnew, hsyn | hnone⟩ | ⟨-, hlookup⟩
        · rw [hnew]
          exact hsyn
        · rw [hnew]
          exact hopens seg hseg hnone
        · exact hsaw _ _ hlookup
      have hinsert : ∀ cs : ConnState, cs.sawSyn = true →
          ∀ k cs', (r.conns.insert (keyOf seg.src seg.dst) cs).lookup k = some cs' →
            cs'.sawSyn = true := fun cs hcs => Table.lookup_insert_rule hcs hsaw
      have htouched : (r.countPacket.touched seeds seg packet.1).sawSyn = true := by
        rw [touched, ConnState.touch_saw_syn]
        exact hfound
      have hreport : (r.countPacket.touchedReport seeds seg packet.1).connsSeeded = 0 := by
        have hnone : ∀ (isC2s : Bool) (seed : Option Seed),
            ((r.countPacket.found seg packet.1).touch isC2s seed seg packet.1).2 = false := by
          intro isC2s seed
          simp only [ConnState.touch, DirState.seed, hfound, if_true]
          split <;> rfl
        rw [touchedReport, hnone]
        exact hseeded
      cases hpayload : seg.payload.isEmpty with
      | true =>
          rw [on_segment_of_empty seeds hpayload]
          exact ⟨hreport, hinsert _ htouched⟩
      | false =>
          rw [on_segment_of_payload seeds hpayload]
          refine ⟨(conns_seeded_counted _ _ _).trans hreport, hinsert _ ?_⟩
          rw [absorbed, ConnState.absorb_saw_syn]
          exact htouched

/-- Where every connection begins with its only bare SYN, no failures are removed. -/
theorem bounded_of_syn_first {packets : List Packet} (h : SynFirst packets) :
    (run (step seeds) start packets).1.FailuresBounded := by
  induction packets using List.reverseRecOn with
  | nil =>
      exact ⟨fun k cs hlookup => by simp [start, run] at hlookup, le_refl _,
        fun _ k cs hlookup => by simp [start, run] at hlookup⟩
  | append_singleton packets packet ih =>
      obtain ⟨hbefore, hlast⟩ := h.concat
      rw [run_concat_fst]
      refine (bounded_step seeds (ih hbefore) fun seg hseg hsyn cs hlookup => ?_).1
      have hopen := (count_order seeds packets (keyOf seg.src seg.dst)).2
      rw [hlookup, ← hlast seg hseg, hsyn] at hopen
      cases hopen

/-- Where every connection begins with its only bare SYN, no snapshot is applied: all connections
are known from their SYN. -/
theorem unseeded_of_syn_first {packets : List Packet} (h : SynFirst packets) :
    (run (step seeds) start packets).1.report.connsSeeded = 0 ∧
      ∀ k cs, (run (step seeds) start packets).1.conns.lookup k = some cs → cs.sawSyn = true := by
  induction packets using List.reverseRecOn with
  | nil => exact ⟨rfl, fun k cs hlookup => by simp [start, run] at hlookup⟩
  | append_singleton packets packet ih =>
      obtain ⟨hbefore, hlast⟩ := h.concat
      rw [run_concat_fst]
      refine unseeded_step seeds (ih hbefore).1 (ih hbefore).2 fun seg hseg hnone => ?_
      have hopen := (count_order seeds packets (keyOf seg.src seg.dst)).2
      rw [hnone] at hopen
      rw [hlast seg hseg]
      simpa using hopen

variable {mss : Nat} {taken : List Taken}

/-- The replay of what was written opens the same connections in the same order, and each of them is
replayed from its own packets, without failures and without a snapshot. -/
theorem reads_emitted (h : Orderly mss taken) :
    let r := (run (step seeds) start (emitted mss taken)).1
    r.order = taken.map Taken.key ∧ r.report.decodeFailures = 0 ∧ r.report.connsSeeded = 0 ∧
      ∀ t ∈ taken, ∃ cs, r.conns.lookup t.key = some cs ∧ cs.ReadAgain t := by
  intro r
  have hsyn := syn_first_emitted h.separated h.numbers h.within h.all_fit
  have horder : r.order = taken.map Taken.key :=
    (order_of_syn_first seeds hsyn).trans
      (syn_keys_emitted h.separated h.numbers h.sorted h.all_fit)
  -- apart from markers, each connection is what its own packets make of it
  have hreads : ∀ t ∈ taken, ∃ cs, (r.conns.lookup t.key).map ConnState.unmarked = some cs ∧
      cs.ReadAgain t := by
    intro t ht
    obtain ⟨now, htimely⟩ := h.timely t ht
    obtain ⟨cs, hcs, hread⟩ := ConnState.retraced seeds (h.sound t ht) htimely (h.readable t ht) mss
      t.conn (Emitter.start.nextSeq t.conn)
    refine ⟨cs, ?_, hread⟩
    have hlookup := lookup_run_unmarked seeds start t.key (emitted mss taken)
    rw [arrivals_on_emitted h.separated (h.numbers.inRange t ht) h.all_fit,
      conn_packets_of_within mss h.numbers ht (h.within t ht)] at hlookup
    exact hlookup.trans hcs
  have herrors : ∀ k cs, r.conns.lookup k = some cs → cs.decodeErrors = 0 := by
    intro k cs hlookup
    have hk : k ∈ taken.map Taken.key := by
      rw [← horder]
      exact List.count_pos_iff.mp (count_order_of_lookup seeds hlookup).1
    obtain ⟨t, ht, rfl⟩ := List.mem_map.mp hk
    obtain ⟨cs', hcs', hread⟩ := hreads t ht
    rw [hlookup, Option.map_some, Option.some.injEq] at hcs'
    have hdirs := hread.decodeErrors
    rw [← hcs'] at hdirs
    rw [ConnState.decode_errors_eq cs true]
    have hclient := hdirs true
    have hserver := hdirs false
    rw [ConnState.unmarked_dir] at hclient hserver
    exact Nat.add_eq_zero_iff.mpr ⟨hclient, hserver⟩
  have hnone : r.report.decodeFailures = 0 := by
    have hall : r.allErrors = 0 := Table.total_eq_zero ConnState.decodeErrors herrors
    exact Nat.le_zero.mp (hall ▸ (bounded_of_syn_first seeds hsyn).le_all)
  refine ⟨horder, hnone, (unseeded_of_syn_first seeds hsyn).1, fun t ht => ?_⟩
  obtain ⟨cs, hcs, hread⟩ := hreads t ht
  obtain ⟨cs', hlookup, rfl⟩ := Option.map_eq_some_iff.mp hcs
  rw [unmarked_of_no_failures seeds hnone hlookup] at hread
  exact ⟨cs', hlookup, hread⟩

end Replay

/-! ## Writing what was replayed -/

namespace ConnState

/-- What was written the same has the same frames. -/
theorem frames_of_written_as {ds ds' : DirState} (h : WrittenAs ds.out ds'.out) :
    ds'.frames = ds.frames := by
  unfold DirState.frames
  generalize ds.out = out at h
  generalize ds'.out = again at h
  induction h with
  | nil => rfl
  | cons hitem _ ih => rw [List.flatMap_cons, List.flatMap_cons, ih, hitem.1, hitem.2.frames_eq]

/-- A connection that was replayed from the packets of `t` is written with the same packets. -/
theorem ReadAgain.packets_eq {t : Taken} {cs : ConnState} (h : cs.ReadAgain t) (mss ci : Nat) :
    cs.packets mss ci = t.state.packets mss ci := by
  have hstream : ∀ isC2s, cs.stream isC2s = t.state.stream isC2s := by
    intro isC2s
    simp only [stream, frames_of_written_as (h.out isC2s), h.underway.firstTs]
  have hclosing : cs.closing ci = t.state.closing ci := by
    rw [closing, closing, h.underway.lastTs, h.underway.firstTs, max_assoc, max_self]
  have hhandshake : cs.handshake ci = t.state.handshake ci := by
    rw [handshake, handshake, h.underway.firstTs]
  rw [packets, packets, hclosing, hhandshake]
  simp only [segments, hstream]

end ConnState

/-- A connection that is written again as `again`: with the same number and the same endpoints. -/
structure Taken.WrittenAgain (t again : Taken) : Prop where
  conn : again.conn = t.conn
  c2s : again.c2s = t.c2s
  s2c : again.s2c = t.s2c
  state : again.state.ReadAgain t

/-- Connections that were replayed are taken out of the table as they were before. -/
theorem take_conns_again (ci : Nat) {keys : List Key} (hnodup : keys.Nodup)
    {conns : Table Key ConnState} {taken : List Taken}
    (hconns : taken.map Taken.conn = List.range' ci taken.length)
    (h : List.Forall₂ (fun k t => ∃ cs, conns.lookup k = some cs ∧ cs.ReadAgain t) keys taken) :
    List.Forall₂ Taken.WrittenAgain taken (takeConns ci keys conns) := by
  induction keys generalizing ci conns taken with
  | nil =>
      cases h
      exact List.Forall₂.nil
  | cons k keys ih =>
      obtain ⟨t, rest, ⟨cs, hlookup, hread⟩, hrest, rfl⟩ := List.forall₂_cons_left_iff.mp h
      obtain ⟨hfresh, hnodup⟩ := List.nodup_cons.mp hnodup
      rw [List.map_cons, List.length_cons, List.range'_succ, List.cons.injEq] at hconns
      have hc2s : cs.c2s.ep = some t.c2s := hread.underway.ep true
      have hs2c : cs.s2c.ep = some t.s2c := hread.underway.ep false
      have htaken : takeConns ci (k :: keys) conns =
          ⟨ci, cs, t.c2s, t.s2c⟩ :: takeConns (ci + 1) keys (conns.insert k cs.takeOut) := by
        rw [takeConns, hlookup]
        simp only [hc2s, hs2c, Option.some_or]
      rw [htaken]
      refine List.Forall₂.cons ⟨hconns.1.symm, rfl, rfl, hread⟩ (ih (ci + 1) hnodup hconns.2 ?_)
      refine ((List.forall₂_and_left _ _).mpr ⟨fun k' hk' => hk', hrest⟩).imp
        fun k' t' hboth => ?_
      obtain ⟨hk', cs', hlookup', hread'⟩ := hboth
      have hne : k' ≠ k := by
        rintro rfl
        exact hfresh hk'
      exact ⟨cs', by rw [AList.lookup_insert_ne hne, hlookup'], hread'⟩

/-- Connections that are written again give the same packets. -/
theorem emitted_again {taken again : List Taken} (h : List.Forall₂ Taken.WrittenAgain taken again)
    (mss : Nat) : emitted mss again = emitted mss taken := by
  have hpackets : again.flatMap (fun t => t.state.packets mss t.conn) =
      taken.flatMap fun t => t.state.packets mss t.conn := by
    induction h with
    | nil => rfl
    | cons ht _ ih => rw [List.flatMap_cons, List.flatMap_cons, ih, ht.conn, ht.state.packets_eq]
  have hsorted : sortedPackets mss again = sortedPackets mss taken := by
    rw [sortedPackets, sortedPackets, hpackets, h.length_eq]
  have hemit : Emitter.emit again = Emitter.emit taken := by
    funext e p
    have hplace := List.forall₂_iff_get.mp h
    unfold Emitter.emit
    cases htaken : taken[p.conn]? with
    | none =>
        have hrange : again.length ≤ p.conn := by
          rw [← h.length_eq]
          exact List.getElem?_eq_none_iff.mp htaken
        rw [List.getElem?_eq_none hrange]
    | some t =>
        obtain ⟨hrange, hget⟩ := List.getElem?_eq_some_iff.mp htaken
        have hrange' : p.conn < again.length := h.length_eq ▸ hrange
        have hagain := hplace.2 p.conn hrange hrange'
        simp only [List.get_eq_getElem, hget] at hagain
        rw [List.getElem?_eq_getElem hrange']
        simp only [hagain.c2s, hagain.s2c]
  rw [emitted, emitted, hsorted, hemit]

/-- The replay of what was written is written the same, in segments of any size. -/
theorem written_again [HuffmanDecoding] (seeds : Table (String × String) Seed) {mss : Nat}
    {taken : List Taken} (h : Orderly mss taken) (mss' : Nat) :
    writePcap mss' (run (Replay.step seeds) .start (emitted mss taken)).1 =
      emitted mss' taken := by
  obtain ⟨horder, -, -, hread⟩ := Replay.reads_emitted seeds h
  refine emitted_again (take_conns_again 0 ?_ h.numbered ?_) mss'
  · rw [horder]
    exact h.separated.nodup
  · rw [horder, List.forall₂_map_left_iff]
    exact List.forall₂_same.mpr hread

/-! ## From a replay to what it writes -/

namespace Replay

variable [HuffmanDecoding] (seeds : Table (String × String) Seed)

/-- A capture that can be rebuilt with nothing lost: its times never go back, every connection has
two addresses of its own, the frames that are written fit the packets, and the lengths of the fields
can be encoded. -/
structure Rebuildable (mss : Nat) (packets : List Packet) : Prop where
  times : packets.Pairwise fun p q => p.1 ≤ q.1
  alone : ∀ k cs, (run (step seeds) start packets).1.conns.lookup k = some cs →
    OpenedOnce k packets ∧ cs.client ≠ cs.server
  fits : ∀ k cs, (run (step seeds) start packets).1.conns.lookup k = some cs →
    ∀ isC2s, cs.FitsPackets mss isC2s
  encodable : ∀ k cs, (run (step seeds) start packets).1.conns.lookup k = some cs →
    ∀ isC2s, ∀ item ∈ (cs.dir isC2s).out, ∀ f ∈ item.2.fields, f.Encodable

/-- What was taken out of the table is what was in it. -/
theorem taken_of_alone {packets : List Packet}
    (halone : ∀ k cs, (run (step seeds) start packets).1.conns.lookup k = some cs →
      OpenedOnce k packets) :
    let r := (run (step seeds) start packets).1
    r.order.Nodup ∧ List.Forall₂ (fun k t => r.conns.lookup k = some t.state ∧
      (∀ isC2s, t.state.Sends isC2s (t.endpoint isC2s)) ∧ t.key = k)
      r.order (takeConns 0 r.order r.conns) := by
  intro r
  have htracks := tracks_run seeds packets
  have hbetween := between_run seeds packets
  have hcount : ∀ k ∈ r.order, r.order.count k = 1 := by
    intro k hk
    obtain ⟨cs, hlookup⟩ := Option.isSome_iff_exists.mp (htracks.order_opened k hk)
    exact (count_order_of_lookup seeds hlookup).2.mpr (halone k cs hlookup)
  have htaken : List.Forall₂ (TakenAt r.conns r.conns r.order) r.order
      (takeConns 0 r.order r.conns) := by
    refine take_conns_forall₂ 0 r.order r.conns fun k hk => ?_
    obtain ⟨cs, hcs⟩ := Option.isSome_iff_exists.mp (htracks.order_opened k hk)
    exact ⟨cs, hcs, hbetween k cs hcs, htracks.endpoints k cs hcs, Or.inl hcs⟩
  refine ⟨List.nodup_iff_count_le_one.mpr fun k => ?_, htaken.imp fun k t ht => ?_⟩
  · by_cases hk : k ∈ r.order
    · exact (hcount k hk).le
    · rw [List.count_eq_zero_of_not_mem hk]
      exact Nat.zero_le 1
  · have hstate := ht.state (hcount k ht.mem)
    obtain ⟨cs, hcs, hsends⟩ := ht.sends
    obtain rfl : cs = t.state := Option.some.inj (hcs.symm.trans hstate)
    refine ⟨hstate, hsends, ?_⟩
    have hclient : t.c2s.src = t.state.client := (hsends true).src
    have hserver : t.c2s.dst = t.state.server := (hsends true).dst
    rw [Taken.key, hclient, hserver]
    exact (hbetween k t.state hstate).key

/-- The connections of a capture that can be rebuilt are written so that they can be replayed. -/
theorem orderly_of_rebuildable {mss : Nat} {packets : List Packet}
    (h : Rebuildable seeds mss packets) :
    Orderly mss (takeConns 0 (run (step seeds) start packets).1.order
      (run (step seeds) start packets).1.conns) := by
  have htracks := tracks_run seeds packets
  obtain ⟨hnodup, htaken⟩ := taken_of_alone seeds fun k cs hlookup => (h.alone k cs hlookup).1
  have hnumbered := (take_conns_spec 0 _ _ htracks.endpoints htracks.order_opened).1
  have hstart : ∀ k cs, start.conns.lookup k = some cs → cs.Timely 0 := by
    intro k cs hlookup
    simp [start] at hlookup
  have hsorted : ((0, []) :: packets).Pairwise fun p q : Packet => p.1 ≤ q.1 :=
    List.pairwise_cons.mpr ⟨fun _ _ => Nat.zero_le _, h.times⟩
  obtain ⟨last, htimely⟩ := timely_run seeds hstart hsorted
  obtain ⟨-, -, hopened⟩ := opened_in_order_run seeds
    (⟨fun k cs hlookup => by simp [start] at hlookup, List.Pairwise.nil⟩ : start.OpenedInOrder 0)
    hsorted hnodup
  have hrange := in_range_run seeds packets
  obtain ⟨-, halone, hfits, hencodable⟩ := h
  generalize hr : (run (step seeds) start packets).1 = r at *
  generalize hall : takeConns 0 r.order r.conns = taken at *
  have hown : ∀ t ∈ taken, r.conns.lookup t.key = some t.state ∧
      ∀ isC2s, t.state.Sends isC2s (t.endpoint isC2s) := by
    intro t ht
    obtain ⟨i, hi, rfl⟩ := List.getElem_of_mem ht
    obtain ⟨hlookup, hsends, hkey⟩ := htaken.get (htaken.length_eq.symm ▸ hi) hi
    exact ⟨hkey ▸ hlookup, hsends⟩
  have hkeys : r.order = taken.map Taken.key := by
    have hsame : List.Forall₂ (· = ·) r.order (taken.map Taken.key) :=
      List.forall₂_map_right_iff.mpr (htaken.imp fun k t ht => ht.2.2.symm)
    rwa [List.forall₂_eq_eq_eq] at hsame
  refine ⟨⟨fun t ht isC2s => ((hown t ht).2 isC2s).version, fun t ht isC2s => ?_, hkeys ▸ hnodup⟩,
    ?_, fun t ht => ⟨(hown t ht).2, (halone _ _ (hown t ht).1).2⟩,
    fun t ht => ⟨last, htimely _ _ (hown t ht).1⟩, fun t ht isC2s item hitem => ?_, ?_,
    fun t ht isC2s => hfits _ _ (hown t ht).1 isC2s⟩
  · have hsends := (hown t ht).2
    cases isC2s with
    | true => rfl
    | false =>
        rw [(hsends false).src, (hsends false).dst, key_of_comm, Taken.key]
        exact congrArg₂ keyOf (hsends true).src.symm (hsends true).dst.symm
  · rw [hnumbered, htaken.length_eq]
  · have hlookup := (hown t ht).1
    exact ⟨(hrange _ _ hlookup isC2s).out item hitem,
      hencodable _ _ hlookup isC2s item hitem⟩
  · rw [hkeys] at hopened
    refine (List.pairwise_map.mp hopened).imp_of_mem fun {t u} ht hu hle => ?_
    exact hle _ _ (hown t ht).1 (hown u hu).1

end Replay

/-- A capture in which a block of each side fails can be rebuilt. -/
theorem Replay.rebuildable_failing :
    let _ := noHuffman.toHuffmanDecoding
    Rebuildable ∅ 1460 failingPackets := by
  intro _
  refine ⟨by decide +kernel, Table.forall_lookup_iff.mpr ?_, Table.forall_lookup_iff.mpr ?_,
    Table.forall_lookup_iff.mpr ?_⟩
  · decide +kernel
  · decide +kernel
  · decide +kernel

/-- The replay of a rebuilt capture has the connections of the original one, opened in the same
order, with the same addresses and times. No block fails, no snapshot is applied, and every item is
read as it was written: a frame as it is, and a header block with the same headers, all of them
known. -/
theorem reads_rebuilt [HuffmanDecoding] (snap : Option CaptureSnapshot) {mss : Nat}
    {packets : List Packet} (h : Replay.Rebuildable (snap.elim ∅ seedsOf) mss packets)
    (snap' : Option CaptureSnapshot) :
    let r := (run (Replay.step (snap.elim ∅ seedsOf)) .start packets).1
    let r' := (run (Replay.step (snap'.elim ∅ seedsOf)) .start (rebuild snap mss packets).2.1).1
    r'.order = r.order ∧ r'.report.decodeFailures = 0 ∧ r'.report.connsSeeded = 0 ∧
      ∀ k cs, r.conns.lookup k = some cs → ∃ cs', r'.conns.lookup k = some cs' ∧
        (cs'.client = cs.client ∧ cs'.server = cs.server ∧ cs'.firstTs = cs.firstTs ∧
          cs'.lastTs = max cs.lastTs cs.firstTs ∧ cs'.sawSyn = true) ∧
        ∀ isC2s, WrittenAs (cs.dir isC2s).out (cs'.dir isC2s).out ∧
          (cs'.dir isC2s).dir.decodeErrors = 0 ∧
          (cs'.dir isC2s).dir.snapshotMisaligned = false := by
  intro r r'
  obtain ⟨horder, hnone, hunseeded, hread⟩ := Replay.reads_emitted (snap'.elim ∅ seedsOf)
    (Replay.orderly_of_rebuildable _ h)
  obtain ⟨-, htaken⟩ := Replay.taken_of_alone (snap.elim ∅ seedsOf)
    fun k cs hlookup => (h.alone k cs hlookup).1
  have hkeys : r.order = (takeConns 0 r.order r.conns).map Taken.key := by
    have hsame : List.Forall₂ (· = ·) r.order ((takeConns 0 r.order r.conns).map Taken.key) :=
      List.forall₂_map_right_iff.mpr (htaken.imp fun k t ht => ht.2.2.symm)
    rwa [List.forall₂_eq_eq_eq] at hsame
  refine ⟨horder.trans hkeys.symm, hnone, hunseeded, fun k cs hlookup => ?_⟩
  have hk : k ∈ r.order :=
    List.count_pos_iff.mp (Replay.count_order_of_lookup (snap.elim ∅ seedsOf) hlookup).1
  obtain ⟨i, hi, rfl⟩ := List.getElem_of_mem hk
  have hi' : i < (takeConns 0 r.order r.conns).length := htaken.length_eq ▸ hi
  obtain ⟨hstate, -, hkey⟩ := htaken.get hi hi'
  obtain ⟨cs', hlookup', hagain⟩ := hread _ (List.getElem_mem hi')
  simp only [List.get_eq_getElem] at hstate hkey
  rw [hkey] at hlookup'
  obtain rfl : (takeConns 0 r.order r.conns)[i].state = cs :=
    Option.some.inj (hstate.symm.trans hlookup)
  have hunderway := hagain.underway
  exact ⟨cs', hlookup', ⟨hunderway.client, hunderway.server, hunderway.firstTs, hunderway.lastTs,
    hunderway.sawSyn⟩, fun isC2s => ⟨hagain.out isC2s, hagain.decodeErrors isC2s,
      (hagain.unseeded isC2s).1⟩⟩

/-- The marker of the failed block is read as a header block. -/
theorem reads_rebuilt_failing :
    let _ := noHuffman.toHuffmanDecoding
    (run (Replay.step ∅) .start
      (rebuild none 1460 failingPackets).2.1).1.report.decodeFailures = 0 := by
  intro _
  exact (reads_rebuilt none Replay.rebuildable_failing none).2.1

/-- Rebuilding a rebuilt capture, with or without a snapshot, gives the capture that rebuilding the
original one gives, whatever the sizes of the segments. -/
theorem rebuild_again [HuffmanDecoding] (snap : Option CaptureSnapshot) {mss : Nat}
    {packets : List Packet} (h : Replay.Rebuildable (snap.elim ∅ seedsOf) mss packets)
    (snap' : Option CaptureSnapshot) (mss' : Nat) :
    (rebuild snap' mss' (rebuild snap mss packets).2.1).2.1 = (rebuild snap mss' packets).2.1 :=
  written_again (snap'.elim ∅ seedsOf) (Replay.orderly_of_rebuildable _ h) mss'

/-- The rebuilt capture of the failing connection is a fixed point. -/
theorem rebuild_again_failing :
    let _ := noHuffman.toHuffmanDecoding
    (rebuild none 1460 (rebuild none 1460 failingPackets).2.1).2.1 =
      (rebuild none 1460 failingPackets).2.1 := by
  intro _
  exact rebuild_again none Replay.rebuildable_failing none 1460

end H2Tap
