import H2Tap.Address.Text
import H2Tap.Rebuild.Intact

/-!
# The JSON lines say what the rebuilt capture holds

Every decoded block is written twice, as a JSON line and as frames of the rebuilt capture, and
counted in the report. The lines that name a connection and a side are the blocks of that side in
the rebuilt capture (`json_lines_match`), with the blocks of the connections before them that
had the same addresses and the same client, of which the rebuilt capture has nothing left. The
counts of the report are those of the lines.
-/

namespace H2Tap

open Lib

/-- The block of an item that was decoded from the connection, not a marker. -/
def Normalized.decoded? : Normalized → Option DecodedBlock
  | .block blk => some blk
  | _ => none

namespace ConnState

/-- The name of a connection in the JSON lines. -/
def label (cs : ConnState) : String := s!"{cs.client.text}-{cs.server.text}"

/-- The lines that name a connection and a side of it. -/
def labels (cs : ConnState) (isC2s : Bool) (line : JsonRecord) : Bool :=
  line.conn == cs.label && line.isC2s == isC2s

/-- The blocks that the rebuilt capture has of a side, as JSON lines. -/
def lines (cs : ConnState) (isC2s : Bool) : List JsonRecord :=
  (cs.dir isC2s).out.filterMap fun item =>
    item.2.decoded?.map fun blk => ⟨item.1, cs.label, isC2s, blk⟩

theorem label_inj {cs cs' : ConnState} (h : cs.label = cs'.label) :
    cs.client = cs'.client ∧ cs.server = cs'.server :=
  SocketAddr.conn_text_inj h

/-- What a frame writes as a JSON line it writes to the rebuilt capture as well. -/
theorem json_record_eq (cs : ConnState) (isC2s : Bool) (ts : Nat) (f : ProcessedFrame) :
    cs.jsonRecord isC2s ts f =
      ((normalize f).bind Normalized.decoded?).map fun blk => ⟨ts, cs.label, isC2s, blk⟩ := by
  unfold jsonRecord normalize
  cases f.truncated with
  | true => rfl
  | false =>
      cases f.isHeaderFrame with
      | false => rfl
      | true => cases f.decoded <;> rfl

end ConnState

namespace Replay

/-- All JSON lines of a run. -/
def jsonLines (outs : List (Option Written × List JsonRecord)) : List JsonRecord :=
  outs.flatMap fun out => out.2

theorem json_lines_concat (outs : List (Option Written × List JsonRecord))
    (out : Option Written × List JsonRecord) :
    jsonLines (outs ++ [out]) = jsonLines outs ++ out.2 := by
  simp [jsonLines]

end Replay

/-! ## The counts -/

/-- The block of the line was decoded with a known table and without unresolved references. -/
def JsonRecord.isExact (line : JsonRecord) : Bool :=
  line.block.exact && line.block.unresolved == 0

/-- The counts of header blocks in a report are those of some JSON lines. -/
structure Report.Tallies (rep : Report) (lines : List JsonRecord) : Prop where
  headerBlocks : rep.headerBlocks = lines.length
  blocksExact : rep.blocksExact = lines.countP JsonRecord.isExact
  blocksPartial : rep.blocksPartial = lines.countP fun line => !line.isExact
  unresolvedRefs : rep.unresolvedRefs = (lines.map fun line => line.block.unresolved).sum

namespace Report.Tallies

variable {rep rep' : Report} {lines : List JsonRecord}

/-- The other counts make no difference. -/
theorem congr (h : rep.Tallies lines) (hblocks : rep'.headerBlocks = rep.headerBlocks)
    (hexact : rep'.blocksExact = rep.blocksExact)
    (hpart : rep'.blocksPartial = rep.blocksPartial)
    (hrefs : rep'.unresolvedRefs = rep.unresolvedRefs) : rep'.Tallies lines :=
  ⟨hblocks.trans h.headerBlocks, hexact.trans h.blocksExact, hpart.trans h.blocksPartial,
    hrefs.trans h.unresolvedRefs⟩

/-- A frame is counted as its line. -/
theorem count_frame (h : rep.Tallies lines) (cs : ConnState) (isC2s : Bool) (ts : Nat)
    (f : ProcessedFrame) :
    (rep.countFrame f).Tallies (lines ++ (cs.jsonRecord isC2s ts f).toList) := by
  unfold Report.countFrame ConnState.jsonRecord
  cases f.truncated with
  | true =>
      rw [if_pos rfl, Bool.true_or, if_pos rfl, Option.toList_none, List.append_nil]
      exact h.congr rfl rfl rfl rfl
  | false =>
      cases f.isHeaderFrame with
      | false => simpa using h
      | true =>
          cases f.decoded with
          | none => simpa using h
          | some blk =>
              obtain ⟨hblocks, hexact, hpart, hrefs⟩ := h
              generalize hline : (⟨ts, s!"{cs.client.text}-{cs.server.text}", isC2s, blk⟩ :
                JsonRecord) = line
              have hblk : line.block = blk := by rw [← hline]
              have hboth : (blk.exact && blk.unresolved == 0) = line.isExact := by
                rw [JsonRecord.isExact, hblk]
              simp only [Bool.false_or, Bool.not_true, Bool.false_eq_true, if_false, if_true,
                Option.map_some, hline, hboth]
              constructor
              · simp [hblocks]
              · cases hexactly : line.isExact <;> simp [hexact, hexactly]
              · cases hexactly : line.isExact <;> simp [hpart, hexactly]
              · simp [hrefs, hblk]

theorem count_frames (h : rep.Tallies lines) (cs : ConnState) (isC2s : Bool) (ts : Nat)
    (frames : List ProcessedFrame) :
    (frames.foldl Report.countFrame rep).Tallies
      (lines ++ frames.filterMap (cs.jsonRecord isC2s ts)) := by
  induction frames generalizing rep lines with
  | nil => simpa using h
  | cons f frames ih =>
      have hframes := ih (h.count_frame cs isC2s ts f)
      rw [List.append_assoc] at hframes
      rw [List.foldl_cons, List.filterMap_cons]
      cases hline : cs.jsonRecord isC2s ts f with
      | none =>
          rw [hline] at hframes
          exact hframes
      | some line =>
          rw [hline] at hframes
          exact hframes

/-- Failures are counted apart. -/
theorem count_failures (h : rep.Tallies lines) (failures : Nat) :
    (rep.countFailures failures).1.Tallies lines := by
  unfold Report.countFailures
  split
  · exact h.congr rfl rfl rfl rfl
  · exact h

end Report.Tallies

/-! ## The lines of a connection -/

namespace Replay

/-- The lines that were written name connections of the list, and those of a connection in the
table end in the blocks that it has written out; if its addresses were opened once, these are
all. -/
structure Lined (r : Replay) (lines : List JsonRecord) : Prop where
  named : ∀ line ∈ lines, ∃ cs : ConnState,
    line.conn = cs.label ∧ keyOf cs.client cs.server ∈ r.order
  listed : ∀ k cs, r.conns.lookup k = some cs → k ∈ r.order
  filed : ∀ k cs, r.conns.lookup k = some cs → keyOf cs.client cs.server = k
  written : ∀ k cs, r.conns.lookup k = some cs → ∀ isC2s,
    ∃ earlier, lines.filter (cs.labels isC2s) = earlier ++ cs.lines isC2s ∧
      (r.order.count k = 1 → earlier = [])

theorem lined_start : start.Lined [] where
  named := by simp
  listed := by simp [start]
  filed := by simp [start]
  written := by simp [start]

namespace Lined

variable {r : Replay} {lines : List JsonRecord}

/-- Lines of other addresses. -/
theorem filter_other {cs cs' : ConnState}
    (hother : keyOf cs'.client cs'.server ≠ keyOf cs.client cs.server) {later : List JsonRecord}
    (hlater : ∀ line ∈ later, line.conn = cs'.label) (isC2s : Bool) :
    later.filter (cs.labels isC2s) = [] := by
  refine List.filter_eq_nil_iff.mpr fun line hline hlabels => hother ?_
  have hlabel : line.conn = cs.label := by
    simp only [ConnState.labels, Bool.and_eq_true, beq_iff_eq] at hlabels
    exact hlabels.1
  obtain ⟨hclient, hserver⟩ := ConnState.label_inj ((hlater line hline).symm.trans hlabel)
  rw [hclient, hserver]

/-- What the lines so far say of the connection that a segment finds. -/
theorem found (h : r.Lined lines) (seg : EthSegment) (ts : Nat) :
    keyOf (r.found seg ts).client (r.found seg ts).server = keyOf seg.src seg.dst ∧
      ∀ isC2s, ∃ earlier,
        lines.filter ((r.found seg ts).labels isC2s) = earlier ++ (r.found seg ts).lines isC2s ∧
          ((r.orderAfter seg).count (keyOf seg.src seg.dst) = 1 → earlier = []) := by
  rcases found_cases r seg ts with ⟨hopened, hnew⟩ | ⟨hsyn, hlookup⟩
  · have hempty : ∀ isC2s, (r.found seg ts).lines isC2s = [] := by
      intro isC2s
      rw [hopened, ConnState.lines, (ConnState.opened_dir seg ts isC2s).2]
      rfl
    have hkey : keyOf (r.found seg ts).client (r.found seg ts).server = keyOf seg.src seg.dst := by
      rw [hopened]
      rfl
    refine ⟨hkey, fun isC2s => ⟨_, by rw [hempty, List.append_nil], fun honce => ?_⟩⟩
    have hopens : r.opens seg = true := by
      rcases hnew with hsyn | hnone
      · simp [opens, hsyn]
      · simp [opens, hnone]
    -- the addresses are new, so that no line can name them
    have hfresh : keyOf seg.src seg.dst ∉ r.order := by
      rw [orderAfter, if_pos hopens, List.count_append, List.count_singleton_self] at honce
      exact List.count_eq_zero.mp (by omega)
    refine List.filter_eq_nil_iff.mpr fun line hline hlabels => hfresh ?_
    obtain ⟨cs, hlabel, hmem⟩ := h.named line hline
    simp only [ConnState.labels, Bool.and_eq_true, beq_iff_eq] at hlabels
    obtain ⟨hclient, hserver⟩ := ConnState.label_inj (hlabel.symm.trans hlabels.1)
    rw [← hkey, ← hclient, ← hserver]
    exact hmem
  · have hsame : r.orderAfter seg = r.order := by simp [orderAfter, opens, hsyn, hlookup]
    rw [hsame]
    exact ⟨h.filed _ _ hlookup, h.written _ _ hlookup⟩

/-- A segment replaces the connection that it finds by one with the same name, and writes the same
blocks as lines and to the connection. -/
theorem insert (h : r.Lined lines) (seg : EthSegment) (ts : Nat) {cs : ConnState} {rep : Report}
    {side : Bool} {later : List JsonRecord} (hclient : cs.client = (r.found seg ts).client)
    (hserver : cs.server = (r.found seg ts).server)
    (hlater : ∀ line ∈ later, line.conn = cs.label ∧ line.isC2s = side)
    (hside : cs.lines side = (r.found seg ts).lines side ++ later)
    (hother : cs.lines (!side) = (r.found seg ts).lines (!side)) :
    Lined ⟨r.conns.insert (keyOf seg.src seg.dst) cs, r.orderAfter seg, rep⟩ (lines ++ later) := by
  obtain ⟨hkey, hfound⟩ := h.found seg ts
  have hlabels : ∀ isC2s, cs.labels isC2s = (r.found seg ts).labels isC2s := by
    intro isC2s
    unfold ConnState.labels ConnState.label
    rw [hclient, hserver]
  have hcskey : keyOf cs.client cs.server = keyOf seg.src seg.dst := by rw [hclient, hserver, hkey]
  have hgrows : ∀ k ∈ r.order, k ∈ r.orderAfter seg := by
    intro k hk
    unfold orderAfter
    split
    · exact List.mem_append_left _ hk
    · exact hk
  have hlisted : keyOf seg.src seg.dst ∈ r.orderAfter seg := by
    unfold orderAfter
    split
    · exact List.mem_append_right _ (List.mem_singleton_self _)
    · next hopens =>
        have hknown : (r.conns.lookup (keyOf seg.src seg.dst)).isNone = false := by
          cases hnone : (r.conns.lookup (keyOf seg.src seg.dst)).isNone with
          | true => exact absurd (by rw [opens, hnone, Bool.or_true]) hopens
          | false => rfl
        obtain ⟨known, hlookup⟩ :=
          Option.isSome_iff_exists.mp (Option.isNone_eq_false_iff.mp hknown)
        exact h.listed _ _ hlookup
  refine ⟨fun line hline => ?_, fun k cs' hlookup => ?_, fun k cs' hlookup => ?_,
    fun k cs' hlookup isC2s => ?_⟩
  · rcases List.mem_append.mp hline with hline | hline
    · obtain ⟨cs', hlabel, hmem⟩ := h.named line hline
      exact ⟨cs', hlabel, hgrows _ hmem⟩
    · exact ⟨cs, (hlater line hline).1, hcskey ▸ hlisted⟩
  · by_cases hk : k = keyOf seg.src seg.dst
    · exact hk ▸ hlisted
    · rw [AList.lookup_insert_ne hk] at hlookup
      exact hgrows _ (h.listed k cs' hlookup)
  · exact Table.lookup_insert_rule (P := fun k cs => keyOf cs.client cs.server = k) hcskey h.filed
      k cs' hlookup
  · by_cases hk : k = keyOf seg.src seg.dst
    · rw [hk, AList.lookup_insert] at hlookup
      obtain rfl := Option.some.inj hlookup
      obtain ⟨earlier, hbefore, honce⟩ := hfound isC2s
      refine ⟨earlier, ?_, fun hcount => honce (hk ▸ hcount)⟩
      rw [List.filter_append]
      rcases Bool.eq_or_eq_not isC2s side with rfl | rfl
      · have hall : later.filter (cs.labels isC2s) = later :=
          List.filter_eq_self.mpr fun line hline => by simp [ConnState.labels, hlater line hline]
        rw [hside, hall, ← List.append_assoc, ← hbefore, ← hlabels]
      · have hnone : later.filter (cs.labels (!side)) = [] :=
          List.filter_eq_nil_iff.mpr fun line hline => by
            simp [ConnState.labels, hlater line hline]
        rw [hother, hnone, ← hbefore, ← hlabels, List.append_nil]
    · rw [AList.lookup_insert_ne hk] at hlookup
      obtain ⟨earlier, hbefore, honce⟩ := h.written k cs' hlookup isC2s
      refine ⟨earlier, ?_, fun hcount => honce ?_⟩
      · have hother : keyOf cs.client cs.server ≠ keyOf cs'.client cs'.server := by
          rw [hcskey, h.filed k cs' hlookup]
          exact Ne.symm hk
        rw [List.filter_append, hbefore,
          filter_other hother fun line hline => (hlater line hline).1,
          List.append_nil]
      · rw [← hcount, orderAfter]
        split
        · rw [List.count_append, List.count_singleton, beq_false_of_ne (Ne.symm hk)]
          rfl
        · rfl

end Lined

variable [HuffmanDecoding] (seeds : Table (String × String) Seed)

omit [HuffmanDecoding] in
theorem touched_lines (r : Replay) (seg : EthSegment) (ts : Nat) (isC2s : Bool) :
    (r.touched seeds seg ts).lines isC2s = (r.found seg ts).lines isC2s := by
  have hlabel : (r.touched seeds seg ts).label = (r.found seg ts).label := by
    unfold ConnState.label touched
    rw [ConnState.touch_client, ConnState.touch_server]
  unfold ConnState.lines
  rw [hlabel]
  rcases Bool.eq_or_eq_not isC2s (r.sentByClient seg ts) with rfl | rfl
  · rw [touched, ConnState.touch_dir, ConnState.touched_dir_out]
  · rw [touched, ConnState.touch_dir_not]

/-- A segment writes the same blocks to its connection and as JSON lines. -/
theorem absorbed_lines (r : Replay) (seg : EthSegment) (ts : Nat) :
    (r.absorbed seeds seg ts).lines (r.sentByClient seg ts) =
        (r.found seg ts).lines (r.sentByClient seg ts) ++
          (r.fed seeds seg ts).2.filterMap
            ((r.touched seeds seg ts).jsonRecord (r.sentByClient seg ts) ts) ∧
      (r.absorbed seeds seg ts).lines (!r.sentByClient seg ts) =
        (r.found seg ts).lines (!r.sentByClient seg ts) := by
  have hlabel : (r.absorbed seeds seg ts).label = (r.touched seeds seg ts).label := by
    unfold ConnState.label absorbed
    rw [ConnState.absorb_client, ConnState.absorb_server]
  constructor
  · rw [← touched_lines seeds]
    unfold ConnState.lines
    rw [hlabel, absorbed, ConnState.absorb_dir, List.filterMap_append, List.filterMap_map, writes,
      List.filterMap_append, List.filterMap_filterMap]
    congr 1
    have hmarkers : ∀ n, (List.replicate n Normalized.failed).filterMap
        ((fun item : Nat × Normalized => item.2.decoded?.map fun blk =>
          (⟨item.1, (r.touched seeds seg ts).label, r.sentByClient seg ts, blk⟩ : JsonRecord)) ∘
            fun item => (ts, item)) = [] := by
      intro n
      induction n with
      | zero => rfl
      | succ n ih => rw [List.replicate_succ, List.filterMap_cons_none rfl, ih]
    rw [hmarkers, List.append_nil]
    refine List.filterMap_congr fun f _ => ?_
    rw [ConnState.json_record_eq]
    cases normalize f <;> rfl
  · rw [← touched_lines seeds]
    unfold ConnState.lines
    rw [hlabel, absorbed, ConnState.absorb_dir_not]

/-- Every packet keeps the lines and the connections together. -/
theorem lined_step {r : Replay} {lines : List JsonRecord} (h : r.Lined lines) (packet : Packet) :
    (r.step seeds packet).1.Lined (lines ++ (r.step seeds packet).2.2) := by
  cases hseg : Pkt.parseEthernet packet.2 with
  | none =>
      rw [step_of_none seeds hseg, List.append_nil]
      exact ⟨h.named, h.listed, h.filed, h.written⟩
  | some seg =>
      have hcount : r.countPacket.Lined lines := ⟨h.named, h.listed, h.filed, h.written⟩
      rw [step_of_segment seeds hseg]
      cases hpayload : seg.payload.isEmpty with
      | true =>
          rw [on_segment_of_empty seeds hpayload]
          have hsame : ∀ isC2s, (r.countPacket.touched seeds seg packet.1).lines isC2s =
              (r.countPacket.found seg packet.1).lines isC2s :=
            touched_lines seeds r.countPacket seg packet.1
          exact hcount.insert seg packet.1 (ConnState.touch_client _ _ _ _ _)
            (ConnState.touch_server _ _ _ _ _) (fun _ hline => absurd hline (List.not_mem_nil))
            ((hsame true).trans (List.append_nil _).symm) (hsame false)
      | false =>
          rw [on_segment_of_payload seeds hpayload]
          obtain ⟨hside, hother⟩ := absorbed_lines seeds r.countPacket seg packet.1
          refine hcount.insert seg packet.1 ?_ ?_ ?_ hside hother
          · rw [absorbed, ConnState.absorb_client]
            exact ConnState.touch_client _ _ _ _ _
          · rw [absorbed, ConnState.absorb_server]
            exact ConnState.touch_server _ _ _ _ _
          · intro line hline
            obtain ⟨f, -, hf⟩ := List.mem_filterMap.mp hline
            rw [ConnState.json_record_eq] at hf
            obtain ⟨blk, -, rfl⟩ := Option.map_eq_some_iff.mp hf
            refine ⟨?_, rfl⟩
            unfold ConnState.label absorbed
            rw [ConnState.absorb_client, ConnState.absorb_server]

theorem tallies_step {r : Replay} {lines : List JsonRecord} (h : r.report.Tallies lines)
    (packet : Packet) :
    (r.step seeds packet).1.report.Tallies (lines ++ (r.step seeds packet).2.2) := by
  cases hseg : Pkt.parseEthernet packet.2 with
  | none =>
      rw [step_of_none seeds hseg, List.append_nil]
      exact h.congr rfl rfl rfl rfl
  | some seg =>
      rw [step_of_segment seeds hseg]
      have htouched : (r.countPacket.touchedReport seeds seg packet.1).Tallies lines :=
        h.congr rfl rfl rfl rfl
      cases hpayload : seg.payload.isEmpty with
      | true =>
          rw [on_segment_of_empty seeds hpayload, List.append_nil]
          exact htouched
      | false =>
          rw [on_segment_of_payload seeds hpayload]
          exact (htouched.count_frames _ _ _ _).count_failures _

omit [HuffmanDecoding] in
/-- What is counted of the connections when the loop is over has nothing to do with blocks. -/
theorem tallies_final {r : Replay} {lines : List JsonRecord} (h : r.report.Tallies lines) :
    r.finalReport.Tallies lines := by
  unfold finalReport
  generalize r.order.filterMap (fun k => r.conns.lookup k) = conns
  generalize r.report = rep at h
  induction conns generalizing rep with
  | nil => exact h
  | cons cs conns ih => exact ih _ (h.congr rfl rfl rfl rfl)

theorem lined_run (packets : List Packet) :
    let r := run (step seeds) start packets
    r.1.Lined (jsonLines r.2) ∧ r.1.report.Tallies (jsonLines r.2) := by
  induction packets using List.reverseRecOn with
  | nil => exact ⟨lined_start, rfl, rfl, rfl, rfl⟩
  | append_singleton packets packet ih =>
      obtain ⟨hlined, htallies⟩ := ih
      rw [run_append]
      dsimp only [run]
      rw [json_lines_concat]
      exact ⟨lined_step seeds hlined packet, tallies_step seeds htallies packet⟩

/-- The report counts the JSON lines. The lines that name a connection and a side end in the blocks
that the rebuilt capture has of it, and if its addresses were opened once there are no others. -/
theorem json_lines_match (packets : List Packet) :
    let r := run (step seeds) start packets
    let lines := jsonLines r.2
    r.1.finalReport.Tallies lines ∧
      ∀ k cs, r.1.conns.lookup k = some cs → ∀ isC2s,
        cs.lines isC2s <:+ lines.filter (cs.labels isC2s) ∧
          (OpenedOnce k packets → lines.filter (cs.labels isC2s) = cs.lines isC2s) := by
  intro r lines
  obtain ⟨hlined, htallies⟩ := lined_run seeds packets
  refine ⟨tallies_final htallies, fun k cs hlookup isC2s => ?_⟩
  obtain ⟨earlier, hwritten, honce⟩ := hlined.written k cs hlookup isC2s
  refine ⟨⟨earlier, hwritten.symm⟩, fun hopened => ?_⟩
  have hcount := (count_order_of_lookup seeds hlookup).2.mpr hopened
  exact hwritten.trans (by rw [honce hcount, List.nil_append])

end Replay

end H2Tap
