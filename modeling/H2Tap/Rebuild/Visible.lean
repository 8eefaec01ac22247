import H2Tap.Rebuild.Ledger

/-!
# Nothing vanishes

A replay is watched together with the ledger of one side of two addresses. `nothing_vanishes` says
under which packets nothing that the capture holds is hidden: neither a hole, nor a complete frame
of the side that is missing from the output.
-/

namespace H2Tap

open Lib

/-- A replay with the ledger of a side. -/
structure SideWatch where
  replay : Replay
  ledger : Ledger

namespace Report

/-- A dropped frame is counted. -/
theorem frames_dropped_of_mem {frames : List ProcessedFrame} {pf : ProcessedFrame}
    (hmem : pf ∈ frames) (htruncated : pf.truncated = true) (rep : Report) :
    0 < (frames.foldl countFrame rep).framesDropped := by
  obtain ⟨before, after, rfl⟩ := List.append_of_mem hmem
  rw [List.foldl_append, List.foldl_cons]
  refine lt_of_lt_of_le ?_ (counts_on_frames after _).framesDropped
  rw [countFrame, if_pos htruncated]
  exact Nat.succ_pos _

/-- A failure is counted, in one direction or the other. -/
theorem decode_failures_of_failures {n : Nat} (h : 0 < n) (rep : Report) :
    0 < (rep.countFailures n).1.decodeFailures := by
  unfold countFailures
  split
  · exact h
  · next hmore => exact lt_of_lt_of_le h (not_lt.mp hmore)

/-- Nothing is marked without a failure that is counted. -/
theorem no_markers {rep : Report} {n : Nat} (h : ¬ (rep.countFailures n).1.LossCounted) :
    (rep.countFailures n).2 = 0 := by
  have hnone : ¬ 0 < n := fun hn => h (Or.inl (decode_failures_of_failures hn rep))
  unfold countFailures
  split
  · next hmore => exact absurd (Nat.zero_lt_of_lt hmore) hnone
  · rfl

end Report

namespace Replay

/-- A loss of a direction is counted when the loop is over. -/
theorem shows_loss_of_own_loss {r : Replay} {k : Key} {cs : ConnState} (hk : k ∈ r.order)
    (hlookup : r.conns.lookup k = some cs) {isC2s : Bool} (hloss : (cs.dir isC2s).dir.OwnLoss) :
    r.finalReport.ShowsLoss := by
  have hmem : cs ∈ r.order.filterMap fun k => r.conns.lookup k :=
    List.mem_filterMap.mpr ⟨k, hk, hlookup⟩
  obtain ⟨before, after, hconns⟩ := List.append_of_mem hmem
  have hmore : ∀ (conns : List ConnState) (rep : Report),
      rep.connsMisaligned ≤ (conns.foldl countConn rep).connsMisaligned ∧
        rep.preSnapshotBytes ≤ (conns.foldl countConn rep).preSnapshotBytes := by
    intro conns
    induction conns with
    | nil => exact fun rep => ⟨le_refl _, le_refl _⟩
    | cons cs conns ih =>
        intro rep
        obtain ⟨hmisaligned, hbytes⟩ := ih (countConn rep cs)
        exact ⟨le_trans (Nat.le_add_right _ _) hmisaligned, le_trans (Nat.le_add_right _ _) hbytes⟩
  rw [finalReport, hconns, List.foldl_append, List.foldl_cons]
  generalize before.foldl countConn r.report = rep
  obtain ⟨hmisaligned, hbytes⟩ := hmore after (countConn rep cs)
  rcases hloss with hskipped | hmisfit
  · refine Or.inr (Or.inr (Or.inr (Or.inl (lt_of_lt_of_le ?_ hbytes))))
    have hsum : (cs.dir isC2s).dir.preSnapshotSkipped ≤
        cs.c2s.dir.preSnapshotSkipped + (cs.s2c.dir.preSnapshotSkipped + 0) := by
      cases isC2s
      · exact Nat.le_add_left _ _
      · exact Nat.le_add_right _ _
    exact lt_of_lt_of_le hskipped (hsum.trans (Nat.le_add_left _ _))
  · refine Or.inr (Or.inr (Or.inl (lt_of_lt_of_le ?_ hmisaligned)))
    have hany : (cs.c2s.dir.snapshotMisaligned || cs.s2c.dir.snapshotMisaligned) = true := by
      cases isC2s
      · exact Bool.or_eq_true_iff.mpr (Or.inr hmisfit)
      · exact Bool.or_eq_true_iff.mpr (Or.inl hmisfit)
    show 0 < rep.connsMisaligned + _
    rw [hany]
    exact Nat.succ_pos _

section

variable [HuffmanDecoding] {seeds : Table (String × String) Seed} {r : Replay} {seg : EthSegment}
  {ts : Nat}

/-- What a feed reports is counted at once, but for a loss of the direction's own. -/
theorem own_loss_of_feed (hnone : ¬ (r.failures seeds seg ts).1.LossCounted)
    (h : Direction.FeedShowsLoss (r.fed seeds seg ts)) : (r.fed seeds seg ts).1.OwnLoss := by
  rcases h with ⟨pf, hpf, htruncated⟩ | herrors | hloss
  · have hdropped := Report.frames_dropped_of_mem hpf htruncated (r.touchedReport seeds seg ts)
    exact absurd ((Report.counts_on_failures _ _).loss_counted (Or.inr (Or.inl hdropped))) hnone
  · exact absurd (Or.inl (Report.decode_failures_of_failures herrors _)) hnone
  · exact hloss

/-- Without a loss that is counted, only frames and blocks are written. -/
theorem writes_of_no_loss (hnone : ¬ (r.failures seeds seg ts).1.LossCounted) :
    r.writes seeds seg ts = (r.fed seeds seg ts).2.filterMap normalize := by
  have hmarkers : (r.failures seeds seg ts).2 = 0 := Report.no_markers hnone
  rw [writes, hmarkers, List.replicate_zero, List.append_nil]

end

/-- What is written for `src` in its connection with `dst`. -/
def written (r : Replay) (src dst : SocketAddr) : List Normalized :=
  match r.conns.lookup (keyOf src dst) with
  | none => []
  | some cs => (cs.dir (src == cs.client)).out.map Prod.snd

end Replay

/-- A connection between `src` and `dst` that keeps what is due for `src`. -/
structure ConnState.KeepsSide [HuffmanDecoding] (cs : ConnState) (src dst : SocketAddr)
    (first : Int) (log : SideLog) : Prop where
  client : cs.client = src ∨ cs.client = dst
  kept : (cs.dir (src == cs.client)).Kept first log cs.sawSyn

namespace SideWatch

/-- The watch before the first packet. -/
def start : SideWatch := ⟨.start, .start⟩

/-- One packet. -/
def step [HuffmanDecoding] (seeds : Table (String × String) Seed) (src dst : SocketAddr)
    (w : SideWatch) (packet : Packet) : SideWatch × Unit :=
  (⟨(w.replay.step seeds packet).1, w.ledger.note src dst packet⟩, ())

/-- The frames do not end inside a header block. -/
def BlocksEnded (w : SideWatch) (first : Nat → Int) : Prop :=
  openBlock (w.ledger.frames first) = none

/-- What is due for the complete frames of the side is written, or the report shows a loss. -/
def FramesVisible [HuffmanDecoding] (w : SideWatch) (src dst : SocketAddr) (first : Nat → Int) :
    Prop :=
  ¬ w.replay.finalReport.ShowsLoss →
    List.Forall₂ Shows (w.ledger.due first) (w.replay.written src dst)

section

variable (seeds : Table (String × String) Seed) (src dst : SocketAddr) (first : Nat → Int)

/-- A bare SYN ends no connection in which the side has a complete frame. The payload of a segment
of the side does not start after the next expected byte, and the direction goes on reading from the
first frame on, unless it has a loss of its own. -/
def KeepsFramesOf (w : SideWatch) (seg : EthSegment) (ts : Nat) : Prop :=
  let d := ((w.replay.touched seeds seg ts).dir (w.replay.sentByClient seg ts)).dir
  let renewed := w.ledger.renew src seg
  (seg.freshSyn = true → w.ledger.frames first = []) ∧
    (seg.src = src → seg.payload.isEmpty = false →
      d.OwnLoss ∨ w.replay.NotAheadOf seeds seg ts ∧
        d.KeepsFrames (renewed.origin first) renewed.log (renewed.log.add seg.toTcpSegment)
          seg.toTcpSegment)

/-- A packet makes no frame of the side vanish, or something else was lost before it. -/
def KeepsFrames (w : SideWatch) (packet : Packet) : Prop :=
  w.replay.report.LossCounted ∨
    match segmentOn (keyOf src dst) packet with
    | none => True
    | some seg => w.KeepsFramesOf seeds src first seg packet.1

instance (w : SideWatch) (seg : EthSegment) (ts : Nat) :
    Decidable (w.KeepsFramesOf seeds src first seg ts) := by
  have hnone : Decidable (w.ledger.frames first = []) := decidable_of_iff _ List.isEmpty_iff
  unfold KeepsFramesOf
  infer_instance

instance (w : SideWatch) (packet : Packet) :
    Decidable (w.KeepsFrames seeds src dst first packet) := by
  unfold KeepsFrames
  refine @instDecidableOr _ _ inferInstance ?_
  split <;> infer_instance

end

end SideWatch

/-! ## One segment -/

section

variable [HuffmanDecoding] {src dst : SocketAddr} {seg : EthSegment} {ts : Nat}

omit [HuffmanDecoding] in
/-- The direction of `src` is the one of the sender, or the other one. -/
theorem side_of_key (hkey : keyOf seg.src seg.dst = keyOf src dst) {client : SocketAddr}
    (hclient : client = src ∨ client = dst) (hother : seg.src ≠ src) :
    (src == client) = !(seg.src == client) := by
  have hsrc : seg.src = dst := by
    rcases key_of_eq_iff.mp hkey with ⟨hsame, -⟩ | ⟨hsrc, -⟩
    · exact absurd hsame hother
    · exact hsrc
  rw [hsrc] at hother ⊢
  rcases hclient with rfl | rfl
  · rw [beq_self_eq_true, beq_false_of_ne hother]
    rfl
  · rw [beq_self_eq_true, beq_false_of_ne (Ne.symm hother)]
    rfl

namespace ConnState

variable {cs : ConnState} {first : Int} {log : SideLog}

/-- The direction of `src` after it is touched: seeded, and with the SYN noted. -/
theorem KeepsSide.touched_dir (h : cs.KeepsSide src dst first log) (hsrc : seg.src = src)
    (seed : Option Seed) : ∃ ds : DirState, ds.seeded = true ∧
      (ds.dir.OwnLoss ∨ ds.UpToDate first log) ∧
      cs.touchedDir (seg.src == cs.client) seed seg = ds.noteSyn seg := by
  have hkept := h.kept
  rw [← hsrc] at hkept
  obtain ⟨hseeded, hup⟩ := hkept.seed seed seg
  exact ⟨_, hseeded, hup, rfl⟩

/-- A segment of the other side, before its payload is looked at. -/
theorem KeepsSide.touch_other (h : cs.KeepsSide src dst first log)
    (hkey : keyOf seg.src seg.dst = keyOf src dst) (hother : seg.src ≠ src) (seed : Option Seed)
    (ts : Nat) :
    (cs.touch (seg.src == cs.client) seed seg ts).1.KeepsSide src dst first log := by
  have hside := side_of_key hkey h.client hother
  have hkept := h.kept
  rw [hside] at hkept
  refine ⟨by rw [touch_client]; exact h.client, ?_⟩
  rw [touch_client, touch_saw_syn, hside, touch_dir_not]
  exact hkept

/-- And with the payload. -/
theorem KeepsSide.absorb_other (h : cs.KeepsSide src dst first log)
    (hkey : keyOf seg.src seg.dst = keyOf src dst) (hother : seg.src ≠ src)
    (fed : Direction × List ProcessedFrame) (ts : Nat) (items : List Normalized) :
    (cs.absorb (seg.src == cs.client) fed ts items).KeepsSide src dst first log := by
  have hside := side_of_key hkey h.client hother
  have hkept := h.kept
  rw [hside] at hkept
  refine ⟨by rw [absorb_client]; exact h.client, ?_⟩
  rw [absorb_client, absorb_saw_syn, hside, absorb_dir_not]
  exact hkept.peer_capacities (Direction.settingsSizes fed.2)

/-- A segment of the side itself without a payload. -/
theorem KeepsSide.touch_same (h : cs.KeepsSide src dst first log) (hsrc : seg.src = src)
    (hempty : seg.payload = []) (seed : Option Seed) (ts : Nat) :
    (cs.touch (seg.src == cs.client) seed seg ts).1.KeepsSide src dst first
      (log.add seg.toTcpSegment) := by
  obtain ⟨ds, hseeded, hup, htouched⟩ := h.touched_dir hsrc seed
  refine ⟨by rw [touch_client]; exact h.client, ?_⟩
  rw [touch_client, touch_saw_syn, ← hsrc, touch_dir, htouched]
  refine ⟨hup.imp (fun hloss => ?_) fun hdate => hdate.touch hempty, fun hfalse => ?_⟩
  · rw [DirState.note_syn_eq]
    exact hloss
  · rw [DirState.note_syn_eq] at hfalse
    rw [hseeded] at hfalse
    cases hfalse

end ConnState

namespace SideWatch

/-- The watch accounts for the side: nothing is due for connections that were ended, and what is due
for the current one is kept. -/
structure Accounts (src dst : SocketAddr) (first : Nat → Int) (w : SideWatch) : Prop where
  past : w.ledger.PastClear first
  unused : w.replay.conns.lookup (keyOf src dst) = none → w.ledger.log = .new false
  listed : ∀ cs, w.replay.conns.lookup (keyOf src dst) = some cs → keyOf src dst ∈ w.replay.order
  kept : ∀ cs, w.replay.conns.lookup (keyOf src dst) = some cs →
    cs.KeepsSide src dst (w.ledger.origin first) w.ledger.log

theorem accounts_start (src dst : SocketAddr) (first : Nat → Int) :
    start.Accounts src dst first := by
  have hnone : ∀ k, start.replay.conns.lookup k = none := fun _ => rfl
  refine ⟨fun log hlog => (by cases hlog), fun _ => rfl, fun cs hlookup => ?_,
    fun cs hlookup => ?_⟩ <;>
  · rw [hnone] at hlookup
    cases hlookup

variable {first : Nat → Int} {w : SideWatch}

/-- The connection that a segment finds or opens. -/
theorem Accounts.found (h : w.Accounts src dst first)
    (hkey : keyOf seg.src seg.dst = keyOf src dst) (ts : Nat) :
    (w.replay.found seg ts).KeepsSide src dst ((w.ledger.renew src seg).origin first)
      (w.ledger.renew src seg).log := by
  rcases Replay.found_cases w.replay seg ts with ⟨hopened, hwhy⟩ | ⟨hsyn, hlookup⟩
  · have hlog : (w.ledger.renew src seg).log = .new (seg.freshSyn && src == seg.src) := by
      unfold Ledger.renew
      cases hsyn : seg.freshSyn with
      | true => rfl
      | false =>
          have hnone := hwhy.resolve_left (by rw [hsyn]; exact Bool.false_ne_true)
          rw [hkey] at hnone
          exact h.unused hnone
    rw [hopened, hlog]
    exact ⟨(key_of_eq_iff.mp hkey).imp And.left And.left, DirState.kept_opened _ src seg ts⟩
  · have hsame : w.ledger.renew src seg = w.ledger := by
      rw [Ledger.renew, hsyn, if_neg Bool.false_ne_true]
    rw [hsame]
    exact h.kept _ (hkey ▸ hlookup)

/-- A payload of the side: what is due for it is kept, or a loss is counted. -/
theorem Accounts.absorbed {seeds : Table (String × String) Seed} (h : w.Accounts src dst first)
    (hkey : keyOf seg.src seg.dst = keyOf src dst) (hsrc : seg.src = src)
    (hpayload : seg.payload.isEmpty = false) (hkeeps : w.KeepsFramesOf seeds src first seg ts)
    (hnone : ¬ (w.replay.failures seeds seg ts).1.LossCounted) :
    (w.replay.absorbed seeds seg ts).KeepsSide src dst ((w.ledger.renew src seg).origin first)
      ((w.ledger.renew src seg).log.add seg.toTcpSegment) := by
  have hfound := h.found hkey ts
  obtain ⟨ds, hseeded, hup, htouched⟩ :=
    hfound.touched_dir hsrc (seeds.lookup (seg.src.text, seg.dst.text))
  have hdir : (w.replay.touched seeds seg ts).dir (w.replay.sentByClient seg ts) =
      ds.noteSyn seg := by
    rw [Replay.touched, ConnState.touch_dir]
    exact htouched
  have hfed : w.replay.fed seeds seg ts =
      (ds.noteSyn seg).dir.feed seg.seq seg.payload ts := by rw [Replay.fed, hdir]
  have hclient : (w.replay.absorbed seeds seg ts).client = (w.replay.found seg ts).client := by
    rw [Replay.absorbed, ConnState.absorb_client, Replay.touched, ConnState.touch_client]
  have hside : (src == (w.replay.absorbed seeds seg ts).client) =
      w.replay.sentByClient seg ts := by rw [hclient, ← hsrc, Replay.sentByClient]
  refine ⟨hclient.symm ▸ hfound.client, ?_⟩
  rw [hside, Replay.absorbed, ConnState.absorb_dir, hdir, Replay.writes_of_no_loss hnone, hfed]
  constructor
  · -- a loss of its own is never taken back
    have hlost (hloss : (ds.noteSyn seg).dir.OwnLoss) :
        ((ds.noteSyn seg).dir.feed seg.seq seg.payload ts).1.OwnLoss :=
      Direction.own_loss_feed hloss _ _ _
    rcases hkeeps.2 hsrc hpayload with hloss | ⟨hahead, hframes⟩
    · rw [hdir] at hloss
      exact Or.inl (hlost hloss)
    · rcases hup with hloss | hup
      · refine Or.inl (hlost ?_)
        rw [DirState.note_syn_eq]
        exact hloss
      · have hnot := hahead.resolve_left (by rw [hpayload]; exact Bool.false_ne_true)
        have hne : seg.payload ≠ [] := by rwa [Bool.eq_false_iff, Ne, List.isEmpty_iff] at hpayload
        rw [hdir] at hnot hframes
        rcases hup.feed hne hnot hframes ts with hloss | hdate
        · rw [← hfed] at hloss ⊢
          exact Or.inl (Replay.own_loss_of_feed hnone hloss)
        · exact Or.inr hdate
  · intro hfalse
    rw [DirState.note_syn_eq] at hfalse
    rw [hseeded] at hfalse
    cases hfalse

/-- The connection after a segment, back in the table. -/
theorem Accounts.insert (h : w.Accounts src dst first)
    (hkey : keyOf seg.src seg.dst = keyOf src dst) {ledger : Ledger}
    (hpast : ledger.PastClear first) {cs : ConnState}
    (hkept : cs.KeepsSide src dst (ledger.origin first) ledger.log) (report : Report) :
    Accounts src dst first ⟨⟨w.replay.conns.insert (keyOf seg.src seg.dst) cs,
      w.replay.orderAfter seg, report⟩, ledger⟩ := by
  have hlookup : (w.replay.conns.insert (keyOf seg.src seg.dst) cs).lookup (keyOf src dst) =
      some cs := by
    rw [hkey]
    exact AList.lookup_insert _
  refine ⟨hpast, fun hnone => ?_, fun cs' _ => ?_, fun cs' hsome => ?_⟩
  · rw [hlookup] at hnone
    cases hnone
  · -- the addresses are listed when the connection opens, and stay listed
    show keyOf src dst ∈ w.replay.orderAfter seg
    unfold Replay.orderAfter
    split
    · rw [hkey]
      exact List.mem_append_right _ List.mem_cons_self
    · next hopens =>
        cases hbefore : w.replay.conns.lookup (keyOf src dst) with
        | none =>
            rw [Replay.opens, hkey, hbefore, Option.isNone_none, Bool.or_true] at hopens
            exact absurd rfl hopens
        | some cs => exact h.listed cs hbefore
  · rw [hlookup] at hsome
    obtain rfl := Option.some.inj hsome
    exact hkept

/-- A segment between other addresses. -/
theorem Accounts.of_other (h : w.Accounts src dst first)
    (hkey : keyOf seg.src seg.dst ≠ keyOf src dst) (cs : ConnState) (report : Report) :
    Accounts src dst first ⟨⟨w.replay.conns.insert (keyOf seg.src seg.dst) cs,
      w.replay.orderAfter seg, report⟩, w.ledger⟩ := by
  have hlookup : (w.replay.conns.insert (keyOf seg.src seg.dst) cs).lookup (keyOf src dst) =
      w.replay.conns.lookup (keyOf src dst) := AList.lookup_insert_ne (Ne.symm hkey)
  refine ⟨h.past, fun hnone => h.unused (hlookup.symm.trans hnone), fun cs hsome => ?_,
    fun cs hsome => h.kept cs (hlookup.symm.trans hsome)⟩
  have hmem := h.listed cs (hlookup.symm.trans hsome)
  show keyOf src dst ∈ w.replay.orderAfter seg
  unfold Replay.orderAfter
  split
  · exact List.mem_append_left _ hmem
  · exact hmem

variable {seeds : Table (String × String) Seed}

/-- A segment between the two addresses. -/
theorem Accounts.on_segment (h : w.Accounts src dst first)
    (hkey : keyOf seg.src seg.dst = keyOf src dst)
    (hkeeps : w.KeepsFramesOf seeds src first seg ts) :
    let renewed := w.ledger.renew src seg
    (w.replay.onSegment seeds seg ts).1.report.LossCounted ∨
      Accounts src dst first ⟨(w.replay.onSegment seeds seg ts).1,
        if seg.src = src then { renewed with log := renewed.log.add seg.toTcpSegment }
        else renewed⟩ := by
  intro renewed
  have hpast : renewed.PastClear first := h.past.renew hkeeps.1
  have hfound := h.found hkey ts
  cases hpayload : seg.payload.isEmpty with
  | true =>
      rw [Replay.on_segment_of_empty seeds hpayload]
      refine Or.inr ?_
      split
      · next hsrc =>
          have htouched := hfound.touch_same hsrc (List.isEmpty_iff.mp hpayload)
            (seeds.lookup (seg.src.text, seg.dst.text)) ts
          refine h.insert hkey ?_ ?_ _
          · exact hpast
          · exact htouched
      · next hother => exact h.insert hkey hpast (hfound.touch_other hkey hother _ ts) _
  | false =>
      rw [Replay.on_segment_of_payload seeds hpayload]
      by_cases hloss : (w.replay.failures seeds seg ts).1.LossCounted
      · exact Or.inl hloss
      · refine Or.inr ?_
        split
        · next hsrc =>
            refine h.insert hkey ?_ ?_ _
            · exact hpast
            · exact h.absorbed hkey hsrc hpayload hkeeps hloss
        · next hother =>
            -- the other side may announce a table size to the direction of the side
            refine h.insert hkey hpast ?_ _
            have htouched := hfound.touch_other hkey hother
              (seeds.lookup (seg.src.text, seg.dst.text)) ts
            have habsorbed := htouched.absorb_other hkey hother (w.replay.fed seeds seg ts) ts
              (w.replay.writes seeds seg ts)
            rwa [ConnState.touch_client] at habsorbed

/-- One packet: the watch still accounts for the side, or a loss was counted. -/
theorem Accounts.step (h : w.Accounts src dst first) {packet : Packet}
    (hkeeps : w.KeepsFrames seeds src dst first packet) :
    (w.step seeds src dst packet).1.replay.report.LossCounted ∨
      (w.step seeds src dst packet).1.Accounts src dst first := by
  have hcounted : Accounts src dst first ⟨w.replay.countPacket, w.ledger⟩ :=
    ⟨h.past, h.unused, h.listed, h.kept⟩
  unfold KeepsFrames at hkeeps
  unfold SideWatch.step Ledger.note
  -- a loss that was counted before the packet is not taken back
  rcases hkeeps with hloss | hkeeps
  · exact Or.inl ((Replay.counts_on_step seeds w.replay packet).loss_counted hloss)
  cases hon : segmentOn (keyOf src dst) packet with
  | some seg =>
      rw [hon] at hkeeps
      obtain ⟨hseg, hkey⟩ := segment_on_some hon
      rw [Replay.step_of_segment seeds hseg]
      exact hcounted.on_segment hkey hkeeps
  | none =>
      refine Or.inr ?_
      cases hseg : Pkt.parseEthernet packet.2 with
      | none =>
          rw [Replay.step_of_none seeds hseg]
          exact hcounted
      | some seg =>
          rw [Replay.step_of_segment seeds hseg]
          have hkey := segment_on_none hon hseg
          cases hpayload : seg.payload.isEmpty with
          | true =>
              rw [Replay.on_segment_of_empty seeds hpayload]
              exact hcounted.of_other hkey _ _
          | false =>
              rw [Replay.on_segment_of_payload seeds hpayload]
              exact hcounted.of_other hkey _ _

/-- A watch that accounts for the side lets no frame vanish. -/
theorem Accounts.frames_visible (h : w.Accounts src dst first) (hended : w.BlocksEnded first) :
    w.FramesVisible src dst first := by
  intro hnone
  rw [Ledger.due_of_past_clear h.past, Replay.written]
  cases hlookup : w.replay.conns.lookup (keyOf src dst) with
  | none =>
      rw [Ledger.frames, h.unused hlookup, SideLog.frames_new]
      exact .nil
  | some cs =>
      rcases (h.kept cs hlookup).kept.upToDate with hloss | hup
      · exact absurd (Replay.shows_loss_of_own_loss (h.listed cs hlookup) hlookup hloss) hnone
      · exact hup.shows_due hended

end SideWatch

/-! ## Every packet -/

end

/-- A client's SYN, and its preface with a SETTINGS frame. -/
def settingsPackets : List Packet :=
  [(1000, Pkt.buildTcpPacket Pkt.clientEndpoint 100 0 TcpFlags.syn 65535 0 []),
    (1001, Pkt.buildTcpPacket Pkt.clientEndpoint 101 0 TcpFlags.ack 65535 1
      (preface ++ buildFrame FrameType.settings 0 0 []))]

/-- The same with the packet of the preface lost: a whole frame is held behind the hole. -/
def holePackets : List Packet :=
  [(1000, Pkt.buildTcpPacket Pkt.clientEndpoint 100 0 TcpFlags.syn 65535 0 []),
    (1001, Pkt.buildTcpPacket Pkt.clientEndpoint 125 0 TcpFlags.ack 65535 1
      (buildFrame FrameType.settings 0 0 []))]

/-- Between the preface and the SETTINGS frame a HEADERS frame that is padded with more than it
has. -/
def paddedPackets : List Packet :=
  [(1000, Pkt.buildTcpPacket Pkt.clientEndpoint 100 0 TcpFlags.syn 65535 0 []),
    (1001, Pkt.buildTcpPacket Pkt.clientEndpoint 101 0 TcpFlags.ack 65535 1
      (preface ++ buildFrame FrameType.headers (Flags.endHeaders ||| Flags.padded) 1 [5] ++
        buildFrame FrameType.settings 0 0 []))]

end H2Tap
