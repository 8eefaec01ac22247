import H2Tap.Rebuild.Holes
import H2Tap.Rebuild.Stages

/-!
# What the outputs of a side owe its capture

The `Ledger` of a side has the log of every connection between two addresses. `Kept` says that a
direction of the replay has written what is due for the log of its connection, or lost something
that the report will count. Touching the direction keeps it, and so does a payload that the
direction keeps the frames of (`Kept.feed`).
-/

namespace H2Tap

open Lib

/-- What a capture holds of a side: its log in the current connection, and those in the connections
that a bare SYN has ended. -/
structure Ledger where
  past : List SideLog
  log : SideLog

namespace Ledger

/-- No packet was captured yet. -/
def start : Ledger := ⟨[], .new false⟩

/-- A bare SYN begins a connection. -/
def renew (ledger : Ledger) (src : SocketAddr) (seg : EthSegment) : Ledger :=
  if seg.freshSyn then ⟨ledger.past ++ [ledger.log], .new (src == seg.src)⟩ else ledger

/-- A packet of the capture. What `src` sends to `dst` goes into the log. -/
def note (src dst : SocketAddr) (ledger : Ledger) (packet : Packet) : Ledger :=
  match segmentOn (keyOf src dst) packet with
  | none => ledger
  | some seg =>
      let renewed := ledger.renew src seg
      if seg.src = src then { renewed with log := renewed.log.add seg.toTcpSegment } else renewed

/-- Where the first frame of the current connection starts, if `first` has the place for every
connection. -/
def origin (ledger : Ledger) (first : Nat → Int) : Int := first ledger.past.length

/-- The complete frames of the current connection. -/
def frames (ledger : Ledger) (first : Nat → Int) : List Frame :=
  ledger.log.frames (ledger.origin first)

/-- What is due for the complete frames of all connections. -/
def due (ledger : Ledger) (first : Nat → Int) : List Due :=
  (ledger.past ++ [ledger.log]).zipIdx.flatMap fun log => dueOf (log.1.frames (first log.2))

/-- Nothing is due for the connections that a bare SYN has ended. -/
def PastClear (ledger : Ledger) (first : Nat → Int) : Prop :=
  ∀ log ∈ ledger.past.zipIdx, log.1.frames (first log.2) = []

variable {ledger : Ledger} {first : Nat → Int}

theorem due_of_past_clear (h : ledger.PastClear first) :
    ledger.due first = dueOf (ledger.frames first) := by
  have hpast : (ledger.past.zipIdx.flatMap fun log => dueOf (log.1.frames (first log.2))) = [] := by
    rw [List.flatMap_eq_nil_iff]
    intro log hlog
    rw [h log hlog]
    rfl
  rw [due, List.zipIdx_append, List.flatMap_append, hpast]
  simp [frames, origin]

/-- A connection without a complete frame may be ended. -/
theorem PastClear.renew (h : ledger.PastClear first) {src : SocketAddr} {seg : EthSegment}
    (hnone : seg.freshSyn = true → ledger.frames first = []) :
    (ledger.renew src seg).PastClear first := by
  unfold Ledger.renew
  split
  · next hsyn =>
      -- the log that is ended has the last place among the past ones
      intro log hlog
      rw [List.zipIdx_append, List.mem_append] at hlog
      rcases hlog with hlog | hlog
      · exact h log hlog
      · rw [List.zipIdx_singleton, List.mem_singleton] at hlog
        rw [hlog, Nat.zero_add]
        exact hnone hsyn
  · exact h

end Ledger

/-- A log without a byte has no frame. -/
theorem SideLog.frames_new (opened : Bool) (first : Int) :
    (SideLog.new opened).frames first = [] := by
  have hbytes : (SideLog.new opened).bytesFrom first = [] := by
    unfold SideLog.bytesFrom
    cases (((SideLog.new opened).top : Int) - first).toNat with
    | zero => rfl
    | succ n =>
        rw [List.range_succ_eq_map]
        rfl
  rw [frames, hbytes]
  cases opened <;> exact complete_frames_of_short fun hdr hparse => by cases hparse

/-- A segment without a payload brings no frame. -/
theorem SideLog.frames_add_empty (log : SideLog) {seg : TcpSegment} (hempty : seg.payload = [])
    (first : Int) : (log.add seg).frames first = log.frames first := by
  rw [add, hempty]
  show (log.start seg).frames first = _
  unfold start
  split <;> rfl

open Direction

variable [HuffmanDecoding] {first : Int} {log : SideLog} {sawSyn : Bool}
  {ds : DirState}

/-- Only the log, the reassembler and the decoder are new, and none of them in what the stage looks
at. -/
theorem Direction.Stage.congr {d : Direction} {bytes : Bytes} {out : List Normalized}
    (h : Stage first log bytes d out) {after : SideLog} (hopened : after.opened = log.opened)
    (hframes : after.frames first = log.frames first) {r : Reassembler}
    (havailable : r.available = d.reasm.available) (hoffset : r.offset = d.reasm.offset)
    (dec : Decoder) : Stage first after bytes { d with reasm := r, dec := dec } out := by
  cases h with
  | seeking target hunread hpending hsynced hpreface hnone hclosed hdue =>
      exact .seeking target (hunread.congr rfl rfl rfl rfl) hpending hsynced hpreface hnone
        (hopened.trans hclosed) (hframes.trans hdue)
  | hunting hunread hpending hdesynced hpreface hclosed hdue =>
      exact .hunting (hunread.congr rfl rfl rfl rfl) hpending hdesynced hpreface
        (hopened.trans hclosed) (hframes.trans hdue)
  | awaiting hunread hpending hsynced hpreface hclient hstart hdue =>
      exact .awaiting (hunread.congr rfl rfl rfl rfl) hpending hsynced hpreface
        (hopened.trans hclient) (hoffset.trans hstart) (hframes.trans hdue)
  | waiting hat hopen hnone hclosed hdue =>
      exact .waiting ⟨hat.discard, hat.pending, hat.synced, hat.preface, hat.keeps⟩
        ⟨hopen.blockHdr, hopen.block⟩ hnone (hopened.trans hclosed) (hframes.trans hdue)
  | reading n frames out hat hopen hfirst hn hlong hbytes hdone hsmall hshown =>
      rw [← hopened] at hlong hbytes
      rw [← havailable] at hbytes hdone
      exact .reading n frames out ⟨hat.discard, hat.pending, hat.synced, hat.preface, hat.keeps⟩
        ⟨hopen.blockHdr, hopen.block⟩ hfirst hn hlong hbytes hdone hsmall hshown

theorem Direction.Stage.keeps {d : Direction} {bytes : Bytes} {out : List Normalized}
    (h : Stage first log bytes d out) : d.keepPayloads = true := by
  cases h with
  | seeking _ hunread => exact hunread.keeps
  | hunting hunread => exact hunread.keeps
  | awaiting hunread => exact hunread.keeps
  | waiting hat => exact hat.keeps
  | reading _ _ _ hat => exact hat.keeps

/-- Everything was received in order, and what is due was written. -/
def DirState.UpToDate (ds : DirState) (first : Int) (log : SideLog) : Prop :=
  ∃ bytes, Received log bytes ds.dir.reasm ∧ Stage first log bytes ds.dir (ds.out.map Prod.snd)

/-- The direction is up to date, or has a loss of its own. One that may still be seeded has seen
nothing. -/
structure DirState.Kept (ds : DirState) (first : Int) (log : SideLog) (sawSyn : Bool) : Prop where
  upToDate : ds.dir.OwnLoss ∨ ds.UpToDate first log
  unseen : ds.seeded = false → sawSyn = false → log = .new false ∧ ds.out = []

namespace DirState

/-- Both sides of a connection that opens. -/
theorem kept_opened (first : Int) (src : SocketAddr) (seg : EthSegment) (ts : Nat) :
    ((ConnState.opened seg ts).dir (src == seg.src)).Kept first
      (.new (seg.freshSyn && src == seg.src)) seg.freshSyn := by
  cases hsyn : seg.freshSyn with
  | false =>
      have hdir : (ConnState.opened seg ts).dir (src == seg.src) = .new := by
        unfold ConnState.opened ConnState.dir
        rw [hsyn]
        split <;> rfl
      rw [hdir, Bool.false_and]
      refine ⟨Or.inr ⟨[], received_new false, ?_⟩, fun _ _ => ⟨rfl, rfl⟩⟩
      exact .hunting ⟨rfl, rfl, ⟨rfl, rfl⟩⟩ rfl rfl rfl rfl (SideLog.frames_new false first)
  | true =>
      have hsaw : true = false → SideLog.new (true && src == seg.src) = .new false ∧
          ((ConnState.opened seg ts).dir (src == seg.src)).out = [] := fun hfalse => by cases hfalse
      refine ⟨Or.inr ⟨[], ?_, ?_⟩, fun _ => hsaw⟩
      · rw [ConnState.reasm_opened]
        exact received_new _
      · cases hclient : src == seg.src with
        | true =>
            have hdir : (ConnState.opened seg ts).dir true =
                { DirState.new with dir := .fromConnectionStart true true } := by
              unfold ConnState.opened
              rw [hsyn]
              rfl
            rw [hdir]
            exact .awaiting ⟨rfl, rfl, ⟨rfl, rfl⟩⟩ rfl rfl rfl rfl rfl
              (SideLog.frames_new true first)
        | false =>
            have hdir : (ConnState.opened seg ts).dir false =
                { DirState.new with dir := .fromConnectionStart true false } := by
              unfold ConnState.opened
              rw [hsyn]
              rfl
            rw [hdir]
            exact .waiting ⟨rfl, rfl, rfl, rfl, rfl⟩ ⟨rfl, rfl⟩ rfl rfl
              (SideLog.frames_new false first)

omit [HuffmanDecoding] in
/-- The SYN changes the reassembler at most. -/
theorem note_syn_eq (ds : DirState) (seg : EthSegment) :
    ds.noteSyn seg = { ds with dir := { ds.dir with
      reasm := if seg.has TcpFlags.syn then ds.dir.reasm.noteSyn seg.seq else ds.dir.reasm } } := by
  unfold noteSyn
  split <;> rfl

/-- A direction that is touched is seeded from then on. If the snapshot is applied, nothing was
received before, and the direction seeks its place. -/
theorem Kept.seed (h : ds.Kept first log sawSyn) (seed : Option Seed) (seg : EthSegment) :
    let seeded := ((ds.noteEndpoint seg).seed sawSyn seed).1
    seeded.seeded = true ∧ (seeded.dir.OwnLoss ∨ seeded.UpToDate first log) := by
  have hplain : ds.dir.OwnLoss ∨ { ds with seeded := true }.UpToDate first log := h.upToDate
  unfold DirState.seed
  split
  · next hseeded => exact ⟨hseeded, h.upToDate⟩
  · next hunseeded =>
      dsimp only
      split
      · exact ⟨rfl, hplain⟩
      · next hsaw =>
          split
          · split
            · next s husable =>
                refine ⟨rfl, h.upToDate.imp id ?_⟩
                -- the log is empty, so what the direction was before does not matter
                obtain ⟨hnew, hout⟩ := h.unseen (by simpa [noteEndpoint] using hunseeded)
                  (by simpa using hsaw)
                subst hnew
                rintro ⟨bytes, hreceived, hstage⟩
                have hnone : bytes = [] := List.eq_nil_of_length_eq_zero hreceived.top.symm
                refine ⟨bytes, hreceived, ?_⟩
                show Stage first _ bytes _ (ds.out.map Prod.snd)
                rw [hout]
                exact .seeking s.nextFrameSeq ⟨rfl, hstage.keeps, ⟨rfl, rfl⟩⟩ rfl rfl rfl hnone rfl
                  (SideLog.frames_new false first)
            · exact ⟨rfl, hplain⟩
          · exact ⟨rfl, hplain⟩

/-- A segment without a payload. -/
theorem UpToDate.touch (h : ds.UpToDate first log) {seg : EthSegment}
    (hempty : seg.payload = []) :
    (ds.noteSyn seg).UpToDate first (log.add seg.toTcpSegment) := by
  obtain ⟨bytes, hreceived, hstage⟩ := h
  obtain ⟨hadded, havailable, hoffset⟩ := hreceived.touch hempty
  rw [note_syn_eq]
  exact ⟨bytes, hadded, hstage.congr (SideLog.add_opened log _)
    (SideLog.frames_add_empty log hempty first) havailable hoffset ds.dir.dec⟩

/-- A segment with a payload: the direction reads on and writes what is due, or a loss is
reported. -/
theorem UpToDate.feed (h : ds.UpToDate first log) {seg : EthSegment} (hpayload : seg.payload ≠ [])
    (hahead : seqDelta seg.seq ((ds.noteSyn seg).dir.reasm.start seg.seq).nextSeq ≤ 0)
    (hkeeps : (ds.noteSyn seg).dir.KeepsFrames first log (log.add seg.toTcpSegment)
      seg.toTcpSegment) (ts : Nat) :
    let fed := (ds.noteSyn seg).dir.feed seg.seq seg.payload ts
    FeedShowsLoss fed ∨
      ({ ds.noteSyn seg with dir := fed.1 }.write ts (fed.2.filterMap normalize)).UpToDate first
        (log.add seg.toTcpSegment) := by
  intro fed
  obtain ⟨bytes, hreceived, hstage⟩ := h
  rw [note_syn_eq] at hahead hkeeps
  obtain ⟨hbase, more, hadded, hgap, havailable, hoffset⟩ :=
    hreceived.segment hpayload hahead hkeeps.1 ts
  -- the place that is looked at is that of the reassembler before the SYN
  have hplace : (if seg.has TcpFlags.syn then ds.dir.reasm.noteSyn seg.seq
      else ds.dir.reasm).offset = ds.dir.reasm.offset := by
    split
    · unfold Reassembler.noteSyn
      split <;> rfl
    · rfl
  have hkeeps' : ds.dir.KeepsFrames first log (log.add seg.toTcpSegment) seg.toTcpSegment := by
    unfold KeepsFrames at hkeeps ⊢
    dsimp only at hkeeps
    rwa [hplace] at hkeeps
  have hfed : fed = { ds.dir with reasm := ((if seg.has TcpFlags.syn then
      ds.dir.reasm.noteSyn seg.seq else ds.dir.reasm).push seg.seq seg.payload ts).1 }.parse := by
    show (ds.noteSyn seg).dir.feed _ _ _ = _
    rw [note_syn_eq, Direction.feed, withReassembled]
    dsimp only
    rw [hgap, if_neg Bool.false_ne_true]
  rw [hfed]
  rcases stage_feed hstage hreceived hadded havailable hoffset hbase (SideLog.add_opened log _)
    hkeeps' with hloss | hstage'
  · exact Or.inl hloss
  · refine Or.inr ⟨bytes ++ more, reasm_parse (fun r n hr => hr.consume hbase n) hadded, ?_⟩
    have hout : (({ ds.noteSyn seg with dir := fed.1 }.write ts
        (fed.2.filterMap normalize)).out.map Prod.snd) =
          ds.out.map Prod.snd ++ fed.2.filterMap normalize := by
      rw [note_syn_eq]
      simp [DirState.write, Function.comp_def]
    rw [hfed] at hout
    rw [hout]
    exact hstage'

/-- What is due is what was written, unless the frames end inside a header block. -/
theorem UpToDate.shows_due (h : ds.UpToDate first log)
    (hended : openBlock (log.frames first) = none) :
    List.Forall₂ Shows (dueOf (log.frames first)) (ds.out.map Prod.snd) := by
  obtain ⟨bytes, hreceived, hstage⟩ := h
  have hnone {out : List Normalized} (hframes : log.frames first = []) (hout : [] = out) :
      List.Forall₂ Shows (dueOf (log.frames first)) out := by
    rw [hframes, ← hout]
    exact .nil
  generalize hout : ds.out.map Prod.snd = out at hstage ⊢
  cases hstage with
  | seeking _ _ _ _ _ _ _ hframes => exact hnone hframes rfl
  | hunting _ _ _ _ _ hframes => exact hnone hframes rfl
  | awaiting _ _ _ _ _ _ hframes => exact hnone hframes rfl
  | waiting _ _ _ _ hframes => exact hnone hframes rfl
  | reading n frames out hat hopen hfirst hn hlong hbytes hdone hsmall hshown =>
      have hframes := frames_of_reading hreceived.bytes_from hbytes
      rw [hdone, List.append_nil, ← hfirst] at hframes
      rw [dueOf, hended, hframes, Option.toList_none, List.map_nil, List.append_nil]
      exact hshown

/-- The table sizes of the other side change the decoder only. -/
theorem Kept.peer_capacities (h : ds.Kept first log sawSyn) (sizes : List Nat) :
    ({ ds with dir := sizes.foldl applyPeerCapacity ds.dir } : DirState).Kept first log sawSyn := by
  have hdec : ∃ dec, sizes.foldl applyPeerCapacity ds.dir = { ds.dir with dec := dec } := by
    generalize ds.dir = d
    induction sizes generalizing d with
    | nil => exact ⟨d.dec, rfl⟩
    | cons n sizes ih => exact ih (d.applyPeerCapacity n)
  obtain ⟨dec, hdec⟩ := hdec
  rw [hdec]
  refine ⟨h.upToDate.imp id ?_, h.unseen⟩
  rintro ⟨bytes, hreceived, hstage⟩
  exact ⟨bytes, hreceived, hstage.congr rfl rfl (r := ds.dir.reasm) rfl rfl dec⟩

end DirState

end H2Tap
