import H2Tap.Conn.Seek
import H2Tap.Conn.UnknownFields

/-!
# Which header blocks are trailers

A header block is called trailers if its stream is in `open_streams`, a set that only header blocks
update and that is cleared when it holds more than 65,536 streams. The history of the decoded blocks
of a direction says which streams are open: `trailers_iff_open` says that blocks are classified by
it as long as a further stream is only opened while at most 65,536 are open, and
`trailers_of_live_stream_lost` is a direction in which one is opened too many.
-/

namespace H2Tap

open Lib

/-! ## The history of a stream -/

/-- A block that leaves its stream open. A promise is not about its own stream. -/
def DecodedBlock.Opens (b : DecodedBlock) : Prop := b.kind ≠ .pushPromise ∧ b.endStream = false

instance (b : DecodedBlock) : Decidable b.Opens := inferInstanceAs (Decidable (_ ∧ _))

/-- The streams that are open after a block. -/
def openAfterBlock (streams : Finset Nat) (b : DecodedBlock) : Finset Nat :=
  if b.kind = .pushPromise then streams
  else if b.endStream then streams.erase b.streamId
  else insert b.streamId streams

/-- The streams that are open after some blocks. -/
def openAfter (blocks : List DecodedBlock) : Finset Nat := blocks.foldl openAfterBlock ∅

/-- The last block on a stream, promises apart, has left it open. -/
def OpenBy (blocks : List DecodedBlock) (sid : Nat) : Prop :=
  ∃ earlier opening since, blocks = earlier ++ opening :: since ∧ opening.Opens ∧
    opening.streamId = sid ∧
    ∀ b ∈ since, b.kind ≠ .pushPromise → b.streamId = sid → b.endStream = false

theorem open_after_concat (blocks : List DecodedBlock) (b : DecodedBlock) :
    openAfter (blocks ++ [b]) = openAfterBlock (openAfter blocks) b := by
  rw [openAfter, List.foldl_append]
  rfl

/-- A block that leaves a stream as it is. -/
theorem open_by_concat_of_other {blocks : List DecodedBlock} {b : DecodedBlock} {sid : Nat}
    (hother : b.kind ≠ .pushPromise → b.streamId ≠ sid) :
    OpenBy (blocks ++ [b]) sid ↔ OpenBy blocks sid := by
  constructor
  · rintro ⟨earlier, opening, since, hblocks, hopens, rfl, hsince⟩
    rcases List.eq_nil_or_concat' since with rfl | ⟨since, last, rfl⟩
    · -- the block itself cannot be the opening one
      obtain ⟨-, rfl⟩ := List.append_inj' hblocks rfl |>.imp_right List.singleton_inj.mp
      exact absurd rfl (hother hopens.1)
    · rw [← List.cons_append, ← List.append_assoc] at hblocks
      obtain ⟨rfl, -⟩ := List.append_inj' hblocks rfl
      exact ⟨earlier, opening, since, rfl, hopens, rfl,
        fun c hc => hsince c (List.mem_append_left _ hc)⟩
  · rintro ⟨earlier, opening, since, rfl, hopens, hsid, hsince⟩
    refine ⟨earlier, opening, since ++ [b], by rw [List.append_assoc, List.cons_append], hopens,
      hsid, fun c hc hkind hstream => ?_⟩
    rcases List.mem_append.mp hc with hc | hc
    · exact hsince c hc hkind hstream
    · rw [List.mem_singleton.mp hc] at hkind hstream
      exact absurd hstream (hother hkind)

/-- A block on a stream decides whether it is open. -/
theorem open_by_concat_of_same {blocks : List DecodedBlock} {b : DecodedBlock}
    (hkind : b.kind ≠ .pushPromise) :
    OpenBy (blocks ++ [b]) b.streamId ↔ b.endStream = false := by
  constructor
  · rintro ⟨earlier, opening, since, hblocks, hopens, hsid, hsince⟩
    rcases List.eq_nil_or_concat' since with rfl | ⟨since, last, rfl⟩
    · obtain ⟨-, rfl⟩ := List.append_inj' hblocks rfl |>.imp_right List.singleton_inj.mp
      exact hopens.2
    · rw [← List.cons_append, ← List.append_assoc] at hblocks
      obtain ⟨-, rfl⟩ := List.append_inj' hblocks rfl |>.imp_right List.singleton_inj.mp
      exact hsince b (List.mem_append_right _ List.mem_cons_self) hkind rfl
  · intro hend
    exact ⟨blocks, b, [], rfl, ⟨hkind, hend⟩, rfl, fun c hc => absurd hc List.not_mem_nil⟩

/-- The set holds the streams that the history leaves open. -/
theorem mem_open_after_iff {blocks : List DecodedBlock} {sid : Nat} :
    sid ∈ openAfter blocks ↔ OpenBy blocks sid := by
  induction blocks using List.reverseRecOn with
  | nil =>
      refine iff_of_false (Finset.notMem_empty _) ?_
      rintro ⟨earlier, opening, since, hblocks, -⟩
      exact absurd hblocks (by simp)
  | append_singleton blocks b ih =>
      rw [open_after_concat, openAfterBlock]
      by_cases hkind : b.kind = .pushPromise
      · rw [if_pos hkind, ih, open_by_concat_of_other fun h => absurd hkind h]
      rw [if_neg hkind]
      by_cases hsid : b.streamId = sid
      · subst hsid
        rw [open_by_concat_of_same hkind]
        cases b.endStream <;> simp
      · rw [open_by_concat_of_other fun _ => hsid, ← ih]
        split
        · rw [Finset.mem_erase]
          exact and_iff_right (Ne.symm hsid)
        · rw [Finset.mem_insert]
          exact or_iff_right (Ne.symm hsid)

/-! ## What a direction records -/

namespace Direction

/-- A block leaves its stream open only while at most 65,536 streams are. -/
def FewOpen (before : List DecodedBlock) (b : DecodedBlock) : Prop :=
  b.Opens → (openAfter before).card ≤ 65536

/-- A block is called trailers exactly if the blocks before it left its stream open. -/
def ByHistory (before : List DecodedBlock) (b : DecodedBlock) : Prop :=
  b.kind ≠ .pushPromise → (b.kind = .trailers ↔ OpenBy before b.streamId)

/-- A direction that has gone on from `d` to `d'` and returned frames on the way: as long as few
streams were open, it knows which ones are, and its blocks are classified by the history. -/
def Recorded (past : List DecodedBlock) (d d' : Direction) (pfs : List ProcessedFrame) : Prop :=
  d.openStreams = openAfter past → AtEach FewOpen past (decodedBlocks pfs) →
    d'.openStreams = openAfter (past ++ decodedBlocks pfs) ∧
      AtEach ByHistory past (decodedBlocks pfs)

variable {past : List DecodedBlock} {d d' d'' : Direction} {pfs later : List ProcessedFrame}

theorem recorded_of_same (h : d'.openStreams = d.openStreams) : Recorded past d d' [] := by
  intro hopen _
  rw [show decodedBlocks [] = [] from rfl, List.append_nil, h]
  exact ⟨hopen, trivial⟩

/-- One stretch after another. -/
theorem Recorded.trans (h : Recorded past d d' pfs)
    (hlater : Recorded (past ++ decodedBlocks pfs) d' d'' later) :
    Recorded past d d'' (pfs ++ later) := by
  intro hopen hfew
  have hblocks : decodedBlocks (pfs ++ later) = decodedBlocks pfs ++ decodedBlocks later :=
    List.filterMap_append
  rw [hblocks] at hfew ⊢
  obtain ⟨hfirst, hrest⟩ := hfew.of_append
  obtain ⟨hopen', hhistory⟩ := h hopen hfirst
  obtain ⟨hopen'', hhistory'⟩ := hlater hopen' hrest
  rw [← List.append_assoc]
  exact ⟨hopen'', at_each_append hhistory hhistory'⟩

/-- Adding a fragment is not the end of a block. -/
theorem open_streams_add_fragment {opened : Direction} {hdr : FrameHeader} {payload : Bytes}
    (h : d.addFragment hdr payload = some opened) : opened.openStreams = d.openStreams := by
  have hkept : (d.dropOpenBlock.notePromised hdr payload).openStreams = d.openStreams := by
    unfold notePromised dropOpenBlock
    split
    · split <;> split <;> rfl
    · split <;> rfl
  unfold addFragment at h
  split at h
  · split at h
    · cases h
    · cases h
      rfl
  · obtain ⟨frag, -, rfl⟩ := Option.map_eq_some_iff.mp h
    exact hkept

/-- What a block that is decoded does to the set of open streams, and what it is called. -/
theorem open_streams_decoded {opened : Direction} {bhdr : FrameHeader} {b : DecodedBlock}
    (hsid : b.streamId = bhdr.streamId) (hend : b.endStream = bhdr.has Flags.endStream)
    (hkind : b.kind = opened.blockKind bhdr) (hopen : opened.openStreams = openAfter past)
    (hfew : FewOpen past b) :
    opened.openStreamsAfter bhdr = openAfter (past ++ [b]) ∧ ByHistory past b := by
  rw [open_after_concat, openAfterBlock, openStreamsAfter, ByHistory, ← mem_open_after_iff, hopen]
  unfold blockKind at hkind
  by_cases hpromise : bhdr.typ = FrameType.pushPromise
  · rw [if_pos hpromise] at hkind ⊢
    rw [if_pos hkind]
    exact ⟨rfl, fun h => absurd hkind h⟩
  rw [if_neg hpromise, hopen, ← hsid] at hkind
  have hother : b.kind ≠ .pushPromise := by
    rw [hkind]
    split <;> exact BlockKind.noConfusion
  refine ⟨?_, fun _ => ?_⟩
  · rw [if_neg hpromise, if_neg hother, hend, hsid]
    split
    · rfl
    · rename_i hgoing
      have hcard : ¬(openAfter past).card > 65536 := by
        have hle := hfew ⟨hother, hend.trans (Bool.eq_false_iff.mpr hgoing)⟩
        omega
      rw [if_neg hcard]
  · rw [hkind]
    by_cases hmem : b.streamId ∈ openAfter past
    · rw [if_pos hmem]
      exact iff_of_true rfl hmem
    · rw [if_neg hmem]
      exact iff_of_false BlockKind.noConfusion hmem

variable [HuffmanDecoding]

omit [HuffmanDecoding] in
theorem decoded_blocks_singleton {pf : ProcessedFrame} {b : DecodedBlock}
    (h : pf.decoded = some b) : decodedBlocks [pf] = [b] := by
  rw [decodedBlocks, List.filterMap_cons_some h, List.filterMap_nil]

/-- Taking a frame. -/
theorem recorded_take {hdr : FrameHeader} {payload : Bytes} {pf : ProcessedFrame}
    (h : TakeOutcome d hdr payload d' pf.decoded) : Recorded past d d' [pf] := by
  have hnone (hdecoded : pf.decoded = none) (hsame : d'.openStreams = d.openStreams) :
      Recorded past d d' [pf] := by
    have hblocks : decodedBlocks [pf] = [] := by
      rw [decodedBlocks, List.filterMap_cons_none hdecoded, List.filterMap_nil]
    intro hopen _
    rw [hblocks, List.append_nil, hsame]
    exact ⟨hopen, trivial⟩
  generalize hdecoded : pf.decoded = decoded at h
  cases h with
  | other _ hheader hsame => exact hnone hdecoded hsame.openStreams
  | bad _ hheader hadd hsame => exact hnone hdecoded hsame.openStreams
  | opened opened _ hheader hadd hend hsame =>
      exact hnone hdecoded (hsame.openStreams.trans (open_streams_add_fragment hadd))
  | failed opened _ dec e hheader hadd hend hdecode hsame =>
      have hadded := open_streams_add_fragment hadd
      exact hnone hdecoded (hsame.openStreams.trans hadded)
  | decoded opened _ bhdr dec fields hheader hadd hend hbhdr hdecode hsame =>
      have hblocks := decoded_blocks_singleton hdecoded
      intro hopen hfew
      rw [hblocks] at hfew ⊢
      have hadded := (open_streams_add_fragment hadd).trans hopen
      obtain ⟨hafter, hhistory⟩ := open_streams_decoded rfl rfl rfl hadded hfew.1
      exact ⟨hsame.openStreams.trans hafter, hhistory, trivial⟩

/-- One turn of the loop. -/
theorem recorded_turn {frame : Option ProcessedFrame} (h : d.parseStep = .more d' frame) :
    Recorded past d d' frame.toList := by
  have hturn := turn_cases d
  rw [h] at hturn
  cases hturn with
  | move _ hsame => exact recorded_of_same hsame.openStreams
  | misaligned _ hsame => exact recorded_of_same hsame.openStreams
  | skip hdr hat hparse hwant => exact recorded_of_same rfl
  | take hdr payload htake => exact recorded_take (take_frame_cases htake)

/-- The whole loop. -/
theorem recorded_parse (past : List DecodedBlock) (d : Direction) :
    Recorded past d d.parse.1 d.parse.2 := by
  -- the induction is on the work that is left, as for the loop itself
  induction hwork : d.work using Nat.strongRecOn generalizing d past with
  | ind n ih =>
      subst hwork
      cases hstep : d.parseStep with
      | stop d' =>
          have hturn := turn_cases d
          rw [hstep] at hturn
          cases hturn with
          | stop _ hsame =>
              rw [parse_of_stop hstep]
              exact recorded_of_same hsame.openStreams
      | more d' frame =>
          rw [parse_of_more hstep]
          exact (recorded_turn hstep).trans (ih _ (work_parse_step hstep) _ d' rfl)

omit [HuffmanDecoding] in
theorem open_streams_reassembled (d : Direction) (pushed : Reassembler × Bool) :
    (d.withReassembled pushed).openStreams = d.openStreams := by
  unfold withReassembled
  split <;> rfl

/-- One operation of a caller. -/
theorem recorded_perform (past : List DecodedBlock) (d : Direction) (op : DirOp) :
    Recorded past d (d.perform op).1 (d.perform op).2 := by
  have hparse (pushed : Reassembler × Bool) : Recorded past d (d.withReassembled pushed).parse.1
      (d.withReassembled pushed).parse.2 := by
    have hfirst : Recorded past d (d.withReassembled pushed) [] :=
      recorded_of_same (open_streams_reassembled d pushed)
    exact hfirst.trans (recorded_parse _ _)
  cases op with
  | feed seq data nowUs => exact hparse _
  | tick nowUs =>
      rw [perform, tick]
      split
      · exact hparse _
      · exact recorded_of_same rfl
  | applyPeerCapacity n => exact recorded_of_same rfl

/-- Any run. -/
theorem recorded_run (past : List DecodedBlock) (d : Direction) (ops : List DirOp) :
    Recorded past d (run perform d ops).1 (run perform d ops).2.flatten := by
  induction ops generalizing past d with
  | nil => exact recorded_of_same rfl
  | cons op ops ih => exact (recorded_perform past d op).trans (ih _ _)

/-- The blocks that a direction decodes in a run. -/
def decodedInRun (d : Direction) (ops : List DirOp) : List DecodedBlock :=
  decodedBlocks (run perform d ops).2.flatten

omit [HuffmanDecoding] in
theorem decoded_blocks_append (pfs later : List ProcessedFrame) :
    decodedBlocks (pfs ++ later) = decodedBlocks pfs ++ decodedBlocks later :=
  List.filterMap_append

/-- The blocks of the last operation come last. -/
theorem decoded_in_run_concat (d : Direction) (ops : List DirOp) (op : DirOp) :
    decodedInRun d (ops ++ [op]) =
      decodedInRun d ops ++ decodedBlocks ((run perform d ops).1.perform op).2 := by
  rw [decodedInRun, run_append, List.flatten_append, decoded_blocks_append, run, run_nil,
    List.flatten_singleton]
  rfl

/-- In every run of a direction that has seen no header block yet, as one of `from_connection_start`
has not, a block is called trailers if and only if the blocks before it left its stream open,
provided that a block only ever leaves its stream open while at most 65,536 streams are. -/
theorem trailers_iff_open {d : Direction} (hfresh : d.openStreams = ∅) (ops : List DirOp)
    (hfew : ∀ before b after, decodedInRun d ops = before ++ b :: after →
      b.Opens → (openAfter before).card ≤ 65536) :
    ∀ before b after, decodedInRun d ops = before ++ b :: after →
      b.kind ≠ .pushPromise → (b.kind = .trailers ↔ OpenBy before b.streamId) := by
  intro before b after hsplit
  have hguard : AtEach FewOpen [] (decodedInRun d ops) :=
    at_each_of_splits fun before b after hsplit => hfew before b after hsplit
  have hhistory : AtEach ByHistory [] (decodedInRun d ops) :=
    (recorded_run [] d ops hfresh hguard).2
  rw [hsplit] at hhistory
  exact hhistory.split

/-! ## Two header blocks on a stream -/

/-- The segments of a stream that is cut between its frames. -/
def frameOps (seq : Seq) (frames : List Frame) : List DirOp :=
  segmentOps seq (frames.map fun f => (f.wire, 0))

omit [HuffmanDecoding] in
/-- The last frame stands after all others. -/
theorem frame_ops_concat (seq : Seq) (frames : List Frame) (f : Frame) :
    frameOps seq (frames ++ [f]) = frameOps seq frames ++
      [.feed (seq + BitVec.ofNat 32 (framesWire frames).length) f.wire 0] := by
  have hbytes : segmentBytes (frames.map fun f => (f.wire, 0)) = framesWire frames := by
    rw [segmentBytes, List.flatMap_map]
    rfl
  rw [frameOps, List.map_append, List.map_singleton, segment_ops_concat, hbytes]
  rfl

/-- A HEADERS frame with the block `:status: 200`. It leaves its stream open. -/
def responseFrame (sid : Nat) : Bytes := buildFrame FrameType.headers Flags.endHeaders sid [0x88]

end Direction

theorem card_open_after_le (blocks : List DecodedBlock) :
    (openAfter blocks).card ≤ blocks.length := by
  induction blocks using List.reverseRecOn with
  | nil => exact le_rfl
  | append_singleton blocks b ih =>
      have hone : (openAfterBlock (openAfter blocks) b).card ≤ (openAfter blocks).card + 1 := by
        unfold openAfterBlock
        split
        · exact Nat.le_succ _
        · split
          · exact (Finset.card_le_card (Finset.erase_subset _ _)).trans (Nat.le_succ _)
          · exact Finset.card_insert_le _ _
      rw [open_after_concat, List.length_append, List.length_singleton]
      omega

namespace Direction

/-- A response and its trailers. -/
theorem trailers_iff_open_second_block :
    let _ := noHuffman.toHuffmanDecoding
    let ops := [DirOp.feed 1 (responseFrame 1) 0, .feed 11 (responseFrame 1) 0]
    ∀ before b after,
      decodedInRun (fromConnectionStart true false) ops = before ++ b :: after →
        b.kind ≠ .pushPromise → (b.kind = .trailers ↔ OpenBy before b.streamId) := by
  intro _ ops
  refine trailers_iff_open rfl ops fun before b after hsplit _ => ?_
  have htwo : (decodedInRun (fromConnectionStart true false) ops).length = 2 := by
    decide +kernel
  have hcard := card_open_after_le before
  rw [hsplit, List.length_append, List.length_cons] at htwo
  omega

/-! ## One stream too many -/

/-- The block of `responseFrame`. -/
def responseBlock (sid : Nat) (kind : BlockKind) : DecodedBlock where
  streamId := sid
  fields := [⟨asciiBytes ":status", asciiBytes "200", false, false⟩]
  endStream := false
  kind := kind
  promisedStreamId := none
  exact := true
  unresolved := 0

/-- A direction that was fed `k` bytes of whole responses and has `streams` open. -/
structure BetweenResponses (k : Nat) (streams : Finset Nat) (d : Direction) : Prop where
  order : d.reasm.InOrder 1 k
  empty : d.reasm.available = []
  atFrame : d.atFrame = true
  dec : d.dec = .newExact
  block : d.block = []
  blockHdr : d.blockHdr = none
  blockPromised : d.blockPromised = none
  openStreams : d.openStreams = streams
  poisoned : d.poisoned = false
  decodeErrors : d.decodeErrors = 0

section

variable [HuffmanDecoding] {k sid : Nat} {streams : Finset Nat} {d : Direction}

/-- The decoder reads the block of a response and stays as it is. -/
theorem decode_response : Decoder.newExact.decode [0x88] =
    (Decoder.newExact, .ok [⟨asciiBytes ":status", asciiBytes "200", false, false⟩]) := by
  have hrep : Decoder.newExact.decodeRep 0x88 [0x88] = (Decoder.newExact,
      .ok (some ⟨asciiBytes ":status", asciiBytes "200", false, false⟩, [])) := rfl
  rw [Decoder.decode, Decoder.decode_loop_of_ok hrep, Decoder.decode_loop_nil]
  rfl

omit [HuffmanDecoding] in
/-- The header of a response. -/
def responseHeader (sid : Nat) : FrameHeader := ⟨1, FrameType.headers, Flags.endHeaders, sid⟩

omit [HuffmanDecoding] in
/-- The kind of the block of a response. -/
def responseKind (streams : Finset Nat) (sid : Nat) : BlockKind :=
  if sid ∈ streams then .trailers else .headers

omit [HuffmanDecoding] in
/-- The open streams after a response. -/
def afterResponse (streams : Finset Nat) (sid : Nat) : Finset Nat :=
  if streams.card > 65536 then {sid} else insert sid streams

omit [HuffmanDecoding] in
/-- The flags of a response do not depend on its stream. -/
theorem response_has (flag : UInt8) :
    (responseHeader sid).has flag = (Flags.endHeaders &&& flag != 0) := rfl

omit [HuffmanDecoding] in
theorem response_typ : (responseHeader sid).typ = FrameType.headers := rfl

/-- What handling a response leaves, and the block that it returns. -/
structure HandledResponse (streams : Finset Nat) (sid : Nat) (d d' : Direction)
    (decoded : Option DecodedBlock) : Prop where
  desynced : d'.desynced = d.desynced
  dec : d'.dec = .newExact
  block : d'.block = []
  blockHdr : d'.blockHdr = none
  blockPromised : d'.blockPromised = none
  openStreams : d'.openStreams = afterResponse streams sid
  poisoned : d'.poisoned = d.poisoned
  decodeErrors : d'.decodeErrors = d.decodeErrors
  decoded : decoded = some (responseBlock sid (responseKind streams sid))

/-- Handling a response. -/
theorem handle_response (h : BetweenResponses k streams d) (startOff : Nat) (startSeq : Seq) :
    HandledResponse streams sid d
      (d.handleFrame (responseHeader sid) [0x88] startOff startSeq).1
      (d.handleFrame (responseHeader sid) [0x88] startOff startSeq).2.decoded := by
  have hfragment : headerBlockFragment (responseHeader sid) [0x88] = some [0x88] := by
    have hpadded : (responseHeader sid).has Flags.padded = false := by
      rw [response_has]
      decide
    have hpriority : (responseHeader sid).has Flags.priority = false := by
      rw [response_has]
      decide
    have hpush : FrameType.headers ≠ FrameType.pushPromise := by decide
    simp [headerBlockFragment, stripPadLength, hpadded, hpriority, response_typ, hpush]
  have hopened : d.addFragment (responseHeader sid) [0x88] =
      some { d with block := [0x88], blockHdr := some (responseHeader sid) } := by
    have hdrop : d.dropOpenBlock = d := by
      rw [dropOpenBlock, h.blockHdr]
      rfl
    have hnote : d.notePromised (responseHeader sid) [0x88] = d := rfl
    rw [addFragment, response_typ, if_neg (by decide), hfragment, hdrop, hnote, h.block]
    rfl
  have hend : (responseHeader sid).has Flags.endHeaders = true := by
    rw [response_has]
    decide
  have hstream : (responseHeader sid).has Flags.endStream = false := by
    rw [response_has]
    decide
  rw [handle_header_frame d rfl, hopened]
  dsimp only
  rw [finishIfEnd, if_pos hend]
  generalize hopen : ({ d with block := [0x88], blockHdr := some (responseHeader sid) } :
    Direction) = opened
  have hdecode : opened.dec.decode opened.block = (Decoder.newExact,
      .ok [⟨asciiBytes ":status", asciiBytes "200", false, false⟩]) := by
    rw [← hopen]
    exact h.dec ▸ decode_response
  rcases hfinish : opened.finishBlock with ⟨d', decoded⟩
  have hopenHdr : opened.blockHdr = some (responseHeader sid) := by rw [← hopen]
  rcases finish_block_cases hopenHdr hfinish with
    ⟨dec, e, herror, -⟩ | ⟨dec, fields, hok, rfl, rfl⟩
  · rw [hdecode] at herror
    cases herror
  · rw [hdecode] at hok
    cases hok
    have hstreams : opened.openStreams = streams := by
      rw [← hopen]
      exact h.openStreams
    have hkept : opened.desynced = d.desynced ∧ opened.poisoned = d.poisoned ∧
        opened.decodeErrors = d.decodeErrors := by
      rw [← hopen]
      exact ⟨rfl, rfl, rfl⟩
    have hknown : opened.blockPromised = none ∧ opened.dec = .newExact := by
      rw [← hopen]
      exact ⟨h.blockPromised, h.dec⟩
    have hpush : FrameType.headers ≠ FrameType.pushPromise := by decide
    refine ⟨hkept.1, rfl, rfl, rfl, rfl, ?_, hkept.2.1, hkept.2.2, ?_⟩
    · show opened.openStreamsAfter (responseHeader sid) = _
      rw [openStreamsAfter, response_typ, if_neg hpush, hstream, hstreams]
      rfl
    · have hkind : opened.blockKind (responseHeader sid) = responseKind streams sid := by
        rw [blockKind, response_typ, if_neg hpush, hstreams]
        rfl
      rw [hkind, hknown.1, hknown.2, hstream]
      rfl

omit [HuffmanDecoding] in
theorem response_frame_eq (sid : Nat) :
    responseFrame sid = (responseHeader sid).write ++ [0x88] := rfl

omit [HuffmanDecoding] in
theorem response_frame_length (sid : Nat) : (responseFrame sid).length = 10 := by
  rw [response_frame_eq, List.length_append, FrameHeader.write_length]
  rfl

/-- Nothing is left to parse between two responses. -/
theorem parse_between_responses (h : BetweenResponses k streams d) : d.parse = (d, []) := by
  obtain ⟨hdiscard, hpending, hsynced, hpreface⟩ := at_frame_parts h.atFrame
  refine parse_of_stop ?_
  rw [parseStep, if_neg (by omega), hpending]
  simp only [hsynced, hpreface, frameStep, h.empty, FrameHeader.parse, Bool.false_eq_true, if_false]

/-- A response that is all that is buffered. -/
theorem parse_response (h : BetweenResponses k streams { d with reasm := d.reasm.consume 10 })
    (hsid : sid < 2 ^ 31) (hbuffered : d.reasm.available = responseFrame sid) :
    BetweenResponses k (afterResponse streams sid) d.parse.1 ∧
      decodedBlocks d.parse.2 = [responseBlock sid (responseKind streams sid)] := by
  have hat : d.atFrame = true := h.atFrame
  obtain ⟨hdiscard, hpending, hsynced, hpreface⟩ := at_frame_parts hat
  have hheader : FrameHeader.parse d.reasm.available = some (responseHeader sid) := by
    rw [hbuffered, response_frame_eq]
    exact FrameHeader.parse_write (by decide : 1 < 2 ^ 24) hsid [0x88]
  have hpayload : (d.reasm.available.drop frameHeaderLen).take (responseHeader sid).len =
      [0x88] := by
    rw [hbuffered, response_frame_eq, ← FrameHeader.write_length (responseHeader sid),
      List.drop_left]
    rfl
  have hwant : d.wantPayload (responseHeader sid) = true := by
    have hlen : (responseHeader sid).len ≤ maxBufferedFrame := by
      show 1 ≤ maxBufferedFrame
      decide
    have hframe : (responseHeader sid).isHeaderFrame = true := rfl
    rw [wantPayload, hframe, decide_eq_true hlen, Bool.or_true, Bool.true_or]
    rfl
  have hturn : d.parseStep = .more (d.takeFrame (responseHeader sid)).1
      (some (d.takeFrame (responseHeader sid)).2) := by
    have hlong : ¬d.reasm.available.length < frameHeaderLen + (responseHeader sid).len := by
      rw [hbuffered, response_frame_length]
      show ¬10 < frameHeaderLen + 1
      decide
    rw [parseStep, if_neg (by omega), hpending]
    simp only [hsynced, hpreface, frameStep, hheader, hwant, if_neg hlong, Bool.false_eq_true,
      if_false, if_true]
  -- the direction whose frame is handled stands after the response
  have hbetween : BetweenResponses k streams
      { d with reasm := d.reasm.consume 10, frames := d.frames + 1 } :=
    ⟨h.order, h.empty, h.atFrame, h.dec, h.block, h.blockHdr, h.blockPromised, h.openStreams,
      h.poisoned, h.decodeErrors⟩
  obtain ⟨taken, htaken⟩ : ∃ taken, taken = d.takeFrame (responseHeader sid) := ⟨_, rfl⟩
  have htake : taken = ({ d with
      reasm := d.reasm.consume 10, frames := d.frames + 1 } : Direction).handleFrame
        (responseHeader sid) [0x88] d.reasm.offset d.reasm.nextUnparsedSeq := by
    rw [htaken, takeFrame, hpayload]
    rfl
  have hhandled : HandledResponse streams sid _ _ _ :=
    handle_response hbetween d.reasm.offset d.reasm.nextUnparsedSeq
  have hplace := same_position_handle_frame
    { d with reasm := d.reasm.consume 10, frames := d.frames + 1 } (responseHeader sid) [0x88]
    d.reasm.offset d.reasm.nextUnparsedSeq
  rw [← htake] at hhandled hplace
  rw [← htaken] at hturn
  have hat : taken.1.atFrame = true := by
    rw [atFrame, hplace.discard, hplace.pendingStartSeq, hplace.expectPreface, hhandled.desynced]
    exact h.atFrame
  have hafter : BetweenResponses k (afterResponse streams sid) taken.1 :=
    ⟨hplace.reasm ▸ h.order, hplace.reasm ▸ h.empty, hat, hhandled.dec, hhandled.block,
      hhandled.blockHdr, hhandled.blockPromised, hhandled.openStreams,
      hhandled.poisoned.trans h.poisoned, hhandled.decodeErrors.trans h.decodeErrors⟩
  rw [parse_of_more hturn, parse_between_responses hafter]
  exact ⟨hafter, decoded_blocks_singleton hhandled.decoded⟩

/-- A segment that holds the next response. -/
theorem feed_response (h : BetweenResponses k streams d) (hsid : sid < 2 ^ 31) :
    BetweenResponses (k + 10) (afterResponse streams sid)
        (d.feed (1 + BitVec.ofNat 32 k) (responseFrame sid) 0).1 ∧
      decodedBlocks (d.feed (1 + BitVec.ofNat 32 k) (responseFrame sid) 0).2 =
        [responseBlock sid (responseKind streams sid)] := by
  obtain ⟨hgap, havailable, horder⟩ := Reassembler.push_in_order h.order (responseFrame sid) 0
  rw [h.empty, List.nil_append] at havailable
  rw [response_frame_length] at horder
  have hreceived : d.withReassembled (d.reasm.push (1 + BitVec.ofNat 32 k) (responseFrame sid) 0) =
      { d with reasm := (d.reasm.push (1 + BitVec.ofNat 32 k) (responseFrame sid) 0).1 } := by
    rw [withReassembled, hgap]
    rfl
  rw [feed, hreceived]
  generalize (d.reasm.push (1 + BitVec.ofNat 32 k) (responseFrame sid) 0).1 = pushed
    at havailable horder
  refine parse_response ⟨horder.consume 10, ?_, h.atFrame, h.dec, h.block, h.blockHdr,
    h.blockPromised, h.openStreams, h.poisoned, h.decodeErrors⟩ hsid havailable
  show (Reassembler.consume _ 10).available = []
  rw [Reassembler.available_consume, havailable]
  exact List.drop_eq_nil_of_le (response_frame_length sid).le

omit [HuffmanDecoding] in
/-- The frame of a response. -/
def responseOf (sid : Nat) : Frame where
  head := (responseHeader sid).write
  hdr := responseHeader (sid % 2 ^ 31)
  payload := [0x88]
  head_length := FrameHeader.write_length _
  parse_eq := by
    have hsame : (responseHeader sid).write = (responseHeader (sid % 2 ^ 31)).write ++ [] := by
      rw [List.append_nil, FrameHeader.write, FrameHeader.write, responseHeader, responseHeader,
        Nat.mod_mod]
    rw [hsame]
    exact FrameHeader.parse_write (by decide : 1 < 2 ^ 24) (Nat.mod_lt _ (by decide)) []
  payload_length := rfl

/-- The first `n` of a row of responses, each on a stream of its own. -/
def responses (n : Nat) : List Frame := (List.range n).map fun i => responseOf (2 * i + 1)

omit [HuffmanDecoding] in
theorem responses_succ (n : Nat) : responses (n + 1) = responses n ++ [responseOf (2 * n + 1)] := by
  rw [responses, List.range_succ, List.map_append]
  rfl

omit [HuffmanDecoding] in
theorem responses_length (n : Nat) : (framesWire (responses n)).length = 10 * n := by
  induction n with
  | zero => rfl
  | succ n ih =>
      have hone : (framesWire [responseOf (2 * n + 1)]).length = 10 := response_frame_length _
      rw [responses_succ, framesWire, List.flatMap_append, List.length_append]
      show (framesWire (responses n)).length + (framesWire [responseOf (2 * n + 1)]).length = _
      rw [ih, hone]
      omega

/-- A server direction at its first segment. -/
def atFirstSegment (keepPayloads : Bool) : Direction :=
  { fromConnectionStart keepPayloads false with reasm := Reassembler.new.start 1 }

/-- The streams of the first `n` responses. -/
def responseStreams (n : Nat) : Finset Nat := (Finset.range n).image fun i => 2 * i + 1

omit [HuffmanDecoding] in
theorem response_streams_card (n : Nat) : (responseStreams n).card = n := by
  rw [responseStreams, Finset.card_image_of_injective _ fun i j hij => ?_, Finset.card_range]
  have heven : 2 * i + 1 = 2 * j + 1 := hij
  omega

omit [HuffmanDecoding] in
theorem response_stream_new (n : Nat) : 2 * n + 1 ∉ responseStreams n := by
  rw [responseStreams, Finset.mem_image]
  rintro ⟨i, hi, hsid⟩
  have hlt := Finset.mem_range.mp hi
  omega

omit [HuffmanDecoding] in
theorem response_streams_succ (n : Nat) :
    responseStreams (n + 1) = insert (2 * n + 1) (responseStreams n) := by
  rw [responseStreams, Finset.range_add_one, Finset.image_insert]
  rfl

/-- Up to 65,537 responses are all known to be open. -/
theorem run_responses (keepPayloads : Bool) {n : Nat} (hn : n ≤ 65537) :
    BetweenResponses (10 * n) (responseStreams n)
        (run perform (atFirstSegment keepPayloads) (frameOps 1 (responses n))).1 ∧
      decodedInRun (atFirstSegment keepPayloads) (frameOps 1 (responses n)) =
        (List.range n).map fun i => responseBlock (2 * i + 1) .headers := by
  induction n with
  | zero => exact ⟨⟨Reassembler.in_order_start 1, rfl, rfl, rfl, rfl, rfl, rfl, rfl, rfl, rfl⟩, rfl⟩
  | succ n ih =>
      obtain ⟨hbetween, hblocks⟩ := ih (by omega)
      obtain ⟨hafter, hblock⟩ := feed_response hbetween (show 2 * n + 1 < 2 ^ 31 by omega)
      have hstreams : afterResponse (responseStreams n) (2 * n + 1) = responseStreams (n + 1) := by
        rw [afterResponse, response_streams_card, if_neg (by omega), response_streams_succ]
      have hkind : responseKind (responseStreams n) (2 * n + 1) = .headers :=
        if_neg (response_stream_new n)
      rw [hstreams] at hafter
      rw [hkind] at hblock
      rw [responses_succ, frame_ops_concat, responses_length, List.range_succ, List.map_append,
        List.map_singleton]
      refine ⟨?_, ?_⟩
      · rw [run_concat_fst]
        exact hafter
      · rw [decoded_in_run_concat, hblocks]
        exact congrArg _ hblock

/-- The response that is one too many, and trailers after it. -/
theorem run_one_too_many (keepPayloads : Bool) {n : Nat} (hn : n = 65537) :
    BetweenResponses (10 * n + 10 + 10) {1, 2 * n + 1} (run perform (atFirstSegment keepPayloads)
        (frameOps 1 (responses (n + 1) ++ [responseOf 1]))).1 ∧
      decodedInRun (atFirstSegment keepPayloads)
          (frameOps 1 (responses (n + 1) ++ [responseOf 1])) =
        ((List.range (n + 1)).map fun i => responseBlock (2 * i + 1) .headers) ++
          [responseBlock 1 .headers] := by
  obtain ⟨hbetween, hblocks⟩ := run_responses keepPayloads hn.le
  obtain ⟨hafter, hblock⟩ := feed_response hbetween (show 2 * n + 1 < 2 ^ 31 by omega)
  -- the set is cleared, so only the last stream is left in it
  have hstreams : afterResponse (responseStreams n) (2 * n + 1) = {2 * n + 1} := by
    rw [afterResponse, response_streams_card, if_pos (by omega)]
  have hkind : responseKind (responseStreams n) (2 * n + 1) = .headers :=
    if_neg (response_stream_new n)
  have hlost : responseKind {2 * n + 1} 1 = .headers := by
    refine if_neg fun hmem => ?_
    have hsame := Finset.mem_singleton.mp hmem
    omega
  have hlast : afterResponse {2 * n + 1} 1 = {1, 2 * n + 1} := by
    rw [afterResponse, Finset.card_singleton, if_neg (by decide)]
  rw [hstreams] at hafter
  rw [hkind] at hblock
  obtain ⟨htrailed, htrailers⟩ := feed_response hafter (show 1 < 2 ^ 31 by decide)
  rw [hlost] at htrailers
  rw [hlast] at htrailed
  have hops : frameOps 1 (responses (n + 1) ++ [responseOf 1]) = frameOps 1 (responses n) ++
      [.feed (1 + BitVec.ofNat 32 (10 * n)) (responseFrame (2 * n + 1)) 0] ++
      [.feed (1 + BitVec.ofNat 32 (10 * n + 10)) (responseFrame 1) 0] := by
    rw [frame_ops_concat, responses_length, responses_succ, frame_ops_concat, responses_length]
    rfl
  rw [hops, run_concat_fst, decoded_in_run_concat, run_concat_fst, decoded_in_run_concat, hblocks,
    List.range_succ, List.map_append, List.map_singleton]
  exact ⟨htrailed, congrArg₂ _ (congrArg _ hblock) htrailers⟩

/-- The first segment sets the base. -/
theorem perform_first_segment (keepPayloads : Bool) :
    (fromConnectionStart keepPayloads false).perform (.feed 1 (responseFrame 1) 0) =
      (atFirstSegment keepPayloads).perform (.feed 1 (responseFrame 1) 0) := by
  have hdata : responseFrame 1 ≠ [] := by decide
  show ((fromConnectionStart keepPayloads false).withReassembled
    (Reassembler.new.push 1 (responseFrame 1) 0)).parse = _
  rw [Reassembler.push_start _ _ hdata]
  rfl

/-- The first of the responses sets the base for all. -/
theorem run_first_segment (keepPayloads : Bool) (n : Nat) (later : List Frame) :
    run perform (fromConnectionStart keepPayloads false)
        (frameOps 1 (responses (n + 1) ++ later)) =
      run perform (atFirstSegment keepPayloads) (frameOps 1 (responses (n + 1) ++ later)) := by
  rw [responses, List.range_succ_eq_map, List.map_cons, List.cons_append, frameOps,
    List.map_cons, segmentOps, run, run]
  show ((run perform ((fromConnectionStart keepPayloads false).perform
    (.feed 1 (responseFrame 1) 0)).1 _).1, _) = _
  rw [perform_first_segment]
  rfl

end

/-- A server that has answered 65,538 requests, with the trailers of the first answer still to come:
these are called headers. -/
theorem trailers_of_live_stream_lost :
    let _ := noHuffman.toHuffmanDecoding
    ¬∀ (keepPayloads expectPreface : Bool) (base : Seq) (frames : List Frame),
      (run perform (fromConnectionStart keepPayloads expectPreface)
        (frameOps base frames)).1.decodeErrors = 0 →
      (run perform (fromConnectionStart keepPayloads expectPreface)
        (frameOps base frames)).1.poisoned = false →
      ∀ before b after,
        decodedInRun (fromConnectionStart keepPayloads expectPreface) (frameOps base frames) =
          before ++ b :: after →
        b.kind ≠ .pushPromise → (b.kind = .trailers ↔ OpenBy before b.streamId) := by
  intro _ hall
  obtain ⟨n, hn⟩ : ∃ n, n = 65537 := ⟨_, rfl⟩
  obtain ⟨hafter, hblocks⟩ := run_one_too_many false hn
  have hrun := run_first_segment false n [responseOf 1]
  have hfirst := hall false false 1 (responses (n + 1) ++ [responseOf 1])
  rw [decodedInRun, hrun] at hfirst
  have hopen : OpenBy ((List.range (n + 1)).map fun i => responseBlock (2 * i + 1) .headers) 1 := by
    rw [List.range_succ_eq_map, List.map_cons]
    refine ⟨[], responseBlock 1 .headers, _, rfl, ⟨BlockKind.noConfusion, rfl⟩, rfl, ?_⟩
    intro b hb _ _
    obtain ⟨i, -, rfl⟩ := List.mem_map.mp hb
    rfl
  exact BlockKind.noConfusion ((hfirst hafter.decodeErrors hafter.poisoned _ _ _ hblocks
    BlockKind.noConfusion).mpr hopen)

end Direction

end H2Tap
