import H2Tap.Lib.Run
import H2Tap.Hpack.KnownEntries
import H2Tap.Conn.ParseLoop

/-!
# When a block or a snapshot can be trusted to hold known fields only

A decoded block marked exact and a snapshottable table should hold no field whose name was never
observed. `exact_blocks_are_known` shows it for every run in which no header block inserts a literal
under an unresolvable name; `placeholder_in_snapshot` is a run with such a literal.
-/

namespace H2Tap.Direction

open Lib

section

variable [HuffmanDecoding]

/-- The block this turn hands to the decoder, if any, inserts known names only. -/
def turnInsertsKnownNames (d : Direction) : Bool :=
  d.blockToDecode.all d.dec.blockInsertsKnownNames

/-- `turnInsertsKnownNames` at every turn of an operation. -/
def opInsertsKnownNames (d : Direction) (op : DirOp) : Bool :=
  (d.opTurns op).all turnInsertsKnownNames

/-- A block that is marked exact has no unknown field. -/
def ExactKnown (decoded : Option DecodedBlock) : Prop :=
  ∀ block, decoded = some block → block.exact = true → ∀ f ∈ block.fields, f.unknown = false

/-- Taking a frame keeps the table known, and marks a block exact only if it has no unknown
field. -/
theorem known_take {d d' : Direction} {hdr : FrameHeader} {payload : Bytes}
    {decoded : Option DecodedBlock} (h : d.dec.KnownEntries)
    (hguard : ∀ opened, hdr.isHeaderFrame = true → hdr.has Flags.endHeaders = true →
      d.addFragment hdr payload = some opened →
      d.dec.blockInsertsKnownNames opened.block = true)
    (hcases : TakeOutcome d hdr payload d' decoded) :
    d'.dec.KnownEntries ∧ ExactKnown decoded := by
  have hnone : ExactKnown none := fun block hblock => by cases hblock
  cases hcases with
  | other _ hheader hsame => exact ⟨hsame.dec ▸ h, hnone⟩
  | bad _ hheader hadd hsame => exact ⟨hsame.dec ▸ Decoder.KnownEntries.of_reset, hnone⟩
  | opened opened _ hheader hadd hend hsame =>
      rw [hsame.dec, (add_fragment_open hadd).2.1]
      exact ⟨h, hnone⟩
  | failed opened _ dec e hheader hadd hend hdecode hsame =>
      exact ⟨hsame.dec ▸ Decoder.KnownEntries.of_reset, hnone⟩
  | decoded opened _ bhdr dec fields hheader hadd hend hbhdr hdecode hsame =>
      obtain ⟨hentries, hfields⟩ := Decoder.known_entries_decode h
        (hguard opened hheader hend hadd) hdecode
      refine ⟨hsame.dec ▸ hentries, ?_⟩
      intro block hblock hexact
      cases hblock
      simp only [Bool.and_eq_true, beq_iff_eq] at hexact
      exact hfields fields rfl hexact.2

/-- A turn keeps the table known, and marks a block exact only if it has no unknown field. -/
theorem known_turn {d d' : Direction} {frame : Option ProcessedFrame}
    (h : d.dec.KnownEntries) (hguard : d.turnInsertsKnownNames = true)
    (hturn : d.parseStep = .more d' frame) :
    d'.dec.KnownEntries ∧ ∀ pf ∈ frame, ExactKnown pf.decoded := by
  have hcases := turn_cases d
  rw [hturn] at hcases
  cases hcases with
  | move _ hsame => exact ⟨hsame.dec ▸ h, by simp⟩
  | misaligned _ hsame => exact ⟨hsame.dec ▸ Decoder.KnownEntries.of_reset, by simp⟩
  | skip hdr hat hparse hwant =>
      refine ⟨h, ?_⟩
      intro pf hpf block hblock
      cases hpf
      cases hblock
  | take hdr payload hframe =>
      obtain ⟨hentries, hexact⟩ := known_take h
        (by
          intro opened hheader hend hadd
          simpa [turnInsertsKnownNames, blockToDecode, hframe, hheader, hend, hadd] using hguard)
        (take_frame_cases hframe)
      refine ⟨hentries, ?_⟩
      intro pf hpf
      cases hpf
      exact hexact

/-- A whole parse loop. -/
theorem known_parse {d : Direction} (h : d.dec.KnownEntries)
    (hguard : ∀ t ∈ d.turns, t.turnInsertsKnownNames = true) :
    d.parse.1.dec.KnownEntries ∧ ∀ pf ∈ d.parse.2, ExactKnown pf.decoded := by
  refine parse_rule (P := fun d => d.dec.KnownEntries)
    (G := fun d => d.turnInsertsKnownNames = true) ?_ ?_ hguard h
  · intro d d' h hturn
    have hcases := turn_cases d
    rw [hturn] at hcases
    cases hcases with
    | stop _ hsame => exact hsame.dec ▸ h
  · intro d d' frame h hG hturn
    exact known_turn h hG hturn

omit [HuffmanDecoding] in
theorem known_reassembled {d : Direction} (h : d.dec.KnownEntries) (pushed : Reassembler × Bool) :
    (d.withReassembled pushed).dec.KnownEntries := by
  unfold withReassembled
  split
  · exact Decoder.KnownEntries.of_reset
  · exact h

/-- An operation that inserts known names only keeps the table known and returns blocks that are
marked exact only if they have no unknown field. -/
theorem known_perform (d : Direction) (op : DirOp) (h : d.dec.KnownEntries)
    (hguard : d.opInsertsKnownNames op = true) :
    (d.perform op).1.dec.KnownEntries ∧ ∀ pf ∈ (d.perform op).2, ExactKnown pf.decoded := by
  cases op with
  | feed seq data nowUs => exact known_parse (known_reassembled h _) (List.all_eq_true.mp hguard)
  | tick nowUs =>
      simp only [perform, tick]
      split
      · next hgap =>
          refine known_parse (known_reassembled h _) ?_
          simpa [opInsertsKnownNames, opTurns, hgap] using hguard
      · exact ⟨h, by simp⟩
  | applyPeerCapacity n => exact ⟨h.apply_peer_capacity n, by simp [perform]⟩

/-- A direction that starts with known entries, through any history of segments, timeouts and
announced table sizes in which no header block inserts a literal under a name that cannot be
resolved: every block it marks exact has known fields only, and so has its table whenever it is
snapshottable. -/
theorem exact_blocks_are_known (d : Direction) (ops : List DirOp)
    (hstart : ∀ f ∈ d.dec.table, f.unknown = false)
    (hknown : Guarded perform (fun d op => d.opInsertsKnownNames op = true) d ops) :
    (∀ frames ∈ (run perform d ops).2, ∀ pf ∈ frames, ∀ block, pf.decoded = some block →
        block.exact = true → ∀ f ∈ block.fields, f.unknown = false) ∧
      ((run perform d ops).1.isSnapshottable = true →
        ∀ f ∈ (run perform d ops).1.dec.table, f.unknown = false) := by
  have hrun := run_invariant _ (P := fun d => d.dec.KnownEntries)
    (Q := fun frames => ∀ pf ∈ frames, ExactKnown pf.decoded)
    (fun d op h hG => known_perform d op h hG) (s := d) hstart hknown
  exact ⟨fun frames hframes pf hpf => hrun.2 frames hframes pf hpf, fun _ => hrun.1⟩

end

/-- A HEADERS frame that opens and ends a block. -/
def headersFrame (streamId : UInt8) (block : Bytes) : Bytes :=
  [0, 0, block.length.toUInt8, FrameType.headers, Flags.endHeaders, 0, 0, 0, streamId] ++ block

/-- Two header blocks of a connection joined mid-stream: the first shrinks the table to 100 bytes
and fills it with an entry of its own, the second refers to that entry. -/
def ownEntryBlocks : Bytes :=
  headersFrame 1 ([0x3f, 0x45, 0x40] ++ writeString (asciiBytes "a name of eighteen") ++
    writeString (asciiBytes "twenty bytes, or so.")) ++ headersFrame 3 [0xbe]

theorem exact_blocks_are_known_own_entry :
    let _ := noHuffman.toHuffmanDecoding
    let ops := [DirOp.feed 1000 ownEntryBlocks 0]
    (∀ frames ∈ (run perform (joinedMidstream false) ops).2, ∀ pf ∈ frames, ∀ block,
        pf.decoded = some block → block.exact = true → ∀ f ∈ block.fields, f.unknown = false) ∧
      ((run perform (joinedMidstream false) ops).1.isSnapshottable = true →
        ∀ f ∈ (run perform (joinedMidstream false) ops).1.dec.table, f.unknown = false) := by
  intro _ ops
  exact exact_blocks_are_known (joinedMidstream false) ops (by decide) (by decide +kernel)

/-- The same with an entry whose name is that of an entry inserted before the capture. -/
def placeholderBlocks : Bytes :=
  headersFrame 1 ([0x3f, 0x45, 0x7e] ++ writeString (asciiBytes "twenty bytes, or so.")) ++
    headersFrame 3 [0xbe]

/-- The placeholder fills the table, which is then called exact: the second block is marked exact
with an unknown field, and a snapshot would carry the made-up name as a known one. -/
theorem placeholder_in_snapshot :
    let _ := noHuffman.toHuffmanDecoding
    let result := run perform (joinedMidstream false) [.feed 1000 placeholderBlocks 0]
    (∃ frames ∈ result.2, ∃ pf ∈ frames, ∃ block ∈ pf.decoded, block.exact = true ∧
      ∃ f ∈ block.fields, f.unknown = true) ∧
    result.1.isSnapshottable = true ∧ ∃ f ∈ result.1.dec.table, f.unknown = true := by
  decide +kernel

end H2Tap.Direction
