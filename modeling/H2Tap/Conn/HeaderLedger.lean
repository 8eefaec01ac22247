import H2Tap.Lib.Run
import H2Tap.Conn.ParseLoop

/-!
# No header-block bytes are lost unnoticed

The parser takes header frames one at a time and hands a block to the decoder when its last frame
arrives. `Books` runs a direction together with a ledger of the fragments that were consumed and not
yet accounted for: a fragment leaves the ledger when it is handed over as part of a whole block, or
when the direction withdraws its trust. What is left must be the open block (`NothingLost`). Two
kinds of frame break this: a header frame too large to buffer, and a block that begins while one is
open. `header_bytes_accounted` shows that nothing else does.
-/

namespace H2Tap.Direction

open Lib

/-! ## The ledger -/

/-- The header block fragment a frame carries, `none` if the frame is malformed. -/
def frameFragment (hdr : FrameHeader) (payload : Bytes) : Option Bytes :=
  if hdr.typ = FrameType.continuation then some payload else headerBlockFragment hdr payload

/-- The header frame the next turn consumes, with its fragment; `none` for the fragment if the
payload is dropped or malformed. -/
def consumedFragment (d : Direction) : Option (FrameHeader × Option Bytes) :=
  if d.atFrame then
    match FrameHeader.parse d.reasm.available with
    | none => none
    | some hdr =>
        if !hdr.isHeaderFrame then none
        else if d.wantPayload hdr then
          d.turnFrame.map fun frame => (hdr, frameFragment hdr frame.2)
        else some (hdr, none)
  else none

/-- The bytes of a list of fragments, if none is missing. -/
def wholeBlock : List (Option Bytes) → Option Bytes
  | [] => some []
  | fragment :: later => do
      let b ← fragment
      let bs ← wholeBlock later
      pure (b ++ bs)

/-- The direction cannot be trusted and knows it. -/
def withdrawn (d : Direction) : Bool := d.poisoned && d.dec.table.isEmpty

/-- The ledger after a step to `d` that consumed a fragment or handed a block to the decoder. -/
def settle (ledger : List (Option Bytes)) (consumed : Option (Option Bytes))
    (handedOver : Option Bytes) (d : Direction) : List (Option Bytes) :=
  let all := ledger ++ consumed.toList
  if handedOver.isSome && wholeBlock all == handedOver then []
  else if wholeBlock all == some d.block then all
  else if d.withdrawn then (if d.blockHdr.isSome then consumed.toList else [])
  else all

/-- A direction with the ledger of its header-block fragments. -/
structure Books where
  direction : Direction
  ledger : List (Option Bytes)

/-- The fragments that are not accounted for are those of the open block. -/
def Books.NothingLost (books : Books) : Prop :=
  wholeBlock books.ledger = some books.direction.block

instance (books : Books) : Decidable books.NothingLost :=
  inferInstanceAs (Decidable (wholeBlock books.ledger = some books.direction.block))

section

variable [HuffmanDecoding]

/-- The books after every turn of the parse loop. -/
def bookParse (ledger : List (Option Bytes)) (d : Direction) : List Books :=
  match _h : d.parseStep with
  | .stop d' => [⟨d', ledger⟩]
  | .more d' _ =>
      ⟨d', settle ledger (d.consumedFragment.map Prod.snd) d.blockToDecode d'⟩ ::
        bookParse (settle ledger (d.consumedFragment.map Prod.snd) d.blockToDecode d') d'
termination_by d.work
decreasing_by exact work_parse_step _h

omit [HuffmanDecoding] in
/-- The books after reassembly. -/
def Books.reassembled (books : Books) (pushed : Reassembler × Bool) : Books :=
  ⟨books.direction.withReassembled pushed,
    settle books.ledger none none (books.direction.withReassembled pushed)⟩

/-- The books after every step of an operation. -/
def bookEntries (books : Books) : DirOp → List Books
  | .feed seq data nowUs =>
      let start := books.reassembled (books.direction.reasm.push seq data nowUs)
      start :: bookParse start.ledger start.direction
  | .tick nowUs =>
      let checked := books.direction.reasm.checkTimeout nowUs
      if checked.2 then
        let start := books.reassembled checked
        start :: bookParse start.ledger start.direction
      else [⟨{ books.direction with reasm := checked.1 }, books.ledger⟩]
  | .applyPeerCapacity n => [⟨books.direction.applyPeerCapacity n, books.ledger⟩]

/-- One operation with its books. -/
def keepBooks (books : Books) (op : DirOp) : Books × List Books :=
  ((bookEntries books op).getLastD books, bookEntries books op)

/-- Keeping books does not change what the direction does. -/
theorem book_parse_direction (ledger : List (Option Bytes)) (d : Direction) (books : Books) :
    ((bookParse ledger d).getLastD books).direction = d.parse.1 := by
  induction hwork : d.work using Nat.strongRecOn generalizing d ledger books with
  | ind n ih =>
      subst hwork
      rw [bookParse]
      split
      · next hturn => simp [parse_of_stop hturn]
      · next hturn =>
          rw [parse_of_more hturn, List.getLastD_cons]
          exact ih _ (work_parse_step hturn) _ _ _ rfl

theorem keep_books_direction (books : Books) (op : DirOp) :
    (keepBooks books op).1.direction = (books.direction.perform op).1 := by
  cases op with
  | feed seq data nowUs =>
      simp only [keepBooks, bookEntries, List.getLastD_cons]
      exact book_parse_direction _ _ _
  | tick nowUs =>
      simp only [keepBooks, bookEntries, perform, tick]
      split
      · rw [List.getLastD_cons]
        exact book_parse_direction _ _ _
      · rfl
  | applyPeerCapacity n => rfl

/-! ## Steps -/

/-- A header frame that the next turn consumes is small enough to be buffered, and if it begins a
block then none is open. -/
def keepsHeaderBytes (d : Direction) : Bool :=
  match d.consumedFragment with
  | none => true
  | some (hdr, _) =>
      decide (hdr.len ≤ maxBufferedFrame) &&
        (hdr.typ == FrameType.continuation || d.blockHdr.isNone)

/-- `keepsHeaderBytes` at every turn of an operation. -/
def opKeepsHeaderBytes (books : Books) (op : DirOp) : Bool :=
  (books.direction.opTurns op).all keepsHeaderBytes

omit [HuffmanDecoding] in
theorem whole_block_append (ledger : List (Option Bytes)) (frag : Bytes) {b : Bytes}
    (h : wholeBlock ledger = some b) : wholeBlock (ledger ++ [some frag]) = some (b ++ frag) := by
  induction ledger generalizing b with
  | nil =>
      cases h
      simp [wholeBlock]
  | cons fragment later ih =>
      cases fragment with
      | none => simp [wholeBlock] at h
      | some f =>
          simp only [wholeBlock, bind, Option.bind_eq_some_iff, pure, Option.some.injEq] at h
          obtain ⟨_, rfl, bs, hbs, rfl⟩ := h
          simp [wholeBlock, ih hbs]

omit [HuffmanDecoding] in
/-- A step that consumes no fragment and hands nothing over keeps the open block, or withdraws
trust and closes it. -/
theorem nothing_lost_settle {ledger : List (Option Bytes)} (all : List (Option Bytes))
    {consumed : Option (Option Bytes)}
    {d : Direction} (hall : ledger ++ consumed.toList = all)
    (h : wholeBlock all = some d.block ∨
      (d.withdrawn = true ∧ d.blockHdr = none ∧ d.block = [])) :
    (Books.mk d (settle ledger consumed none d)).NothingLost := by
  simp only [settle, hall, Option.isSome_none, Bool.false_and, Bool.false_eq_true, if_false]
  by_cases hopen : wholeBlock all = some d.block
  · simp only [hopen, beq_self_eq_true, if_true]
    exact hopen
  · obtain ⟨hwithdrawn, hclosed, hempty⟩ := h.resolve_left hopen
    have hne : (wholeBlock all == some d.block) = false := by simpa using hopen
    simp only [hne, hwithdrawn, hclosed, Option.isSome_none, Bool.false_eq_true, if_false, if_true]
    show wholeBlock [] = some d.block
    rw [hempty]
    rfl

omit [HuffmanDecoding] in
/-- A whole block that is handed over leaves nothing behind. -/
theorem nothing_lost_settle_decoded {ledger : List (Option Bytes)}
    {consumed : Option (Option Bytes)} {block : Bytes} {d : Direction}
    (hwhole : wholeBlock (ledger ++ consumed.toList) = some block) (hempty : d.block = []) :
    (Books.mk d (settle ledger consumed (some block) d)).NothingLost := by
  simp only [settle, hwhole, Option.isSome_some, beq_self_eq_true, Bool.and_self, if_true]
  show wholeBlock [] = some d.block
  rw [hempty]
  rfl

omit [HuffmanDecoding] in
/-- A frame that begins no block while one is open adds its fragment to the end of the block. -/
theorem add_fragment_block {d opened : Direction} {hdr : FrameHeader} {payload : Bytes}
    (hbegins : hdr.typ = FrameType.continuation ∨ d.blockHdr = none)
    (h : d.addFragment hdr payload = some opened) :
    ∃ frag, frameFragment hdr payload = some frag ∧ opened.block = d.block ++ frag := by
  unfold addFragment at h
  split at h
  · next hcontinuation =>
      split at h
      · cases h
      · cases h
        exact ⟨payload, by simp [frameFragment, hcontinuation], rfl⟩
  · next hcontinuation =>
      obtain ⟨frag, hfrag, rfl⟩ := Option.map_eq_some_iff.mp h
      refine ⟨frag, by simp [frameFragment, hcontinuation, hfrag], ?_⟩
      have hclosed := hbegins.resolve_left hcontinuation
      have hblock : (d.dropOpenBlock.notePromised hdr payload).block = d.block := by
        simp only [dropOpenBlock, hclosed, Option.isSome_none, Bool.false_eq_true, if_false,
          notePromised]
        split
        · split <;> rfl
        · rfl
      simp only [hblock]

omit [HuffmanDecoding] in
/-- A turn that takes a header frame consumes its fragment. -/
theorem consumed_fragment_of_take {d : Direction} {hdr : FrameHeader} {payload : Bytes}
    (hframe : d.turnFrame = some (hdr, payload)) (hheader : hdr.isHeaderFrame = true) :
    d.consumedFragment = some (hdr, frameFragment hdr payload) := by
  obtain ⟨hat, hparse, hwant, -, -⟩ := turn_frame_eq_some hframe
  simp [consumedFragment, hat, hparse, hheader, hwant, hframe]

omit [HuffmanDecoding] in
/-- A header frame that is taken continues the open block, or none is open. -/
theorem begins_of_keeps {d : Direction} {hdr : FrameHeader} {payload : Bytes}
    (hframe : d.turnFrame = some (hdr, payload)) (hheader : hdr.isHeaderFrame = true)
    (hguard : d.keepsHeaderBytes = true) :
    hdr.typ = FrameType.continuation ∨ d.blockHdr = none := by
  simp only [keepsHeaderBytes, consumed_fragment_of_take hframe hheader, Bool.and_eq_true,
    Bool.or_eq_true] at hguard
  simpa using hguard.2

omit [HuffmanDecoding] in
/-- A frame that is stepped over carries no header block. -/
theorem other_of_unwanted {d : Direction} {hdr : FrameHeader} (hat : d.atFrame = true)
    (hparse : FrameHeader.parse d.reasm.available = some hdr) (hwant : d.wantPayload hdr = false)
    (hguard : d.keepsHeaderBytes = true) : hdr.isHeaderFrame = false := by
  cases hheader : hdr.isHeaderFrame with
  | false => rfl
  | true =>
      simp only [keepsHeaderBytes, consumedFragment, hat, hparse, hheader, hwant, if_true,
        Bool.not_true, Bool.false_eq_true, if_false, Bool.and_eq_true,
        decide_eq_true_eq] at hguard
      simp [wantPayload, hheader, hguard.1] at hwant

/-- A turn that takes a header frame accounts for its fragment. -/
theorem nothing_lost_take {ledger : List (Option Bytes)} {d d' : Direction} {hdr : FrameHeader}
    {payload : Bytes} {decoded : Option DecodedBlock} (h : (Books.mk d ledger).NothingLost)
    (hframe : d.turnFrame = some (hdr, payload)) (hguard : d.keepsHeaderBytes = true)
    (hcases : TakeOutcome d hdr payload d' decoded) :
    (Books.mk d' (settle ledger (d.consumedFragment.map Prod.snd) d.blockToDecode
      d')).NothingLost := by
  obtain ⟨hat, hparse, hwant, -, -⟩ := turn_frame_eq_some hframe
  have hconsumed := consumed_fragment_of_take hframe
  have hblock : ∀ {opened : Direction}, hdr.isHeaderFrame = true →
      d.addFragment hdr payload = some opened →
      wholeBlock (ledger ++ [frameFragment hdr payload]) = some opened.block := by
    intro opened hheader hadd
    obtain ⟨frag, hfrag, happend⟩ :=
      add_fragment_block (begins_of_keeps hframe hheader hguard) hadd
    rw [hfrag, happend]
    exact whole_block_append ledger frag h
  cases hcases with
  | other _ hheader hsame =>
      have hnone : d.consumedFragment = none := by
        simp [consumedFragment, hat, hparse, hheader]
      have hdecode : d.blockToDecode = none := by simp [blockToDecode, hframe, hheader]
      rw [hnone, hdecode]
      refine nothing_lost_settle ledger (by simp) (Or.inl ?_)
      rw [hsame.block]
      exact h
  | bad _ hheader hadd hsame =>
      have hdecode : d.blockToDecode = none := by
        simp [blockToDecode, hframe, hadd]
      rw [hconsumed hheader, hdecode]
      refine nothing_lost_settle _ rfl (Or.inr ⟨?_, hsame.blockHdr, hsame.block⟩)
      simp [withdrawn, hsame.poisoned, hsame.dec, markBadBlock, Decoder.resetPartial]
  | opened opened _ hheader hadd hend hsame =>
      have hdecode : d.blockToDecode = none := by simp [blockToDecode, hframe, hend]
      rw [hconsumed hheader, hdecode]
      refine nothing_lost_settle _ rfl (Or.inl ?_)
      rw [hsame.block]
      exact hblock hheader hadd
  | failed opened _ dec e hheader hadd hend hdecode hsame =>
      have hdecode : d.blockToDecode = some opened.block := by
        simp [blockToDecode, hframe, hheader, hend, hadd]
      rw [hconsumed hheader, hdecode]
      exact nothing_lost_settle_decoded (hblock hheader hadd) hsame.block
  | decoded opened _ bhdr dec fields hheader hadd hend hbhdr hdecode hsame =>
      have hdecode : d.blockToDecode = some opened.block := by
        simp [blockToDecode, hframe, hheader, hend, hadd]
      rw [hconsumed hheader, hdecode]
      exact nothing_lost_settle_decoded (hblock hheader hadd) hsame.block

/-- A turn that returns no frame was not at a frame boundary. -/
theorem at_frame_of_move {d d' : Direction} (h : d.parseStep = .more d' none) :
    d.atFrame = false := by
  cases hat : d.atFrame with
  | false => rfl
  | true =>
      obtain ⟨hdiscard, hpending, hsynced, hpreface⟩ := at_frame_parts hat
      simp only [parseStep, hdiscard, hpending, hsynced, hpreface, gt_iff_lt, lt_self_iff_false,
        Bool.false_eq_true, if_false, frameStep] at h
      split at h
      · cases h
      · split at h
        · split at h <;> cases h
        · cases h

/-- Every turn that loses no header frame accounts for what it consumes. -/
theorem nothing_lost_turn {ledger : List (Option Bytes)} {d d' : Direction}
    {frame : Option ProcessedFrame} (h : (Books.mk d ledger).NothingLost)
    (hguard : d.keepsHeaderBytes = true) (hturn : d.parseStep = .more d' frame) :
    (Books.mk d' (settle ledger (d.consumedFragment.map Prod.snd) d.blockToDecode
      d')).NothingLost := by
  have hmove : ∀ {d' : Direction}, d.consumedFragment = none → d.blockToDecode = none →
      d'.block = d.block → (Books.mk d' (settle ledger (d.consumedFragment.map Prod.snd)
        d.blockToDecode d')).NothingLost := by
    intro d' hnone hdecode hblock
    rw [hnone, hdecode]
    refine nothing_lost_settle ledger (by simp) (Or.inl ?_)
    rw [hblock]
    exact h
  have hcases := turn_cases d
  rw [hturn] at hcases
  cases hcases with
  | move _ hsame =>
      have hat := at_frame_of_move hturn
      exact hmove (by simp [consumedFragment, hat]) (by simp [blockToDecode, turnFrame, hat])
        hsame.block
  | misaligned _ hsame =>
      have hat := at_frame_of_move hturn
      exact hmove (by simp [consumedFragment, hat]) (by simp [blockToDecode, turnFrame, hat])
        hsame.block
  | skip hdr hat hparse hwant =>
      have hother := other_of_unwanted hat hparse hwant hguard
      exact hmove (by simp [consumedFragment, hat, hparse, hother])
        (by simp [blockToDecode, turnFrame, hat, hparse, hwant]) rfl
  | take hdr payload hframe => exact nothing_lost_take h hframe hguard (take_frame_cases hframe)

theorem nothing_lost_parse {ledger : List (Option Bytes)} {d : Direction}
    (h : (Books.mk d ledger).NothingLost) (hguard : ∀ t ∈ d.turns, t.keepsHeaderBytes = true) :
    ∀ books ∈ bookParse ledger d, books.NothingLost := by
  induction hwork : d.work using Nat.strongRecOn generalizing d ledger with
  | ind n ih =>
      subst hwork
      rw [bookParse]
      split
      · next d' hturn =>
          have hcases := turn_cases d
          rw [hturn] at hcases
          cases hcases with
          | stop _ hsame =>
              intro books hbooks
              obtain rfl := List.mem_singleton.mp hbooks
              show wholeBlock ledger = some d'.block
              rw [hsame.block]
              exact h
      · next d' frame hturn =>
          have hnext := nothing_lost_turn h (hguard d (mem_turns_self d)) hturn
          intro books hbooks
          rcases List.mem_cons.mp hbooks with rfl | hbooks
          · exact hnext
          · exact ih _ (work_parse_step hturn) hnext
              (fun t ht => hguard t (mem_turns_of_more hturn ht)) rfl books hbooks

omit [HuffmanDecoding] in
/-- A gap withdraws trust. -/
theorem nothing_lost_reassembled {books : Books} (h : books.NothingLost)
    (pushed : Reassembler × Bool) : (books.reassembled pushed).NothingLost := by
  refine nothing_lost_settle books.ledger (by simp) ?_
  unfold withReassembled
  split
  · exact Or.inr ⟨by simp [withdrawn, onGap, Decoder.resetPartial], rfl, rfl⟩
  · exact Or.inl h

/-- An operation that loses no header frame accounts for all it consumes, after every step. -/
theorem nothing_lost_entries (books : Books) (op : DirOp) (h : books.NothingLost)
    (hguard : opKeepsHeaderBytes books op = true) :
    ∀ entry ∈ bookEntries books op, entry.NothingLost := by
  have hparse : ∀ pushed, (∀ t ∈ (books.direction.withReassembled pushed).turns,
      t.keepsHeaderBytes = true) → ∀ entry ∈ books.reassembled pushed ::
        bookParse (books.reassembled pushed).ledger (books.reassembled pushed).direction,
        entry.NothingLost := by
    intro pushed hguard entry hentry
    have hstart := nothing_lost_reassembled h pushed
    rcases List.mem_cons.mp hentry with rfl | hentry
    · exact hstart
    · exact nothing_lost_parse hstart hguard entry hentry
  have hguard := List.all_eq_true.mp hguard
  cases op with
  | feed seq data nowUs => exact hparse _ hguard
  | tick nowUs =>
      simp only [bookEntries]
      split
      · next hgap =>
          refine hparse _ ?_
          simpa [opTurns, hgap] using hguard
      · intro entry hentry
        obtain rfl := List.mem_singleton.mp hentry
        exact h
  | applyPeerCapacity n =>
      intro entry hentry
      obtain rfl := List.mem_singleton.mp hentry
      exact h

theorem nothing_lost_keep_books (books : Books) (op : DirOp) (h : books.NothingLost)
    (hguard : opKeepsHeaderBytes books op = true) :
    (keepBooks books op).1.NothingLost ∧ ∀ entry ∈ (keepBooks books op).2, entry.NothingLost := by
  have hentries := nothing_lost_entries books op h hguard
  refine ⟨?_, hentries⟩
  have hlast : (bookEntries books op).getLastD books ∈ books :: bookEntries books op :=
    List.getLastD_mem_cons
  rcases List.mem_cons.mp hlast with heq | hmem
  · simp only [keepBooks]
    rw [heq]
    exact h
  · exact hentries _ hmem

/-- In every run from a direction without an open block in which no header frame is too large to
buffer and no block begins while another is open, every header-block fragment that was consumed has
been handed to the decoder as part of a whole block, or belongs to the open block, or was given up
by a step that withdrew trust: after every step, the fragments not accounted for are exactly the
open block. -/
theorem header_bytes_accounted (d : Direction) (ops : List DirOp) (hstart : d.block = [])
    (hkept : Guarded keepBooks (fun books op => opKeepsHeaderBytes books op = true) ⟨d, []⟩ ops) :
    (run keepBooks ⟨d, []⟩ ops).1.direction = (run perform d ops).1 ∧
      (run keepBooks ⟨d, []⟩ ops).1.NothingLost ∧
      ∀ entries ∈ (run keepBooks ⟨d, []⟩ ops).2, ∀ entry ∈ entries, entry.NothingLost := by
  constructor
  · exact (run_simulation keepBooks perform (s := ⟨d, []⟩) (t := d)
      (R := fun books d => books.direction = d) (Q := fun _ _ => True)
      (fun books d op h => ⟨(keep_books_direction books op).trans (by rw [h]), trivial⟩) ops rfl).1
  · refine run_invariant _ (Q := fun entries => ∀ entry ∈ entries, entry.NothingLost)
      nothing_lost_keep_books ?_ hkept
    show wholeBlock [] = some d.block
    rw [hstart]
    rfl

end

/-- A block in two frames, in a run that meets the guard. -/
theorem header_bytes_accounted_two_frames :
    let _ := noHuffman.toHuffmanDecoding
    let d := fromConnectionStart false false
    let ops := [DirOp.feed 1 ([0, 0, 1, FrameType.headers, 0, 0, 0, 0, 1, 0x82] ++
      [0, 0, 1, FrameType.continuation, Flags.endHeaders, 0, 0, 0, 1, 0x84]) 0]
    (run keepBooks ⟨d, []⟩ ops).1.direction = (run perform d ops).1 ∧
      (run keepBooks ⟨d, []⟩ ops).1.NothingLost ∧
      ∀ entries ∈ (run keepBooks ⟨d, []⟩ ops).2, ∀ entry ∈ entries, entry.NothingLost := by
  intro _ d ops
  exact header_bytes_accounted d ops rfl (by decide +kernel)

/-- A HEADERS frame one byte larger than the parser buffers, and a HEADERS frame that begins while
the block of another stream is open: in both runs the fragment is gone and the direction is
snapshottable. -/
theorem header_bytes_lost_unnoticed :
    let _ := noHuffman.toHuffmanDecoding
    let start := Books.mk (fromConnectionStart false false) []
    let oversized := (run keepBooks start
      [.feed 1 [0x10, 0, 1, FrameType.headers, Flags.endHeaders, 0, 0, 0, 1] 0]).1
    let abandoned := (run keepBooks start
      [.feed 1 ([0, 0, 1, FrameType.headers, 0, 0, 0, 0, 1, 0x82] ++
        [0, 0, 1, FrameType.headers, Flags.endHeaders, 0, 0, 0, 3, 0x84]) 0]).1
    (¬ oversized.NothingLost ∧ oversized.direction.isSnapshottable = true) ∧
      ¬ abandoned.NothingLost ∧ abandoned.direction.isSnapshottable = true := by
  decide +kernel

end H2Tap.Direction
