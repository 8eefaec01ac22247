import H2Tap.Hpack.Copy
import H2Tap.Conn.Received

/-!
# What an endpoint sends

A `Message` is a header block, cut into a HEADERS or PUSH_PROMISE frame and CONTINUATION frames, or
any other frame. `absorbed_messages` is what messages do to a direction that copies the sender's
table: every block is decoded to the headers the sender means and the copy is kept. Part of a header
block only fills the buffer (`absorbed_part`).
-/

namespace H2Tap

open Lib

section

variable [HuffmanCoding]

/-- A header block on the wire: what it stands for, and the frames its bytes are cut into, of which
the last one is flagged. -/
structure HeaderBlock where
  reps : List Rep
  headers : List Header
  first : Frame
  more : List Frame
  fragment : Bytes
  conformant : conformantBlock reps = true
  starts : first.hdr.typ = FrameType.headers ∨ first.hdr.typ = FrameType.pushPromise
  continues : ∀ f ∈ more, f.hdr.typ = FrameType.continuation
  fragment_eq : headerBlockFragment first.hdr first.payload = some fragment
  wire_eq : fragment ++ more.flatMap Frame.payload = blockWire reps
  ends : (first :: more).map (fun f => f.hdr.has Flags.endHeaders) =
    List.replicate more.length false ++ [true]

namespace HeaderBlock

/-- The frames in the order in which they are sent. -/
def frames (b : HeaderBlock) : List Frame := b.first :: b.more

/-- The promised stream id of a PUSH_PROMISE. -/
def promised (b : HeaderBlock) : Option Nat :=
  if b.first.hdr.typ = FrameType.pushPromise then promisedStreamId b.first.hdr b.first.payload
  else none

/-- The frames can be buffered, and the decoder can read the integers in the block. -/
def Readable (limit : Nat) (b : HeaderBlock) : Prop :=
  (∀ f ∈ b.frames, f.hdr.len ≤ maxBufferedFrame) ∧ ∀ r ∈ b.reps, r.Readable limit

instance (limit : Nat) (b : HeaderBlock) : Decidable (b.Readable limit) :=
  inferInstanceAs (Decidable (_ ∧ _))

theorem first_is_header (b : HeaderBlock) :
    b.first.hdr.isHeaderFrame = true ∧ b.first.hdr.typ ≠ FrameType.continuation := by
  rcases b.starts with h | h <;> simp only [FrameHeader.isHeaderFrame, h] <;> decide

/-- All frames but the last one go without the flag. -/
theorem cut_last (b : HeaderBlock) : ∃ front last, b.frames = front ++ [last] ∧
    last.hdr.has Flags.endHeaders = true ∧ ∀ f ∈ front, f.hdr.has Flags.endHeaders = false := by
  obtain ⟨front, last, hcut⟩ : ∃ front last, b.frames = front ++ [last] := by
    rcases List.eq_nil_or_concat b.frames with hnil | ⟨front, last, hcut⟩
    · cases hnil
    · exact ⟨front, last, by rw [hcut, List.concat_eq_append]⟩
  have hends : b.frames.map (fun f => f.hdr.has Flags.endHeaders) =
      List.replicate b.more.length false ++ [true] := b.ends
  rw [hcut, List.map_append] at hends
  obtain ⟨hfront, hlast⟩ := List.append_inj' hends rfl
  refine ⟨front, last, hcut, by simpa using hlast, ?_⟩
  intro f hf
  have hmem : f.hdr.has Flags.endHeaders ∈ List.replicate b.more.length false := by
    rw [← hfront]
    exact List.mem_map_of_mem hf
  exact List.eq_of_mem_replicate hmem

end HeaderBlock

/-- A header block, or a frame that has nothing to do with header blocks. -/
inductive Message where
  | block (b : HeaderBlock)
  | other (f : Frame) (hother : f.hdr.isHeaderFrame = false)

namespace Message

def frames : Message → List Frame
  | .block b => b.frames
  | .other f _ => [f]

def headerBlock : Message → Option HeaderBlock
  | .block b => some b
  | .other _ _ => none

/-- The SETTINGS_HEADER_TABLE_SIZE in the message, if the frame can be buffered. -/
def tableSize : Message → Option Nat
  | .block _ => none
  | .other f _ =>
      if f.hdr.len ≤ maxBufferedFrame then settingsHeaderTableSize f.hdr f.payload else none

/-- Header blocks are readable. -/
def Readable (limit : Nat) (m : Message) : Prop := ∀ b ∈ m.headerBlock, b.Readable limit

instance (limit : Nat) : ∀ m : Message, Decidable (m.Readable limit)
  | .block b => decidable_of_iff (b.Readable limit) ⟨fun h _ hb => Option.some.inj hb ▸ h,
      fun h => h b rfl⟩
  | .other _ _ => isTrue fun _ hb => nomatch hb

/-- A message has bytes. -/
theorem wire_length_pos (m : Message) : 0 < (framesWire m.frames).length := by
  have hframe : ∀ (f : Frame) (frames : List Frame),
      0 < (framesWire (f :: frames)).length := by
    intro f frames
    rw [frames_wire_cons, List.length_append, f.wire_length]
    exact Nat.lt_of_lt_of_le (Nat.succ_pos 8) (Nat.le_add_right_of_le (Nat.le_add_right _ _))
  cases m with
  | block b => exact hframe b.first b.more
  | other f hother => exact hframe f []

end Message

/-- The frames of a sequence of messages. -/
def messageFrames (messages : List Message) : List Frame := messages.flatMap Message.frames

@[simp] theorem message_frames_nil : messageFrames [] = [] := rfl

@[simp] theorem message_frames_cons (m : Message) (messages : List Message) :
    messageFrames (m :: messages) = m.frames ++ messageFrames messages := rfl

namespace Encoder

/-- The table after some messages, `none` if a header block is not valid for it. -/
def sendAll (e : Encoder) : List Message → Option Encoder
  | [] => some e
  | .block b :: messages => (e.emitAll b.reps).bind fun sent => sent.1.sendAll messages
  | .other _ _ :: messages => e.sendAll messages

/-- The messages are those of an endpoint with this table: its header blocks stand for the header
lists it means. -/
def Sends (e : Encoder) : List Message → Prop
  | [] => True
  | .block b :: messages => ∃ e', e.emitAll b.reps = some (e', b.headers) ∧ e'.Sends messages
  | .other _ _ :: messages => e.Sends messages

end Encoder

/-- The block is decoded to what its sender means, and known to be. -/
def DecodedBlock.Conveys (block : DecodedBlock) (b : HeaderBlock) : Prop :=
  block.streamId = b.first.hdr.streamId ∧ List.Forall₂ Field.Carries block.fields b.headers ∧
    block.exact = true

namespace Direction

/-! ## Header blocks -/

/-- Between two messages the direction copies the sender's table and has no block open. -/
structure Ready (limit : Nat) (e : Encoder) (d : Direction) : Prop where
  dec : d.dec.Copies limit e
  capacity : e.capacity < 2 ^ 32
  idle : d.block = [] ∧ d.blockHdr = none ∧ d.blockPromised = none
  place : d.desynced = false ∧ d.resyncs = 0

section

variable {limit : Nat} {e : Encoder} {d : Direction}

omit [HuffmanCoding] in
theorem Ready.has_place (h : d.Ready limit e) : ¬ d.LostPlace := by
  simp [LostPlace, h.place.1, h.place.2]

/-- The direction while a block is received, with the bytes of it so far. -/
def gathering (d : Direction) (b : HeaderBlock) (bytes : Bytes) : Direction :=
  { d with block := bytes, blockHdr := some b.first.hdr, blockPromised := b.promised }

/-- The first frame of a block. -/
theorem add_first_fragment (b : HeaderBlock)
    (hidle : d.block = [] ∧ d.blockHdr = none ∧ d.blockPromised = none) :
    d.addFragment b.first.hdr b.first.payload = some (d.gathering b b.fragment) := by
  obtain ⟨hblock, hclosed, hpromised⟩ := hidle
  have hdrop : d.dropOpenBlock = d := by simp [dropOpenBlock, hclosed]
  have hnote : d.notePromised b.first.hdr b.first.payload =
      { d with blockPromised := b.promised } := by
    unfold notePromised HeaderBlock.promised
    split
    · split
      · next sid hsid => rw [hsid]
      · next hsid => rw [hsid, ← hpromised]
    · rw [← hpromised]
  simp only [addFragment, b.first_is_header.2, if_false, b.fragment_eq, Option.map_some, hdrop,
    hnote, hblock, List.nil_append]
  rfl

/-- A further frame of it. -/
theorem add_more_fragment (b : HeaderBlock) (bytes : Bytes) {f : Frame}
    (hf : f.hdr.typ = FrameType.continuation) :
    (d.gathering b bytes).addFragment f.hdr f.payload =
      some (d.gathering b (bytes ++ f.payload)) := by
  simp only [addFragment, hf, if_true, gathering, Option.isNone_some, Bool.false_eq_true, if_false]

/-- Frames of a block that do not end it only fill the buffer. -/
theorem absorbed_more (b : HeaderBlock) (bytes : Bytes) {frames : List Frame}
    (hcontinues : ∀ f ∈ frames, f.hdr.typ = FrameType.continuation)
    (hlen : ∀ f ∈ frames, f.hdr.len ≤ maxBufferedFrame)
    (hopen : ∀ f ∈ frames, f.hdr.has Flags.endHeaders = false) :
    (d.gathering b bytes).absorbed frames =
        d.gathering b (bytes ++ frames.flatMap Frame.payload) ∧
      ∀ out ∈ (d.gathering b bytes).absorbOutput frames, out = (none, none) := by
  induction frames generalizing bytes with
  | nil => exact ⟨by simp [absorbed], by simp [absorbOutput]⟩
  | cons f frames ih =>
      have hf : f.hdr.typ = FrameType.continuation := hcontinues f List.mem_cons_self
      have habsorb := absorb_fragment (continuation_is_header hf) (hlen f List.mem_cons_self)
        (add_more_fragment (d := d) b bytes hf)
      simp only [finishIfEnd, hopen f List.mem_cons_self, Bool.false_eq_true, if_false] at habsorb
      obtain ⟨hstate, houts⟩ := ih (bytes ++ f.payload)
        (fun g hg => hcontinues g (List.mem_cons_of_mem _ hg))
        (fun g hg => hlen g (List.mem_cons_of_mem _ hg))
        (fun g hg => hopen g (List.mem_cons_of_mem _ hg))
      simp only [absorbed, absorbOutput, run, habsorb, List.mem_cons, forall_eq_or_imp,
        List.flatMap_cons, ← List.append_assoc] at hstate houts ⊢
      exact ⟨hstate, trivial, houts⟩

/-- Part of a block: nothing is returned, and only the buffer has changed. -/
theorem absorbed_front (b : HeaderBlock) (more : List Frame)
    (hidle : d.block = [] ∧ d.blockHdr = none ∧ d.blockPromised = none)
    (hlen : ∀ f ∈ b.first :: more, f.hdr.len ≤ maxBufferedFrame)
    (hcontinues : ∀ f ∈ more, f.hdr.typ = FrameType.continuation)
    (hopen : ∀ f ∈ b.first :: more, f.hdr.has Flags.endHeaders = false) :
    d.absorbed (b.first :: more) =
        d.gathering b (b.fragment ++ more.flatMap Frame.payload) ∧
      ∀ out ∈ d.absorbOutput (b.first :: more), out = (none, none) := by
  have habsorb := absorb_fragment b.first_is_header.1 (hlen b.first List.mem_cons_self)
    (add_first_fragment b hidle)
  simp only [finishIfEnd, hopen b.first List.mem_cons_self, Bool.false_eq_true, if_false] at habsorb
  obtain ⟨hstate, houts⟩ := absorbed_more (d := d) b b.fragment hcontinues
    (fun f hf => hlen f (List.mem_cons_of_mem _ hf))
    (fun f hf => hopen f (List.mem_cons_of_mem _ hf))
  simp only [absorbed, absorbOutput, run, habsorb, List.mem_cons,
    forall_eq_or_imp] at hstate houts ⊢
  exact ⟨hstate, trivial, houts⟩

/-- The end of a block that is valid for the table. -/
theorem finish_gathering (h : d.Ready limit e) {b : HeaderBlock} {e' : Encoder}
    (hreadable : b.Readable limit) (hemit : e.emitAll b.reps = some (e', b.headers)) :
    (d.gathering b (blockWire b.reps)).finishBlock.1.Ready limit e' ∧
      ∃ block, (d.gathering b (blockWire b.reps)).finishBlock.2 = some block ∧
        block.Conveys b := by
  obtain ⟨dec, fields, hdecode, hcopies, hcapacity, hcarries, hcount⟩ :=
    Decoder.copies_decode h.dec h.capacity hemit b.conformant hreadable.2
  have hopen : (d.gathering b (blockWire b.reps)).blockHdr = some b.first.hdr := rfl
  have hbuffer : (d.gathering b (blockWire b.reps)).dec.decode
      (d.gathering b (blockWire b.reps)).block = (dec, .ok fields) := hdecode
  simp only [finishBlock, hopen, hbuffer]
  refine ⟨⟨hcopies, hcapacity, ⟨rfl, rfl, rfl⟩, h.place⟩, _, rfl, rfl, hcarries, ?_⟩
  simp only [hcopies.isExact, gathering, hcount, Nat.sub_self, beq_self_eq_true, Bool.and_self]

/-- A whole block that is valid for the table. -/
theorem absorbed_block (h : d.Ready limit e) {b : HeaderBlock} {e' : Encoder}
    (hreadable : b.Readable limit) (hemit : e.emitAll b.reps = some (e', b.headers)) :
    (d.absorbed b.frames).Ready limit e' ∧
      (∃ block, blocksOf (d.absorbOutput b.frames) = [block] ∧ block.Conveys b) ∧
      sizesOf (d.absorbOutput b.frames) = [] := by
  obtain ⟨front, last, hcut, hlast, hfront⟩ := b.cut_last
  obtain ⟨hready, block, hblock, hconveys⟩ := finish_gathering h hreadable hemit
  have hlen := hreadable.1
  rw [hcut] at hlen
  -- before the last frame all bytes but its own are buffered
  obtain ⟨hheader, hadd, houts⟩ : last.hdr.isHeaderFrame = true ∧
      (d.absorbed front).addFragment last.hdr last.payload =
        some (d.gathering b (blockWire b.reps)) ∧
      ∀ out ∈ d.absorbOutput front, out = (none, none) := by
    rw [← b.wire_eq]
    cases front with
    | nil =>
        obtain ⟨hfirst, hmore⟩ := List.cons.inj hcut
        rw [← hfirst, hmore]
        refine ⟨b.first_is_header.1, ?_, by simp [absorbOutput]⟩
        rw [List.flatMap_nil, List.append_nil]
        exact add_first_fragment b h.idle
    | cons first front =>
        obtain ⟨rfl, hmore⟩ := List.cons.inj hcut
        have hcontinues := b.continues
        rw [hmore] at hcontinues ⊢
        obtain ⟨hstate, houts⟩ := absorbed_front b _ h.idle
          (fun f hf => hlen f (List.mem_append_left _ hf))
          (fun f hf => hcontinues f (List.mem_append_left _ hf)) hfront
        have hf := hcontinues last (List.mem_append_right _ List.mem_cons_self)
        refine ⟨continuation_is_header hf, ?_, houts⟩
        rw [hstate, add_more_fragment b _ hf]
        simp
  have habsorb := absorb_fragment hheader
    (hlen last (List.mem_append_right _ List.mem_cons_self)) hadd
  simp only [finishIfEnd, hlast, if_true] at habsorb
  obtain ⟨hblocks, hsizes⟩ := nothing_returned _ houts
  have hend : (d.absorbed front).absorbOutput [last] =
      [((d.gathering b (blockWire b.reps)).finishBlock.2, none)] := by
    simp only [absorbOutput, run, habsorb]
  rw [hcut, absorbed_append, absorb_output_append, absorbed_singleton, habsorb, hend, hblock]
  refine ⟨hready, ⟨block, ?_, hconveys⟩, ?_⟩
  · rw [blocks_of_append, hblocks]
    rfl
  · rw [sizes_of_append, hsizes]
    rfl

/-- Part of a block changes the buffer only, and returns nothing. -/
theorem absorbed_part (b : HeaderBlock)
    (hidle : d.block = [] ∧ d.blockHdr = none ∧ d.blockPromised = none)
    (hlen : ∀ f ∈ b.frames, f.hdr.len ≤ maxBufferedFrame) {j : Nat} (hj : j < b.frames.length) :
    (∃ block hdr promised, ∀ dec, ({ d with dec := dec } : Direction).absorbed (b.frames.take j) =
        { d with dec := dec, block := block, blockHdr := hdr, blockPromised := promised }) ∧
      ∀ out ∈ d.absorbOutput (b.frames.take j), out = (none, none) := by
  obtain ⟨front, last, hcut, -, hfront⟩ := b.cut_last
  cases j with
  | zero => exact ⟨⟨d.block, d.blockHdr, d.blockPromised, fun dec => rfl⟩, by simp [absorbOutput]⟩
  | succ j =>
      have hle : j + 1 ≤ front.length := by
        rw [hcut, List.length_append] at hj
        exact Nat.le_of_lt_succ hj
      have htake : b.frames.take (j + 1) = b.first :: b.more.take j := rfl
      have hopen : ∀ f ∈ b.first :: b.more.take j, f.hdr.has Flags.endHeaders = false := by
        intro f hf
        rw [← htake, hcut, List.take_append_of_le_length hle] at hf
        exact hfront f (List.mem_of_mem_take hf)
      have hfronts : ∀ dec, _ := fun dec => absorbed_front (d := { d with dec := dec }) b
        (b.more.take j) hidle
        (fun f hf => hlen f (by rw [← htake] at hf; exact List.mem_of_mem_take hf))
        (fun f hf => b.continues f (List.mem_of_mem_take hf)) hopen
      rw [htake]
      exact ⟨⟨_, _, _, fun dec => (hfronts dec).1⟩, (hfronts d.dec).2⟩

end

/-! ## Messages -/

section

variable {limit : Nat} {d : Direction}

/-- A frame that has nothing to do with header blocks. -/
theorem absorb_other (d : Direction) {f : Frame} (hother : f.hdr.isHeaderFrame = false) :
    d.absorb f = (d, (none, (Message.other f hother).tableSize)) := by
  have hsettings : ∀ payload, f.hdr.typ ≠ FrameType.settings →
      settingsHeaderTableSize f.hdr payload = none := by
    intro payload htyp
    simp only [settingsHeaderTableSize, htyp, ne_eq, not_false_eq_true, true_or, if_true]
  obtain ⟨hstate, hdecoded⟩ := absorb_without_block d (Or.inl hother)
  refine Prod.ext hstate (Prod.ext hdecoded ?_)
  simp only [absorb, Message.tableSize]
  split
  · next hwant =>
      simp only [wantPayload, Bool.and_eq_true, decide_eq_true_eq] at hwant
      rw [if_pos hwant.2]
      simp only [FrameHeader.isHeaderFrame, Bool.or_eq_false_iff, beq_eq_false_iff_ne] at hother
      obtain ⟨⟨hheaders, hcontinuation⟩, hpush⟩ := hother
      by_cases htyp : f.hdr.typ = FrameType.settings
      · simp only [handleFrame, htyp, if_true, frameOutput]
      · simp only [handleFrame, htyp, hheaders, hcontinuation, hpush, or_self, if_false,
          frameOutput, hsettings _ htyp]
  · next hwant =>
      split
      · next hlen =>
          have htyp : f.hdr.typ ≠ FrameType.settings := by
            intro htyp
            simp [wantPayload, htyp, hlen] at hwant
          rw [hsettings _ htyp]
      · rfl

/-- Messages whose header blocks are valid for the table that the direction copies. The sender's own
table may hold more. -/
theorem absorbed_messages {v e v' : Encoder} {messages later : List Message}
    (h : d.Ready limit v) (hwithin : v.Within e) (hsends : e.Sends (messages ++ later))
    (hreadable : ∀ m ∈ messages, m.Readable limit) (hvalid : v.sendAll messages = some v') :
    (d.absorbed (messageFrames messages)).Ready limit v' ∧
      List.Forall₂ DecodedBlock.Conveys (blocksOf (d.absorbOutput (messageFrames messages)))
        (messages.filterMap Message.headerBlock) ∧
      sizesOf (d.absorbOutput (messageFrames messages)) = messages.filterMap Message.tableSize ∧
      ∃ e', v'.Within e' ∧ e'.Sends later := by
  induction messages generalizing d v e with
  | nil =>
      cases hvalid
      exact ⟨h, .nil, rfl, e, hwithin, hsends⟩
  | cons m messages ih =>
      have hlater : ∀ m' ∈ messages, m'.Readable limit :=
        fun m' hm' => hreadable m' (List.mem_cons_of_mem _ hm')
      rw [message_frames_cons, absorbed_append, absorb_output_append, blocks_of_append,
        sizes_of_append]
      cases m with
      | block b =>
          obtain ⟨⟨v₁, headers⟩, hemit, hrest⟩ := Option.bind_eq_some_iff.mp hvalid
          obtain ⟨e₁, hemit', hsends₁⟩ := hsends
          obtain ⟨hwithin₁, rfl⟩ := hwithin.emit_all hemit hemit'
          obtain ⟨hready, ⟨block, hblock, hconveys⟩, hsizes⟩ :=
            absorbed_block h (hreadable _ List.mem_cons_self b rfl) hemit
          obtain ⟨hready', hblocks', hsizes', hsender⟩ := ih hready hwithin₁ hsends₁ hlater hrest
          refine ⟨hready', ?_, ?_, hsender⟩
          · simp only [Message.frames, hblock]
            exact .cons hconveys hblocks'
          · simp only [Message.frames, hsizes]
            exact hsizes'
      | other f hother =>
          have habsorb := absorb_other d hother
          have hstate : d.absorbed [f] = d := by rw [absorbed_singleton, habsorb]
          have hout : d.absorbOutput [f] = [(none, (Message.other f hother).tableSize)] := by
            simp only [absorbOutput, run, habsorb]
          obtain ⟨hready', hblocks', hsizes', hsender⟩ := ih h hwithin hsends hlater hvalid
          simp only [Message.frames, hstate, hout]
          refine ⟨hready', hblocks', ?_, hsender⟩
          simp only [sizesOf, List.filterMap_cons, List.filterMap_nil] at hsizes' ⊢
          cases (Message.other f hother).tableSize with
          | none => exact hsizes'
          | some n => exact congrArg (List.cons n) hsizes'

end

end Direction

end

end H2Tap
