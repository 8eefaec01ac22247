import H2Tap.Conn.Direction

/-!
# Normalized frames

What `rebuild.rs` writes for a frame: a header block is encoded anew, as literals that need no
dynamic table, other frames pass through, and a block that could not be decoded leaves a marker.
-/

namespace H2Tap

/-- `encode_literal`: literals that leave the dynamic table of a decoder alone. -/
def encodeLiteral (fields : List Field) : Bytes :=
  fields.flatMap fun f =>
    (if f.sensitive then 0x10 else 0x00) :: (writeString f.name ++ writeString f.value)

/-- The loop of `encode_block` over what is left of the block. -/
def encodeChunks (streamId : Nat) (typ baseFlags : UInt8) (maxFrame : Nat) (first : Bool)
    (rest : Bytes) : List Bytes :=
  let n := min rest.length (max maxFrame 1)
  let last := (rest.drop n).isEmpty
  let flags := (if first then baseFlags else 0) ||| (if last then Flags.endHeaders else 0)
  let frame :=
    buildFrame (if first then typ else FrameType.continuation) flags streamId (rest.take n)
  if _h : last = true then [frame]
  else frame :: encodeChunks streamId typ baseFlags maxFrame false (rest.drop n)
termination_by rest.length
decreasing_by
  have hne : rest.drop n ≠ [] := fun heq => _h (List.isEmpty_iff.mpr heq)
  have hpos := List.length_pos_iff.mpr hne
  rw [List.length_drop] at hpos ⊢
  omega

/-- `encode_block`: HEADERS or PUSH_PROMISE, and CONTINUATION for what does not fit. Padding and
priority are gone. -/
def encodeBlock (blk : DecodedBlock) (maxFrame : Nat) : List Bytes :=
  let promised :=
    if blk.kind = .pushPromise then
      match blk.promisedStreamId with
      | some sid => toBeBytes 4 (sid % 2 ^ 31)
      | none => []
    else []
  let typ := if blk.kind = .pushPromise then FrameType.pushPromise else FrameType.headers
  let baseFlags := if blk.endStream && typ == FrameType.headers then Flags.endStream else 0
  encodeChunks blk.streamId typ baseFlags maxFrame true (promised ++ encodeLiteral blk.fields)

/-- The block that stands for one that could not be decoded. Stream 0 is illegal for HEADERS. -/
def failureMarker : DecodedBlock where
  streamId := 1
  fields := [Field.new (asciiBytes "@hpack-decode-failed")
    (asciiBytes "header block could not be decoded")]
  endStream := false
  kind := .headers
  promisedStreamId := none
  exact := false
  unresolved := 0

/-- What the rebuilder writes out. -/
inductive Normalized where
  | block (blk : DecodedBlock)
  | frame (hdr : FrameHeader) (payload : Bytes)
  | failed
  deriving DecidableEq

/-- The frames of what is written out. -/
def Normalized.frames : Normalized → List Bytes
  | .block blk => encodeBlock blk defaultMaxFrameSize
  | .frame hdr payload => [buildFrame hdr.typ hdr.flags hdr.streamId payload]
  | .failed => encodeBlock failureMarker defaultMaxFrameSize

/-- What the rebuilder makes of a frame. A truncated frame is dropped, and so is one that only
carries a part of a header block. -/
def normalize (f : ProcessedFrame) : Option Normalized :=
  if f.truncated then none
  else if f.isHeaderFrame then f.decoded.map .block
  else some (.frame f.hdr f.payload)

end H2Tap
