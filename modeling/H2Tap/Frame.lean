import H2Tap.Basic

/-!
# The HTTP/2 frame layer

`frame.rs`: the nine-byte frame header, what is read out of HEADERS, PUSH_PROMISE and SETTINGS
payloads, and the plausibility checks with which a mid-stream join hunts for a frame boundary.
-/

namespace H2Tap

/-- `FRAME_HEADER_LEN`. -/
def frameHeaderLen : Nat := 9

/-- `PREFACE`: what a client sends first. -/
def preface : Bytes := asciiBytes "PRI * HTTP/2.0\r\n\r\nSM\r\n\r\n"

theorem preface_length : preface.length = 24 := by decide +kernel

/-! ## Frame types and flags -/

namespace FrameType

def data : UInt8 := 0x0
def headers : UInt8 := 0x1
def priority : UInt8 := 0x2
def rstStream : UInt8 := 0x3
def settings : UInt8 := 0x4
def pushPromise : UInt8 := 0x5
def ping : UInt8 := 0x6
def goaway : UInt8 := 0x7
def windowUpdate : UInt8 := 0x8
def continuation : UInt8 := 0x9

end FrameType

namespace Flags

def endStream : UInt8 := 0x01
def ack : UInt8 := 0x01
def endHeaders : UInt8 := 0x04
def padded : UInt8 := 0x08
def priority : UInt8 := 0x20

end Flags

/-- `SETTINGS_HEADER_TABLE_SIZE`. -/
def settingsHeaderTableSizeId : Nat := 0x1

/-- `DEFAULT_MAX_FRAME_SIZE`. -/
def defaultMaxFrameSize : Nat := 16384

/-- `from_be_bytes`. -/
def fromBeBytes (b : Bytes) : Nat := b.foldl (fun n x => n * 256 + x.toNat) 0

/-- `to_be_bytes` of a number of `width` bytes. -/
def toBeBytes (width n : Nat) : Bytes :=
  (List.range width).reverse.map fun i => (n / 256 ^ i).toUInt8

theorem from_be_bytes_concat (b : Bytes) (x : UInt8) :
    fromBeBytes (b ++ [x]) = fromBeBytes b * 256 + x.toNat := by
  rw [fromBeBytes, fromBeBytes, List.foldl_append]
  rfl

theorem from_be_bytes_lt (b : Bytes) : fromBeBytes b < 256 ^ b.length := by
  induction b using List.reverseRecOn with
  | nil => exact Nat.one_pos
  | append_singleton b x ih =>
      have hx : x.toNat < 256 := x.toNat_lt
      rw [from_be_bytes_concat, List.length_append, List.length_singleton, Nat.pow_succ]
      omega

/-- Big-endian numbers of one length are the same only if their bytes are. -/
theorem from_be_bytes_inj {a b : Bytes} (hlength : a.length = b.length)
    (h : fromBeBytes a = fromBeBytes b) : a = b := by
  induction a using List.reverseRecOn generalizing b with
  | nil => exact (List.length_eq_zero_iff.mp hlength.symm).symm
  | append_singleton a x ih =>
      obtain rfl | ⟨b, y, rfl⟩ := List.eq_nil_or_concat' b
      · simp at hlength
      · have hx : x.toNat < 256 := x.toNat_lt
        have hy : y.toNat < 256 := y.toNat_lt
        simp only [List.length_append, List.length_singleton, Nat.add_right_cancel_iff] at hlength
        simp only [from_be_bytes_concat] at h
        obtain rfl := ih hlength (by omega)
        obtain rfl : x = y := UInt8.toNat_inj.mp (by omega)
        rfl

@[simp] theorem to_be_bytes_length (width n : Nat) : (toBeBytes width n).length = width := by
  simp [toBeBytes]

theorem to_be_bytes_succ (width n : Nat) :
    toBeBytes (width + 1) n = toBeBytes width (n / 256) ++ [n.toUInt8] := by
  rw [toBeBytes, List.range_succ_eq_map, List.reverse_cons, List.map_append, ← List.map_reverse,
    List.map_map, toBeBytes]
  congr 1
  · refine List.map_congr_left fun i _ => ?_
    rw [Function.comp, Nat.succ_eq_add_one, Nat.pow_succ', Nat.div_div_eq_div_mul]
  · simp

/-- `from_be_bytes` undoes `to_be_bytes` on numbers that fit. -/
theorem from_be_bytes_to_be_bytes (width n : Nat) :
    fromBeBytes (toBeBytes width n) = n % 256 ^ width := by
  induction width generalizing n with
  | zero => rw [Nat.pow_zero, Nat.mod_one]; rfl
  | succ width ih =>
      have hbyte : n.toUInt8.toNat = n % 256 := by
        rw [Nat.toUInt8, UInt8.toNat_ofNat']
      rw [to_be_bytes_succ, from_be_bytes_concat, ih, hbyte, Nat.pow_succ', Nat.mod_mul]
      ring

/-! ## The frame header -/

structure FrameHeader where
  len : Nat
  typ : UInt8
  flags : UInt8
  streamId : Nat
  deriving DecidableEq, Repr

namespace FrameHeader

/-- `FrameHeader::parse`: `none` on fewer than nine bytes. The top bit of the stream identifier is
reserved and ignored. -/
def parse : Bytes → Option FrameHeader
  | l0 :: l1 :: l2 :: typ :: flags :: s0 :: s1 :: s2 :: s3 :: _ =>
      some {
        len := fromBeBytes [l0, l1, l2]
        typ := typ
        flags := flags
        streamId := fromBeBytes [s0, s1, s2, s3] % 2 ^ 31 }
  | _ => none

/-- `FrameHeader::write`. -/
def write (h : FrameHeader) : Bytes :=
  toBeBytes 3 h.len ++ [h.typ, h.flags] ++ toBeBytes 4 (h.streamId % 2 ^ 31)

/-- `FrameHeader::total_len`. -/
def totalLen (h : FrameHeader) : Nat := frameHeaderLen + h.len

/-- `FrameHeader::has`. -/
def has (h : FrameHeader) (flag : UInt8) : Bool := h.flags &&& flag != 0

/-- HEADERS, CONTINUATION or PUSH_PROMISE: the frames that carry header blocks. -/
def isHeaderFrame (h : FrameHeader) : Bool :=
  h.typ == FrameType.headers || h.typ == FrameType.continuation ||
    h.typ == FrameType.pushPromise

theorem parse_isSome_iff (b : Bytes) : (parse b).isSome = true ↔ frameHeaderLen ≤ b.length := by
  rcases b with
    _ | ⟨_, _ | ⟨_, _ | ⟨_, _ | ⟨_, _ | ⟨_, _ | ⟨_, _ | ⟨_, _ | ⟨_, _ | ⟨_, _⟩⟩⟩⟩⟩⟩⟩⟩⟩ <;>
    simp [parse, frameHeaderLen]

theorem parse_eq_none_iff (b : Bytes) : parse b = none ↔ b.length < frameHeaderLen := by
  have h := parse_isSome_iff b
  cases hparse : parse b with
  | none => simpa [hparse] using h
  | some hdr => simpa [hparse] using h

theorem length_of_parse {b : Bytes} {hdr : FrameHeader} (h : parse b = some hdr) :
    frameHeaderLen ≤ b.length :=
  (parse_isSome_iff b).mp (by simp [h])

/-- Bytes after the ninth do not matter. -/
theorem parse_append {b : Bytes} {hdr : FrameHeader} (h : parse b = some hdr) (rest : Bytes) :
    parse (b ++ rest) = some hdr := by
  rcases b with
    _ | ⟨_, _ | ⟨_, _ | ⟨_, _ | ⟨_, _ | ⟨_, _ | ⟨_, _ | ⟨_, _ | ⟨_, _ | ⟨_, _⟩⟩⟩⟩⟩⟩⟩⟩⟩ <;>
    simp_all [parse]

/-- `parse` undoes `write`, whatever follows. -/
theorem parse_write {h : FrameHeader} (hlen : h.len < 2 ^ 24) (hsid : h.streamId < 2 ^ 31)
    (rest : Bytes) : parse (h.write ++ rest) = some h := by
  have hlow : fromBeBytes (toBeBytes 3 h.len) = h.len := by
    rw [from_be_bytes_to_be_bytes]
    exact Nat.mod_eq_of_lt hlen
  have hstream : fromBeBytes (toBeBytes 4 h.streamId) = h.streamId := by
    rw [from_be_bytes_to_be_bytes]
    exact Nat.mod_eq_of_lt (by omega)
  obtain ⟨l0, l1, l2, hl⟩ := List.length_eq_three.mp (to_be_bytes_length 3 h.len)
  obtain ⟨s0, s1, s2, s3, hs⟩ : ∃ s0 s1 s2 s3, toBeBytes 4 h.streamId = [s0, s1, s2, s3] :=
    ⟨_, _, _, _, rfl⟩
  rw [hl] at hlow
  rw [hs] at hstream
  simp only [write, Nat.mod_eq_of_lt hsid, hl, hs, List.cons_append, List.nil_append, parse, hlow,
    hstream]

@[simp] theorem write_length (h : FrameHeader) : h.write.length = frameHeaderLen := by
  simp [write, frameHeaderLen]

end FrameHeader

/-- `build_frame`. -/
def buildFrame (typ flags : UInt8) (streamId : Nat) (payload : Bytes) : Bytes :=
  FrameHeader.write ⟨payload.length, typ, flags, streamId⟩ ++ payload

/-! ## Payloads -/

/-- The pad length and the bytes after it, for a padded frame. -/
def stripPadLength (hdr : FrameHeader) (payload : Bytes) : Option (Nat × Bytes) :=
  if hdr.has Flags.padded then
    match payload with
    | [] => none
    | n :: rest => some (n.toNat, rest)
  else some (0, payload)

/-- The first `n` bytes removed, `none` if there are fewer. -/
def stripBytes (n : Nat) (b : Bytes) : Option Bytes :=
  if b.length < n then none else some (b.drop n)

/-- `header_block_fragment`: the payload without padding, priority and promised stream id. -/
def headerBlockFragment (hdr : FrameHeader) (payload : Bytes) : Option Bytes := do
  let (pad, p) ← stripPadLength hdr payload
  let p ← if hdr.typ = FrameType.headers ∧ hdr.has Flags.priority then stripBytes 5 p else some p
  let p ← if hdr.typ = FrameType.pushPromise then stripBytes 4 p else some p
  if pad > p.length then none else some (p.take (p.length - pad))

/-- The promised stream id that `handle_frame` reads ahead of a PUSH_PROMISE block. -/
def promisedStreamId (hdr : FrameHeader) (payload : Bytes) : Option Nat :=
  match if hdr.has Flags.padded then payload.drop 1 else payload with
  | s0 :: s1 :: s2 :: s3 :: _ => some (fromBeBytes [s0, s1, s2, s3] % 2 ^ 31)
  | _ => none

/-- The last SETTINGS_HEADER_TABLE_SIZE among the six-byte entries of a SETTINGS payload. -/
def lastTableSize (found : Option Nat) : Bytes → Option Nat
  | i0 :: i1 :: v0 :: v1 :: v2 :: v3 :: rest =>
      lastTableSize
        (if fromBeBytes [i0, i1] = settingsHeaderTableSizeId
          then some (fromBeBytes [v0, v1, v2, v3])
          else found) rest
  | _ => found

/-- `settings_header_table_size`: it bounds the encoder of the opposite direction. -/
def settingsHeaderTableSize (hdr : FrameHeader) (payload : Bytes) : Option Nat :=
  if hdr.typ ≠ FrameType.settings ∨ hdr.has Flags.ack then none
  else lastTableSize none payload

/-! ## Hunting for a frame boundary -/

/-- `MAX_PLAUSIBLE_FRAME`. -/
def maxPlausibleFrame : Nat := 2 ^ 20

/-- `frame_header_plausible`. -/
def frameHeaderPlausible (h : FrameHeader) : Bool :=
  if h.typ > 0x0c || h.len > maxPlausibleFrame then false
  else if h.typ = FrameType.data then h.streamId != 0
  else if h.typ = FrameType.headers || h.typ = FrameType.continuation then h.streamId != 0
  else if h.typ = FrameType.priority then h.streamId != 0 && h.len == 5
  else if h.typ = FrameType.rstStream then h.streamId != 0 && h.len == 4
  else if h.typ = FrameType.settings then h.streamId == 0 && h.len % 6 == 0
  else if h.typ = FrameType.pushPromise then h.streamId != 0 && h.len ≥ 4
  else if h.typ = FrameType.ping then h.streamId == 0 && h.len == 8
  else if h.typ = FrameType.goaway then h.streamId == 0 && h.len ≥ 8
  else if h.typ = FrameType.windowUpdate then h.len == 4
  else true

/-- The outcome of testing a candidate frame boundary. -/
inductive ChainCheck where
  | ok
  | bad
  | needMore
  deriving DecidableEq, Repr

/-- The loop of `check_frame_chain` with `ok` frames accepted, the bytes after them, and the number
of frames still wanted. -/
def checkChainFrom (minAccept ok : Nat) (b : Bytes) : Nat → ChainCheck
  | 0 => .ok
  | left + 1 =>
      match FrameHeader.parse b with
      | none => if ok ≥ minAccept then .ok else .needMore
      | some h =>
          if frameHeaderPlausible h then checkChainFrom minAccept (ok + 1) (b.drop h.totalLen) left
          else .bad

/-- `check_frame_chain`. -/
def checkFrameChain (b : Bytes) (want minAccept : Nat) : ChainCheck :=
  checkChainFrom minAccept 0 b want

end H2Tap
