import H2Tap.Lib.Panic
import H2Tap.Packet

/-!
# Parsing a hostile packet

`parse_ethernet` as it stands in the source, with every index and every slice checked when it is
made: an access out of range panics. `raw_parse_ethernet` says that the parser of `Packet` does the
same, so that no byte string makes the source panic.
-/

namespace H2Tap.Pkt

open Lib

/-! ## The parser with checked accesses -/

namespace Raw

/-- `be16`. -/
def be16 (b : Bytes) : Outcome UInt16 := do
  let hi ← index b 0
  let lo ← index b 1
  return (fromBeBytes [hi, lo]).toUInt16

/-- `be32`. -/
def be32 (b : Bytes) : Outcome Seq := do
  let b0 ← index b 0
  let b1 ← index b 1
  let b2 ← index b 2
  let b3 ← index b 3
  return BitVec.ofNat 32 (fromBeBytes [b0, b1, b2, b3])

/-- The loop over the VLAN tags. -/
def skipVlanTags (frame : Bytes) (off : Nat) (ethertype : UInt16) : Outcome (Nat × UInt16) :=
  if ethertype = ethertypeVlan ∨ ethertype = ethertypeQinq then
    if h : frame.length < off + 4 then .none
    else do
      let inner ← be16 (← sliceFrom frame (off + 2))
      skipVlanTags frame (off + 4) inner
  else return (off, ethertype)
termination_by frame.length - off

/-- Four indexed bytes, as in `Ipv4Addr::new`. -/
def ipv4Addr (ip : Bytes) (off : Nat) : Outcome IpAddr := do
  let a ← index ip off
  let b ← index ip (off + 1)
  let c ← index ip (off + 2)
  let d ← index ip (off + 3)
  return .v4 ⟨[a, b, c, d], rfl⟩

/-- `parse_ipv4`. -/
def parseIpv4 (frame : Bytes) (off : Nat) : Outcome IpPayload := do
  let ip ← Outcome.ofOption (getFrom frame off)
  if ip.length < 20 then .none
  else if (← index ip 0) >>> 4 ≠ 4 then .none
  else do
    let ihl := ((← index ip 0) &&& 0x0f).toNat * 4
    if ihl < 20 ∨ ip.length < ihl then .none
    else if (← be16 (← sliceFrom ip 6)) &&& 0x3fff ≠ 0 then .none
    else if (← index ip 9) ≠ ipprotoTcp then .none
    else do
      let totalLen := (← be16 (← sliceFrom ip 2)).toNat
      if totalLen < ihl then .none
      else do
        let src ← ipv4Addr ip 12
        let dst ← ipv4Addr ip 16
        return (src, dst, ← Outcome.ofOption (getFrom ip ihl), totalLen - ihl)

/-- The loop over the extension headers. -/
def skipExtensions (ip : Bytes) (next : UInt8) (cur remaining : Nat) : Outcome (Nat × Nat) :=
  if next = ipprotoTcp then return (cur, remaining)
  else if next = 0 ∨ next = 43 ∨ next = 60 ∨ next = 135 then do
    let h ← getSlice ip cur (cur + 2)
    let len := ((← index h 1).toNat + 1) * 8
    let inner ← index h 0
    if remaining < len then .none
    else skipExtensions ip inner (cur + len) (remaining - len)
  else .none
termination_by remaining

/-- `parse_ipv6`. -/
def parseIpv6 (frame : Bytes) (off : Nat) : Outcome IpPayload := do
  let ip ← Outcome.ofOption (getFrom frame off)
  if ip.length < 40 then .none
  else if (← index ip 0) >>> 4 ≠ 6 then .none
  else do
    let payloadLen := (← be16 (← sliceFrom ip 4)).toNat
    let (cur, remaining) ← skipExtensions ip (← index ip 6) 40 payloadLen
    let src ← copyFromSlice 16 (← slice ip 8 24)
    let dst ← copyFromSlice 16 (← slice ip 24 40)
    return (.v6 src, .v6 dst, ← Outcome.ofOption (getFrom ip cur), remaining)

/-- The TCP header of `parse_ethernet`. -/
def parseTcp (ethDst ethSrc : Octets 6) (srcIp dstIp : IpAddr) (l4 : Bytes) (l4Len : Nat) :
    Outcome EthSegment :=
  if l4.length < 20 ∨ l4Len < 20 then .none
  else do
    let dataOff := ((← index l4 12) >>> 4).toNat * 4
    if dataOff < 20 ∨ dataOff > l4Len ∨ dataOff > l4.length then .none
    else do
      let payload ← slice l4 dataOff (min l4Len l4.length)
      let srcPort ← be16 (← sliceFrom l4 0)
      let dstPort ← be16 (← sliceFrom l4 2)
      let seq ← be32 (← sliceFrom l4 4)
      let ackSeq ← be32 (← sliceFrom l4 8)
      let flags ← index l4 13
      return {
        seq := seq
        flags := flags
        payload := payload
        ethDst := ethDst
        ethSrc := ethSrc
        src := ⟨srcIp, srcPort⟩
        dst := ⟨dstIp, dstPort⟩
        ackSeq := ackSeq }

/-- `parse_ethernet`. -/
def parseEthernet (frame : Bytes) : Outcome EthSegment :=
  if frame.length < 14 then .none
  else do
    let ethDst ← copyFromSlice 6 (← slice frame 0 6)
    let ethSrc ← copyFromSlice 6 (← slice frame 6 12)
    let (off, ethertype) ← skipVlanTags frame 14 (← be16 (← sliceFrom frame 12))
    let (src, dst, l4, l4Len) ←
      if ethertype = ethertypeIpv4 then parseIpv4 frame off
      else if ethertype = ethertypeIpv6 then parseIpv6 frame off
      else .none
    parseTcp ethDst ethSrc src dst l4 l4Len

end Raw

/-! ## No access is out of range -/

variable {b frame ip : Bytes} {off : Nat}

theorem raw_be16 (h : 2 ≤ b.length) : Raw.be16 b = .some (be16 b h) := by
  rw [Raw.be16, index_of_lt (by omega), Outcome.some_bind, index_of_lt (by omega),
    Outcome.some_bind, be16, Outcome.pure_eq]

theorem raw_be32 (h : 4 ≤ b.length) : Raw.be32 b = .some (be32 b h) := by
  rw [Raw.be32, index_of_lt (by omega), Outcome.some_bind, index_of_lt (by omega),
    Outcome.some_bind, index_of_lt (by omega), Outcome.some_bind, index_of_lt (by omega),
    Outcome.some_bind, be32, Outcome.pure_eq]

/-- The first two bytes of an extension header. -/
theorem raw_get_slice_two {cur : Nat} (hfirst : cur < ip.length) (h : cur + 1 < ip.length) :
    getSlice ip cur (cur + 2) = .some [ip[cur], ip[cur + 1]] := by
  have hbytes : (ip.take (cur + 2)).drop cur = [ip[cur], ip[cur + 1]] := by
    rw [List.drop_take, Nat.add_sub_cancel_left, List.drop_eq_getElem_cons (by omega),
      List.drop_eq_getElem_cons (by omega)]
    rfl
  rw [get_slice_of_le (by omega) (by omega), hbytes]

/-- A 16-bit field of a string that is long enough. -/
theorem raw_be16_drop {β : Type} {f : UInt16 → Outcome β} (h : 2 ≤ (b.drop off).length) :
    (sliceFrom b off >>= fun rest => Raw.be16 rest >>= f) = f (be16 (b.drop off) h) := by
  have hoff : off ≤ b.length := by
    rw [List.length_drop] at h
    omega
  rw [slice_from_of_le hoff, Outcome.some_bind, raw_be16 h, Outcome.some_bind]

/-- A 32-bit field of a string that is long enough. -/
theorem raw_be32_drop {β : Type} {f : Seq → Outcome β} (h : 4 ≤ (b.drop off).length) :
    (sliceFrom b off >>= fun rest => Raw.be32 rest >>= f) = f (be32 (b.drop off) h) := by
  have hoff : off ≤ b.length := by
    rw [List.length_drop] at h
    omega
  rw [slice_from_of_le hoff, Outcome.some_bind, raw_be32 h, Outcome.some_bind]

theorem raw_skip_vlan_tags (frame : Bytes) (off : Nat) (ethertype : UInt16) :
    Raw.skipVlanTags frame off ethertype =
      Outcome.ofOption (skipVlanTags frame off ethertype) := by
  induction off, ethertype using skipVlanTags.induct frame with
  | case1 off ethertype htag hshort =>
      rw [Raw.skipVlanTags, skipVlanTags, if_pos htag, if_pos htag, dif_pos hshort,
        dif_pos hshort]
      rfl
  | case2 off ethertype htag hlong ih =>
      have hinner : 2 ≤ (frame.drop (off + 2)).length := by
        rw [List.length_drop]
        omega
      rw [Raw.skipVlanTags, skipVlanTags, if_pos htag, if_pos htag, dif_neg hlong, dif_neg hlong,
        raw_be16_drop hinner]
      exact ih
  | case3 off ethertype huntagged =>
      rw [Raw.skipVlanTags, skipVlanTags, if_neg huntagged, if_neg huntagged]
      rfl

theorem raw_ipv4_addr (h : off + 4 ≤ ip.length) :
    Raw.ipv4Addr ip off = .some (.v4 (octetsAt ip off 4 h)) := by
  have hbytes : (ip.drop off).take 4 = [ip[off], ip[off + 1], ip[off + 2], ip[off + 3]] := by
    rw [List.drop_eq_getElem_cons (by omega), List.drop_eq_getElem_cons (by omega),
      List.drop_eq_getElem_cons (by omega), List.drop_eq_getElem_cons (by omega)]
    rfl
  rw [Raw.ipv4Addr, index_of_lt (by omega), Outcome.some_bind, index_of_lt (by omega),
    Outcome.some_bind, index_of_lt (by omega), Outcome.some_bind, index_of_lt (by omega),
    Outcome.some_bind, Outcome.pure_eq]
  exact congrArg (Outcome.some ∘ IpAddr.v4) (Subtype.ext hbytes.symm)

theorem raw_parse_ipv4 (frame : Bytes) (off : Nat) :
    Raw.parseIpv4 frame off = Outcome.ofOption (parseIpv4 frame off) := by
  rw [Raw.parseIpv4, parseIpv4, Option.bind_eq_bind, Outcome.of_option_bind]
  congr 1
  funext ip
  by_cases hshort : ip.length < 20
  · rw [if_pos hshort, dif_pos hshort]
    rfl
  have hlength : ∀ k, k ≤ 18 → 2 ≤ (ip.drop k).length := by
    intro k hk
    rw [List.length_drop]
    omega
  rw [if_neg hshort, dif_neg hshort, index_of_lt (by omega), Outcome.some_bind]
  by_cases hversion : ip[0] >>> 4 ≠ 4
  · rw [if_pos hversion, if_pos hversion]
    rfl
  rw [if_neg hversion, if_neg hversion, Outcome.some_bind]
  dsimp only
  split
  · rfl
  rename_i hihl
  rw [raw_be16_drop (hlength 6 (by omega))]
  split
  · rfl
  rw [index_of_lt (by omega), Outcome.some_bind]
  split
  · rfl
  rw [raw_be16_drop (hlength 2 (by omega))]
  split
  · rfl
  rw [raw_ipv4_addr (by omega), Outcome.some_bind, raw_ipv4_addr (by omega), Outcome.some_bind,
    Outcome.of_option_bind]
  rfl

theorem raw_skip_extensions (ip : Bytes) (next : UInt8) (cur remaining : Nat) :
    Raw.skipExtensions ip next cur remaining =
      Outcome.ofOption (skipExtensions ip next cur remaining) := by
  induction next, cur, remaining using skipExtensions.induct ip with
  | case1 cur remaining =>
      rw [Raw.skipExtensions, skipExtensions, if_pos rfl, if_pos rfl]
      rfl
  | case2 next cur remaining hnot hskip hlong len hshort =>
      rw [Raw.skipExtensions, skipExtensions, if_neg hnot, if_neg hnot, if_pos hskip,
        if_pos hskip, dif_pos hlong, raw_get_slice_two (by omega) (by omega)]
      show (if remaining < len then _ else _) = Outcome.ofOption (if remaining < len then _ else _)
      rw [if_pos hshort, if_pos hshort]
      rfl
  | case3 next cur remaining hnot hskip hlong len hfits ih =>
      rw [Raw.skipExtensions, skipExtensions, if_neg hnot, if_neg hnot, if_pos hskip,
        if_pos hskip, dif_pos hlong, raw_get_slice_two (by omega) (by omega)]
      show (if remaining < len then _ else _) = Outcome.ofOption (if remaining < len then _ else _)
      rw [if_neg hfits, if_neg hfits]
      exact ih
  | case4 next cur remaining hnot hskip hshort =>
      rw [Raw.skipExtensions, skipExtensions, if_neg hnot, if_neg hnot, if_pos hskip,
        if_pos hskip, dif_neg hshort, get_slice_of_lt (by omega)]
      rfl
  | case5 next cur remaining hnot hstop =>
      rw [Raw.skipExtensions, skipExtensions, if_neg hnot, if_neg hnot, if_neg hstop,
        if_neg hstop]
      rfl

/-- A slice of fixed size that is copied into an array. -/
theorem raw_octets_at {β : Type} {n hi : Nat} {f : Octets n → Outcome β} (hhi : hi = off + n)
    (h : off + n ≤ b.length) :
    (slice b off hi >>= fun octets => copyFromSlice n octets >>= f) = f (octetsAt b off n h) := by
  subst hhi
  have hbytes : (b.take (off + n)).drop off = (octetsAt b off n h).val := by
    rw [octetsAt, List.drop_take, Nat.add_sub_cancel_left]
  rw [slice_of_le (by omega) h, Outcome.some_bind, hbytes,
    copy_from_slice_of_length (octetsAt b off n h).2, Outcome.some_bind]

theorem raw_parse_ipv6 (frame : Bytes) (off : Nat) :
    Raw.parseIpv6 frame off = Outcome.ofOption (parseIpv6 frame off) := by
  rw [Raw.parseIpv6, parseIpv6, Option.bind_eq_bind, Outcome.of_option_bind]
  congr 1
  funext ip
  by_cases hshort : ip.length < 40
  · rw [if_pos hshort, dif_pos hshort]
    rfl
  have hlength : 2 ≤ (ip.drop 4).length := by
    rw [List.length_drop]
    omega
  rw [if_neg hshort, dif_neg hshort, index_of_lt (by omega), Outcome.some_bind]
  by_cases hversion : ip[0] >>> 4 ≠ 6
  · rw [if_pos hversion, if_pos hversion]
    rfl
  rw [if_neg hversion, if_neg hversion, raw_be16_drop hlength, index_of_lt (by omega),
    Outcome.some_bind, raw_skip_extensions, Option.bind_eq_bind, Outcome.of_option_bind]
  congr 1
  funext skipped
  obtain ⟨cur, remaining⟩ := skipped
  dsimp only
  rw [raw_octets_at (show 24 = 8 + 16 from rfl) (by omega),
    raw_octets_at (show 40 = 24 + 16 from rfl) (by omega), Outcome.of_option_bind]
  rfl

theorem raw_parse_tcp (ethDst ethSrc : Octets 6) (src dst : IpAddr) (l4 : Bytes) (l4Len : Nat) :
    Raw.parseTcp ethDst ethSrc src dst l4 l4Len =
      Outcome.ofOption (parseTcp ethDst ethSrc src dst l4 l4Len) := by
  rw [Raw.parseTcp, parseTcp]
  by_cases hshort : l4.length < 20
  · rw [if_pos (Or.inl hshort), dif_pos hshort]
    rfl
  by_cases hlen : l4Len < 20
  · rw [if_pos (Or.inr hlen), dif_neg hshort, if_pos hlen]
    rfl
  have hlength : ∀ k, k ≤ 16 → 4 ≤ (l4.drop k).length := by
    intro k hk
    rw [List.length_drop]
    omega
  rw [if_neg (not_or.mpr ⟨hshort, hlen⟩), dif_neg hshort, if_neg hlen, index_of_lt (by omega),
    Outcome.some_bind]
  dsimp only
  split
  · rfl
  rename_i hoff
  rw [slice_of_le (by omega) (by omega), Outcome.some_bind,
    raw_be16_drop (Nat.le_of_add_left_le (hlength 0 (by omega))),
    raw_be16_drop (Nat.le_of_add_left_le (hlength 2 (by omega))),
    raw_be32_drop (hlength 4 (by omega)), raw_be32_drop (hlength 8 (by omega)),
    index_of_lt (by omega), Outcome.some_bind]
  rfl

/-- The source parses every byte string without an access out of range, and to what `parseEthernet`
makes of it. -/
theorem raw_parse_ethernet (frame : Bytes) :
    Raw.parseEthernet frame = Outcome.ofOption (parseEthernet frame) := by
  rw [Raw.parseEthernet, parseEthernet]
  by_cases hshort : frame.length < 14
  · rw [if_pos hshort, dif_pos hshort]
    rfl
  have hlength : 2 ≤ (frame.drop 12).length := by
    rw [List.length_drop]
    omega
  rw [if_neg hshort, dif_neg hshort, raw_octets_at (show 6 = 0 + 6 from rfl) (by omega),
    raw_octets_at (show 12 = 6 + 6 from rfl) (by omega), raw_be16_drop hlength,
    raw_skip_vlan_tags, Option.bind_eq_bind, Outcome.of_option_bind]
  congr 1
  funext tagged
  obtain ⟨off, ethertype⟩ := tagged
  dsimp only
  -- both packet formats go on to the TCP header
  by_cases hv4 : ethertype = ethertypeIpv4
  · rw [if_pos hv4, if_pos hv4, raw_parse_ipv4, Option.bind_eq_bind, Outcome.of_option_bind]
    congr 1
    funext payload
    exact raw_parse_tcp ..
  by_cases hv6 : ethertype = ethertypeIpv6
  · rw [if_neg hv4, if_neg hv4, if_pos hv6, if_pos hv6, raw_parse_ipv6, Option.bind_eq_bind,
      Outcome.of_option_bind]
    congr 1
    funext payload
    exact raw_parse_tcp ..
  · rw [if_neg hv4, if_neg hv4, if_neg hv6, if_neg hv6]
    rfl

end H2Tap.Pkt
