import H2Tap.Capture.Filter

/-!
# The kernel filter and the parser

The filter against `parse_ethernet`. It keeps every segment on a watched port, except where an IPv6
extension header stands ahead of the TCP header: the parser walks those headers and the filter drops
the frame (`filter_keeps_segment_iff`).
-/

namespace H2Tap

open Bpf Pkt

variable {b frame : Bytes} {ports : List UInt16} {off n : Nat}

/-! ## Loads -/

theorem load_drop (hn : 0 < n) (m : Nat) : load (b.drop m) off n = load b (m + off) n := by
  rw [load, load, List.length_drop, List.drop_drop]
  have hbound : off + n > b.length - m ↔ m + off + n > b.length := by omega
  simp only [hbound]

/-- A load of two bytes reads what `be16` reads. -/
theorem load_two (h : 2 ≤ b.length) : load b 0 2 = some (be16 b h).toUInt32 := by
  match b, h with
  | hi :: lo :: rest, _ =>
      have hlt : fromBeBytes [hi, lo] < 256 ^ 2 := from_be_bytes_lt [hi, lo]
      have hvalue : (fromBeBytes [hi, lo]).toUInt32 =
          (fromBeBytes [hi, lo]).toUInt16.toUInt32 := by
        apply UInt32.toNat_inj.mp
        simp only [Nat.toUInt32, Nat.toUInt16, UInt16.toNat_toUInt32, UInt32.toNat_ofNat',
          UInt16.toNat_ofNat']
        omega
      simpa [load, be16] using hvalue

/-- A load of a byte reads it. -/
theorem load_one (h : off < b.length) : load b off 1 = some b[off].toUInt32 := by
  rw [load, if_neg (by omega), List.drop_eq_getElem_cons h]
  have hvalue : (fromBeBytes [b[off]]).toUInt32 = b[off].toUInt32 := by
    apply UInt32.toNat_inj.mp
    have hlt := b[off].toNat_lt
    simp only [fromBeBytes, List.foldl_cons, List.foldl_nil, Nat.toUInt32, UInt32.toNat_ofNat',
      UInt8.toNat_toUInt32]
    omega
  exact congrArg some hvalue

/-! ## What the parser read -/

/-- The ports of a segment stand at the start of its TCP header. -/
theorem ports_of_parse_tcp {ethDst ethSrc : Octets 6} {src dst : IpAddr} {l4 : Bytes} {len : Nat}
    {seg : EthSegment} (h : parseTcp ethDst ethSrc src dst l4 len = some seg) :
    load l4 0 2 = some seg.src.port.toUInt32 ∧ load l4 2 2 = some seg.dst.port.toUInt32 := by
  unfold parseTcp at h
  split at h
  · cases h
  split at h
  · cases h
  dsimp only at h
  split at h
  · cases h
  · cases h
    refine ⟨load_two _, ?_⟩
    rw [← load_two, load_drop (by decide)]

/-- The filter and the parser agree on the length of an IPv4 header. -/
theorem header_len_eq (first : UInt8) :
    (4 * (first.toUInt32 &&& 0x0f)).toNat = (first &&& 0x0f).toNat * 4 := by
  have hlow : (first &&& 0x0f).toNat ≤ 15 := by
    rw [UInt8.toNat_and]
    exact Nat.and_le_right
  have hand : (first.toUInt32 &&& 0x0f).toNat = (first &&& 0x0f).toNat := by
    rw [UInt32.toNat_and, UInt8.toNat_and, UInt8.toNat_toUInt32]
    rfl
  rw [UInt32.toNat_mul, hand, show (4 : UInt32).toNat = 4 from rfl]
  omega

/-- What `parse_ipv4` made sure of: the protocol, that the packet is not a fragment, and where its
payload starts. -/
theorem loads_of_parse_ipv4 {src dst : IpAddr} {l4 : Bytes} {len : Nat}
    (h : parseIpv4 frame off = some (src, dst, l4, len)) :
    load frame (off + 9) 1 = some 6 ∧
      (∃ fragment, load frame (off + 6) 2 = some fragment ∧ fragment &&& 0x3fff = 0) ∧
      ∃ first, load frame off 1 = some first ∧
        l4 = frame.drop (off + (4 * (first &&& 0x0f)).toNat) := by
  unfold parseIpv4 getFrom at h
  simp only [Option.bind_eq_bind, Option.bind_eq_some_iff, Option.ite_none_right_eq_some,
    Option.some.injEq] at h
  obtain ⟨ip, ⟨hoff, rfl⟩, h⟩ := h
  split at h
  · cases h
  rename_i hlength
  split at h
  · cases h
  split at h
  · cases h
  split at h
  · cases h
  rename_i hfragment
  split at h
  · cases h
  rename_i hprotocol
  split at h
  · cases h
  obtain ⟨payload, hpayload, h⟩ := Option.bind_eq_some_iff.mp h
  cases h
  have hdrop6 : 2 ≤ ((frame.drop off).drop 6).length := by
    rw [List.length_drop]
    omega
  have hat9 : load frame (off + 9) 1 = some 6 := by
    rw [← load_drop (by decide), load_one (by omega), not_not.mp hprotocol]
    rfl
  have hat6 : load frame (off + 6) 2 = some (be16 ((frame.drop off).drop 6) hdrop6).toUInt32 := by
    rw [← load_two, load_drop (by decide), load_drop (by decide)]
  have hat0 : load frame off 1 = some (frame.drop off)[0].toUInt32 := by
    rw [← load_one, load_drop (by decide)]
    rfl
  refine ⟨hat9, ⟨_, hat6, ?_⟩, _, hat0, ?_⟩
  · rw [show (0x3fff : UInt32) = (0x3fff : UInt16).toUInt32 from rfl, ← UInt16.toUInt32_and,
      not_not.mp hfragment]
    rfl
  · rw [header_len_eq, ← List.drop_drop]
    exact (Option.some.inj (Option.ite_none_right_eq_some.mp hpayload).2).symm

/-- Where the payload of a parsed IPv6 packet without extension headers starts. -/
theorem loads_of_parse_ipv6 {src dst : IpAddr} {l4 : Bytes} {len : Nat}
    (h : parseIpv6 frame off = some (src, dst, l4, len))
    (hnext : load frame (off + 6) 1 = some 6) : l4 = frame.drop (off + 40) := by
  unfold parseIpv6 getFrom at h
  simp only [Option.bind_eq_bind, Option.bind_eq_some_iff, Option.ite_none_right_eq_some,
    Option.some.injEq] at h
  obtain ⟨ip, ⟨hoff, rfl⟩, h⟩ := h
  split at h
  · cases h
  rename_i hlength
  split at h
  · cases h
  obtain ⟨⟨cur, remaining⟩, hskip, h⟩ := Option.bind_eq_some_iff.mp h
  obtain ⟨payload, hpayload, h⟩ := Option.bind_eq_some_iff.mp h
  cases h
  rw [← load_drop (by decide), load_one (by omega), Option.some_inj] at hnext
  have htcp : (frame.drop off)[6] = ipprotoTcp := UInt8.toUInt32_inj.mp hnext
  rw [skipExtensions, if_pos htcp] at hskip
  cases hskip
  rw [← List.drop_drop]
  exact (Option.some.inj (Option.ite_none_right_eq_some.mp hpayload).2).symm

/-! ## Segments on a watched port -/

/-- A header that was parsed has a watched port. -/
def Watched (ports : List UInt16) (seg : EthSegment) : Prop :=
  seg.src.port ∈ ports ∨ seg.dst.port ∈ ports

/-- The TCP header of a segment on a watched port is accepted. -/
theorem tcp_accepts_of_watched {seg : EthSegment} (hwatched : Watched ports seg)
    (hsrc : load (frame.drop off) 0 2 = some seg.src.port.toUInt32)
    (hdst : load (frame.drop off) 2 2 = some seg.dst.port.toUInt32) :
    tcpAccepts ports frame off = true := by
  rw [load_drop (by decide)] at hsrc hdst
  have hmem : ∀ {port : UInt16}, port ∈ ports →
      (ports.any fun watched => port.toUInt32 == watched.toUInt32) = true :=
    fun hport => List.any_eq_true.mpr ⟨_, hport, beq_self_eq_true _⟩
  rw [tcpAccepts, portAt, portAt, hdst, show load frame off 2 = _ from hsrc]
  rw [Option.isSome_some, Bool.true_and, Bool.or_eq_true]
  exact hwatched.imp hmem hmem

/-- The frame is an untagged IPv6 packet, the next header of which is not TCP. -/
def ExtensionFirst (frame : Bytes) : Prop :=
  frame[12]? = some 0x86 ∧ frame[13]? = some 0xdd ∧ frame[20]? ≠ some ipprotoTcp

instance (frame : Bytes) : Decidable (ExtensionFirst frame) :=
  inferInstanceAs (Decidable (_ ∧ _ ∧ _))

/-- The two readings of the ethertype agree. -/
theorem ethertype_ipv6_iff (h : 2 ≤ (frame.drop 12).length) :
    be16 (frame.drop 12) h = ethertypeIpv6 ↔ frame[12]? = some 0x86 ∧ frame[13]? = some 0xdd := by
  have h12 : (frame.drop 12)[0]? = frame[12]? := List.getElem?_drop
  have h13 : (frame.drop 12)[1]? = frame[13]? := List.getElem?_drop
  rw [← h12, ← h13]
  generalize frame.drop 12 = b at h
  match b, h with
  | hi :: lo :: rest, h =>
      have hlt : fromBeBytes [hi, lo] < 2 ^ 16 :=
        lt_of_lt_of_eq (from_be_bytes_lt [hi, lo])
        (by rw [List.length_cons, List.length_singleton]; rfl)
      have hvalue : be16 (hi :: lo :: rest) h = ethertypeIpv6 ↔
          fromBeBytes [hi, lo] = fromBeBytes [0x86, 0xdd] := by
        rw [← UInt16.toNat_inj]
        simp only [be16, List.getElem_cons_zero, List.getElem_cons_succ, Nat.toUInt16,
          UInt16.toNat_ofNat']
        rw [Nat.mod_eq_of_lt hlt]
        rfl
      have hbytes : fromBeBytes [hi, lo] = fromBeBytes [0x86, 0xdd] ↔ [hi, lo] = [0x86, 0xdd] :=
        ⟨from_be_bytes_inj rfl, congrArg fromBeBytes⟩
      rw [hvalue, hbytes]
      simp

/-- `ExtensionFirst` as the filter and the parser see it. -/
theorem extension_first_iff (h : 2 ≤ (frame.drop 12).length) :
    ExtensionFirst frame ↔ be16 (frame.drop 12) h = ethertypeIpv6 ∧ load frame 20 1 ≠ some 6 := by
  have hnext : frame[20]? = some ipprotoTcp ↔ load frame 20 1 = some 6 := by
    by_cases hlength : 20 < frame.length
    · rw [load_one hlength, List.getElem?_eq_getElem hlength, Option.some_inj, Option.some_inj]
      exact UInt8.toUInt32_inj.symm
    · rw [List.getElem?_eq_none (by omega), load, if_pos (by omega)]
      simp
  rw [ethertype_ipv6_iff h, ExtensionFirst, and_assoc, Ne, Ne, hnext]

/-- A segment on a watched port is accepted, unless an extension header comes first. -/
theorem accepts_iff_of_watched {seg : EthSegment} (hparse : parseEthernet frame = some seg)
    (hwatched : Watched ports seg) : accepts ports frame = true ↔ ¬ExtensionFirst frame := by
  unfold parseEthernet at hparse
  split at hparse
  · cases hparse
  rename_i hlength
  have hlength12 : 2 ≤ (frame.drop 12).length := by
    rw [List.length_drop]
    omega
  have hethertype : load frame 12 2 = some (be16 (frame.drop 12) hlength12).toUInt32 := by
    rw [← load_two, load_drop (by decide)]
  rw [accepts, hethertype, extension_first_iff hlength12]
  generalize be16 (frame.drop 12) hlength12 = ethertype at hparse
  by_cases hvlan : ethertype = ethertypeVlan ∨ ethertype = ethertypeQinq
  · have haway : ethertype ≠ ethertypeIpv6 := by
      rcases hvlan with rfl | rfl <;> decide
    refine iff_of_true ?_ fun h => haway h.1
    rcases hvlan with rfl | rfl <;> rfl
  rw [skipVlanTags, if_neg hvlan] at hparse
  simp only [Option.bind_eq_bind, Option.bind_some] at hparse
  by_cases hv4 : ethertype = ethertypeIpv4
  · subst hv4
    rw [if_pos rfl] at hparse
    obtain ⟨⟨src, dst, l4, len⟩, hip, htcp⟩ := Option.bind_eq_some_iff.mp hparse
    obtain ⟨hprotocol, ⟨fragment, hfragment, hzero⟩, first, hfirst, rfl⟩ := loads_of_parse_ipv4 hip
    obtain ⟨hsrc, hdst⟩ := ports_of_parse_tcp htcp
    refine iff_of_true ?_ fun h => absurd h.1 (by decide)
    have hv4 : ipv4Accepts ports frame = true := by
      rw [ipv4Accepts, hprotocol, hfragment, hfirst]
      simp only [hzero, beq_self_eq_true, Bool.true_and]
      exact tcp_accepts_of_watched hwatched hsrc hdst
    exact hv4
  by_cases hv6 : ethertype = ethertypeIpv6
  · subst hv6
    rw [if_neg (by decide), if_pos rfl] at hparse
    obtain ⟨⟨src, dst, l4, len⟩, hip, htcp⟩ := Option.bind_eq_some_iff.mp hparse
    obtain ⟨hsrc, hdst⟩ := ports_of_parse_tcp htcp
    have hv6 : ipv6Accepts ports frame = true ↔ ¬(True ∧ load frame 20 1 ≠ some 6) := by
      rw [true_and, not_not, ipv6Accepts, Bool.and_eq_true, beq_iff_eq]
      refine ⟨fun h => h.1, fun hnext => ⟨hnext, ?_⟩⟩
      obtain rfl := loads_of_parse_ipv6 hip hnext
      exact tcp_accepts_of_watched hwatched hsrc hdst
    rw [eq_self]
    exact hv6
  · simp [hv4, hv6] at hparse

/-! ## The filter is conservative up to extension headers -/

/-- A segment on a watched port passes the filter if and only if no IPv6 extension header comes
first. -/
theorem filter_keeps_segment_iff {seg : EthSegment} (hports : ports.length ≤ maxFilterPorts)
    (hparse : parseEthernet frame = some seg) (hwatched : Watched ports seg) :
    (∃ v, run (buildFilter ports) frame = some v ∧ v ≠ 0) ↔ ¬ExtensionFirst frame := by
  rw [run_build_filter hports, ← accepts_iff_of_watched hparse hwatched]
  cases accepts ports frame <;> simp [verdict]

/-- A segment of the reference connection passes a filter for the port of its server. -/
theorem filter_keeps_reference_segment :
    ∃ v, run (buildFilter [7777]) (buildTcpPacket clientEndpoint 1 1 TcpFlags.ack 64 1 [0]) =
        some v ∧
      v ≠ 0 := by
  have hwatched : (parseEthernet (buildTcpPacket clientEndpoint 1 1 TcpFlags.ack 64 1 [0])).any
      (fun seg => seg.dst.port ∈ [7777]) = true := by
    decide +kernel
  obtain ⟨seg, hparse, hport⟩ := (Option.any_eq_true _ _).mp hwatched
  exact (filter_keeps_segment_iff (by decide) hparse (Or.inr (of_decide_eq_true hport))).mpr
    (by decide +kernel)

/-- A TCP segment to port 80 behind a hop-by-hop header. -/
def hopByHopFrame : Bytes :=
  List.replicate 12 0 ++ [0x86, 0xdd] ++
    ([0x60, 0, 0, 0, 0, 28, 0, 64] ++ List.replicate 32 0) ++
    ([6, 0] ++ List.replicate 6 0) ++
    ([0xa1, 0x12, 0, 80] ++ List.replicate 8 0 ++ [0x50, 0x10] ++ List.replicate 6 0)

/-- The parser finds the segment of `hopByHopFrame`, which the filter drops. -/
theorem hop_by_hop_dropped :
    ¬∀ (ports : List UInt16) (frame : Bytes) (seg : EthSegment), 1 ≤ ports.length →
      ports.length ≤ maxFilterPorts → parseEthernet frame = some seg → Watched ports seg →
      ∃ v, run (buildFilter ports) frame = some v ∧ v ≠ 0 := by
  intro hclaim
  have hwatched : (parseEthernet hopByHopFrame).any (fun seg => seg.dst.port ∈ [80]) = true := by
    decide +kernel
  obtain ⟨seg, hparse, hport⟩ := (Option.any_eq_true _ _).mp hwatched
  obtain ⟨v, hv, hne⟩ := hclaim [80] hopByHopFrame seg (by decide) (by decide) hparse
    (Or.inr (of_decide_eq_true hport))
  have hzero : run (buildFilter [80]) hopByHopFrame = some 0 := by
    decide +kernel
  rw [hzero] at hv
  exact hne (Option.some.inj hv).symm

end H2Tap
