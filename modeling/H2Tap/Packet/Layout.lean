import H2Tap.Packet.Bounds

/-!
# The layout of a parsed packet

What a segment that `parse_ethernet` returns has to do with the bytes of the frame. The tags, the IP
header with its options or extension headers and the TCP header follow each other without a gap, and
the payload is what is left up to the end that the IP header declares (`parse_ethernet_safe`).
-/

namespace H2Tap

/-- The 16-bit word of a frame at `off`, in network order. -/
def wordAt (frame : Bytes) (off : Nat) : Option Nat :=
  match frame[off]?, frame[off + 1]? with
  | some hi, some lo => some (256 * hi.toNat + lo.toNat)
  | _, _ => none

namespace Pkt

open Lib

/-! ## Layouts -/

/-- The tags of a frame: the ethertype at `off` is that of the packet at `ip`, or it is a TPID and
the next ethertype is four bytes further on. -/
inductive Tags (frame : Bytes) : Nat → Nat → UInt16 → Prop where
  | untagged {off : Nat} {ethertype : UInt16} :
      wordAt frame off = some ethertype.toNat → Tags frame off (off + 2) ethertype
  | tag {off ip : Nat} {tpid ethertype : UInt16} :
      wordAt frame off = some tpid.toNat → tpid = ethertypeVlan ∨ tpid = ethertypeQinq →
      Tags frame (off + 4) ip ethertype → Tags frame off ip ethertype

/-- An IPv4 packet at `ip` that is not a fragment: its TCP header is at `tcp`, and it declares its
end to be `stop`. -/
structure Ipv4Layout (frame : Bytes) (ip tcp stop : Nat) : Prop where
  header : ∃ first : UInt8, frame[ip]? = some first ∧ first >>> 4 = 4 ∧
    tcp = ip + 4 * (first &&& 0x0f).toNat
  options : ip + 20 ≤ tcp
  unfragmented : ∃ fragment, wordAt frame (ip + 6) = some fragment ∧ fragment &&& 0x3fff = 0
  protocol : frame[ip + 9]? = some ipprotoTcp
  total : ∃ totalLen, wordAt frame (ip + 2) = some totalLen ∧ stop = ip + totalLen

/-- The headers of an IPv6 packet, from the one of type `next` at `cur` to the TCP header. -/
inductive HeaderChain (frame : Bytes) (tcp : Nat) : UInt8 → Nat → List UInt8 → Prop where
  | tcp : HeaderChain frame tcp ipprotoTcp tcp []
  | header {next inner size : UInt8} {cur : Nat} {headers : List UInt8} :
      next ≠ ipprotoTcp → frame[cur]? = some inner → frame[cur + 1]? = some size →
      HeaderChain frame tcp inner (cur + (size.toNat + 1) * 8) headers →
      HeaderChain frame tcp next cur (next :: headers)

/-- The fragment header of IPv6. -/
def fragmentHeader : UInt8 := 44

/-- An IPv6 packet at `ip` that is not a fragment: its TCP header is at `tcp`, and it declares its
end to be `stop`. -/
structure Ipv6Layout (frame : Bytes) (ip tcp stop : Nat) : Prop where
  version : ∃ first : UInt8, frame[ip]? = some first ∧ first >>> 4 = 6
  unfragmented : ∃ next headers, frame[ip + 6]? = some next ∧
    HeaderChain frame tcp next (ip + 40) headers ∧ fragmentHeader ∉ headers
  total : ∃ payloadLen, wordAt frame (ip + 4) = some payloadLen ∧ stop = ip + 40 + payloadLen

/-- The payload of a segment, which starts behind the TCP header at `tcp` and its options and ends
where the packet does. -/
def TcpLayout (frame : Bytes) (seg : EthSegment) (tcp stop : Nat) : Prop :=
  ∃ offset : UInt8, frame[tcp + 12]? = some offset ∧ 20 ≤ 4 * (offset >>> 4).toNat ∧
    tcp + 4 * (offset >>> 4).toNat ≤ min stop frame.length ∧
    seg.payload =
      (frame.take (min stop frame.length)).drop (tcp + 4 * (offset >>> 4).toNat)

/-! ## Words and bytes -/

variable {b frame : Bytes} {off : Nat}

theorem word_at_drop (h : 2 ≤ (b.drop off).length) :
    wordAt b off = some (be16 (b.drop off) h).toNat := by
  rw [List.length_drop] at h
  rw [wordAt, List.getElem?_eq_getElem (by omega), List.getElem?_eq_getElem (by omega), be16,
    Nat.toUInt16, UInt16.toNat_ofNat']
  have hlt := from_be_bytes_lt [(b.drop off)[0], (b.drop off)[1]]
  rw [List.length_cons, List.length_singleton] at hlt
  rw [Nat.mod_eq_of_lt (by omega)]
  simp only [List.getElem_drop, fromBeBytes, List.foldl_cons, List.foldl_nil, Nat.add_zero]
  congr 1
  omega

/-- A field of a packet is a field of the frame. -/
theorem word_at_add {ip k : Nat} : wordAt (frame.drop ip) k = wordAt frame (ip + k) := by
  rw [wordAt, wordAt, List.getElem?_drop, List.getElem?_drop, Nat.add_assoc]

theorem get_at_add {ip k : Nat} (h : k < (frame.drop ip).length) :
    frame[ip + k]? = some (frame.drop ip)[k] := by
  rw [← List.getElem?_drop, List.getElem?_eq_getElem h]

/-- What `get(off..)` returns. -/
theorem get_from_eq_some {rest : Bytes} (h : getFrom b off = some rest) :
    off ≤ b.length ∧ rest = b.drop off := by
  obtain ⟨hoff, hrest⟩ := Option.ite_none_right_eq_some.mp h
  exact ⟨hoff, (Option.some.inj hrest).symm⟩

/-! ## What the parser read -/

theorem tags_of_skip_vlan_tags {ip : Nat} {first ethertype : UInt16}
    (hfirst : wordAt frame off = some first.toNat)
    (h : skipVlanTags frame (off + 2) first = some (ip, ethertype)) :
    Tags frame off ip ethertype := by
  obtain ⟨start, hstart⟩ : ∃ start, start = off + 2 := ⟨_, rfl⟩
  rw [← hstart] at h
  induction start, first using skipVlanTags.induct frame generalizing off with
  | case1 start first htag hshort =>
      rw [skipVlanTags, if_pos htag, dif_pos hshort] at h
      cases h
  | case2 start first htag hlong ih =>
      rw [skipVlanTags, if_pos htag, dif_neg hlong] at h
      refine .tag hfirst htag (ih ?_ h (by omega))
      rw [show off + 4 = start + 2 by omega, word_at_drop]
  | case3 start first huntagged =>
      rw [skipVlanTags, if_neg huntagged] at h
      cases h
      rw [hstart]
      exact .untagged hfirst

/-- The layout that `parse_ipv4` checked. -/
theorem layout_of_parse_ipv4 {ip len : Nat} {src dst : IpAddr} {l4 : Bytes}
    (h : parseIpv4 frame ip = some (src, dst, l4, len)) :
    ∃ tcp, Ipv4Layout frame ip tcp (tcp + len) ∧ tcp ≤ frame.length ∧ l4 = frame.drop tcp := by
  obtain ⟨packet, hpacket, h⟩ := Option.bind_eq_some_iff.mp h
  obtain ⟨hip, rfl⟩ := get_from_eq_some hpacket
  dsimp only at h
  split at h
  · cases h
  rename_i hlength
  split at h
  · cases h
  rename_i hversion
  split at h
  · cases h
  rename_i hihl
  split at h
  · cases h
  rename_i hfragment
  split at h
  · cases h
  rename_i hprotocol
  split at h
  · cases h
  rename_i htotal
  obtain ⟨rest, hrest, h⟩ := Option.bind_eq_some_iff.mp h
  obtain ⟨hoptions, rfl⟩ := get_from_eq_some hrest
  cases h
  have hfields : ∀ k, k ≤ 18 → 2 ≤ ((frame.drop ip).drop k).length := by
    intro k hk
    rw [List.length_drop]
    omega
  rw [not_or, Nat.not_lt, Nat.not_lt] at hihl
  have hfirst := get_at_add (show 0 < (frame.drop ip).length by omega)
  refine ⟨ip + 4 * ((frame.drop ip)[0] &&& 0x0f).toNat, ⟨?_, ?_, ?_, ?_, ?_⟩, ?_, ?_⟩
  · exact ⟨_, hfirst, not_not.mp hversion, rfl⟩
  · omega
  · refine ⟨_, word_at_add.symm.trans (word_at_drop (hfields 6 (by omega))), ?_⟩
    rw [show (0x3fff : Nat) = (0x3fff : UInt16).toNat from rfl, ← UInt16.toNat_and,
      not_not.mp hfragment]
    rfl
  · rw [get_at_add (by omega), not_not.mp hprotocol]
  · refine ⟨_, word_at_add.symm.trans (word_at_drop (hfields 2 (by omega))), ?_⟩
    omega
  · rw [List.length_drop] at hoptions
    omega
  · rw [List.drop_drop, Nat.mul_comm]

/-- The walk over the extension headers reads a chain of headers that it knows, and gives back every
byte that it does not step over. -/
theorem chain_of_skip_extensions {ip cur remaining tcp rest : Nat} {next : UInt8}
    (h : skipExtensions (frame.drop ip) next cur remaining = some (tcp, rest)) :
    ∃ headers, HeaderChain frame (ip + tcp) next (ip + cur) headers ∧
      fragmentHeader ∉ headers ∧ tcp + rest = cur + remaining := by
  induction next, cur, remaining using skipExtensions.induct (frame.drop ip) with
  | case1 cur remaining =>
      rw [skipExtensions, if_pos rfl] at h
      cases h
      exact ⟨[], .tcp, List.not_mem_nil, rfl⟩
  | case2 next cur remaining hnot hskip hlong len hshort =>
      rw [skipExtensions, if_neg hnot, if_pos hskip, dif_pos hlong] at h
      dsimp only at h
      rw [if_pos hshort] at h
      cases h
  | case3 next cur remaining hnot hskip hlong len hfits ih =>
      rw [skipExtensions, if_neg hnot, if_pos hskip, dif_pos hlong] at h
      dsimp only at h
      rw [if_neg hfits] at h
      obtain ⟨headers, hchain, hfragment, hsum⟩ := ih h
      have hinner := get_at_add (show cur < (frame.drop ip).length by omega)
      have hsize := get_at_add (show cur + 1 < (frame.drop ip).length by omega)
      refine ⟨next :: headers, .header hnot hinner hsize ?_, ?_, by omega⟩
      · rwa [← Nat.add_assoc] at hchain
      · -- only headers of the four known types are skipped
        have hknown : next ≠ fragmentHeader := by
          rcases hskip with rfl | rfl | rfl | rfl <;> decide
        exact List.not_mem_cons_of_ne_of_not_mem hknown.symm hfragment
  | case4 next cur remaining hnot hskip hshort =>
      rw [skipExtensions, if_neg hnot, if_pos hskip, dif_neg hshort] at h
      cases h
  | case5 next cur remaining hnot hstop =>
      rw [skipExtensions, if_neg hnot, if_neg hstop] at h
      cases h

/-- The layout that `parse_ipv6` checked. -/
theorem layout_of_parse_ipv6 {ip len : Nat} {src dst : IpAddr} {l4 : Bytes}
    (h : parseIpv6 frame ip = some (src, dst, l4, len)) :
    ∃ tcp, Ipv6Layout frame ip tcp (tcp + len) ∧ tcp ≤ frame.length ∧ l4 = frame.drop tcp := by
  obtain ⟨packet, hpacket, h⟩ := Option.bind_eq_some_iff.mp h
  obtain ⟨hip, rfl⟩ := get_from_eq_some hpacket
  split at h
  · cases h
  rename_i hlength
  split at h
  · cases h
  rename_i hversion
  obtain ⟨⟨cur, remaining⟩, hskip, h⟩ := Option.bind_eq_some_iff.mp h
  obtain ⟨rest, hrest, h⟩ := Option.bind_eq_some_iff.mp h
  obtain ⟨hcur, rfl⟩ := get_from_eq_some hrest
  cases h
  obtain ⟨headers, hchain, hfragment, hsum⟩ := chain_of_skip_extensions hskip
  have hfield : 2 ≤ ((frame.drop ip).drop 4).length := by
    rw [List.length_drop]
    omega
  have hfirst := get_at_add (show 0 < (frame.drop ip).length by omega)
  refine ⟨ip + cur, ⟨?_, ?_, ?_⟩, ?_, ?_⟩
  · exact ⟨_, hfirst, not_not.mp hversion⟩
  · exact ⟨_, headers, get_at_add (by omega), hchain, hfragment⟩
  · exact ⟨_, word_at_add.symm.trans (word_at_drop hfield), by omega⟩
  · rw [List.length_drop] at hcur
    omega
  · rw [List.drop_drop]

/-- The payload that `parse_ethernet` cut out of a packet. -/
theorem layout_of_parse_tcp {ethDst ethSrc : Octets 6} {src dst : IpAddr} {tcp len : Nat}
    {seg : EthSegment} (htcp : tcp ≤ frame.length)
    (h : parseTcp ethDst ethSrc src dst (frame.drop tcp) len = some seg) :
    TcpLayout frame seg tcp (tcp + len) := by
  unfold parseTcp at h
  split at h
  · cases h
  rename_i hlength
  split at h
  · cases h
  dsimp only at h
  split at h
  · cases h
  rename_i hoff
  cases h
  rw [List.length_drop] at hlength
  have hdrop : (frame.drop tcp).length = frame.length - tcp := List.length_drop
  have hstop : min (tcp + len) frame.length = tcp + min len (frame.drop tcp).length := by omega
  refine ⟨_, get_at_add (by omega), by omega, by omega, ?_⟩
  dsimp only
  rw [hstop, List.take_drop, ← List.drop_drop, Nat.mul_comm]

/-! ## The whole packet -/

/-- Parsing is safe and stays inside the packet. No byte string makes the source access anything out
of range. A segment that is returned was found behind the tags in a packet that is not a fragment,
and its payload ends where that packet does, or where the frame does if that is earlier. -/
theorem parse_ethernet_safe (frame : Bytes) :
    Raw.parseEthernet frame ≠ .panic ∧
      ∀ seg, Raw.parseEthernet frame = .some seg →
        ∃ ip tcp stop, TcpLayout frame seg tcp stop ∧
          ((Tags frame 12 ip ethertypeIpv4 ∧ Ipv4Layout frame ip tcp stop) ∨
            Tags frame 12 ip ethertypeIpv6 ∧ Ipv6Layout frame ip tcp stop) := by
  rw [raw_parse_ethernet]
  refine ⟨Outcome.of_option_ne_panic _, fun seg hseg => ?_⟩
  have h : parseEthernet frame = some seg := by
    cases hparse : parseEthernet frame with
    | none =>
        rw [hparse] at hseg
        cases hseg
    | some parsed =>
        rw [hparse] at hseg
        cases hseg
        rfl
  unfold parseEthernet at h
  split at h
  · cases h
  rename_i hlength
  obtain ⟨⟨ip, ethertype⟩, hskip, h⟩ := Option.bind_eq_some_iff.mp h
  have htype : 2 ≤ (frame.drop 12).length := by
    rw [List.length_drop]
    omega
  have htags := tags_of_skip_vlan_tags (word_at_drop htype) hskip
  dsimp only at h
  split at h
  · rename_i hv4
    obtain ⟨⟨src, dst, l4, len⟩, hip, htcp⟩ := Option.bind_eq_some_iff.mp h
    obtain ⟨tcp, hlayout, hinside, rfl⟩ := layout_of_parse_ipv4 hip
    subst hv4
    exact ⟨ip, tcp, tcp + len, layout_of_parse_tcp hinside htcp, Or.inl ⟨htags, hlayout⟩⟩
  split at h
  · rename_i hv6
    obtain ⟨⟨src, dst, l4, len⟩, hip, htcp⟩ := Option.bind_eq_some_iff.mp h
    obtain ⟨tcp, hlayout, hinside, rfl⟩ := layout_of_parse_ipv6 hip
    subst hv6
    exact ⟨ip, tcp, tcp + len, layout_of_parse_tcp hinside htcp, Or.inr ⟨htags, hlayout⟩⟩
  · cases h

end Pkt

end H2Tap
