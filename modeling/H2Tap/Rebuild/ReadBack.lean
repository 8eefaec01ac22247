import H2Tap.Packet

/-!
# Reading a synthesized packet back

`parse_ethernet` after `build_tcp_packet`. The length of the packet is a 16-bit field of the IP
header, and `as u16` wraps it: `parse_ethernet_build` says what the parser then makes of the packet.
The segment comes back whole exactly if the length fits, also from behind VLAN tags and in front of
Ethernet padding (`parse_ethernet_undoes_build`).
-/

namespace H2Tap.Pkt

/-- Both addresses have the same IP version, as those of a parsed packet have. -/
def Endpoint.SameVersion (ep : Endpoint) : Prop :=
  match ep.src.ip, ep.dst.ip with
  | .v4 _, .v4 _ => True
  | .v6 _, .v6 _ => True
  | _, _ => False

/-- The bytes that the length of an IP header counts besides the payload of the segment. -/
def overhead (ip : IpAddr) : Nat :=
  match ip with
  | .v4 _ => 40
  | .v6 _ => 20

/-- The length as the header holds it. -/
def wrappedLen (ip : IpAddr) (payload : Bytes) : Nat := (overhead ip + payload.length) % 2 ^ 16

/-- The segment that an endpoint sends. -/
def Endpoint.segment (ep : Endpoint) (seq ack : Seq) (flags : UInt8) (payload : Bytes) :
    EthSegment where
  seq := seq
  flags := flags
  payload := payload
  ethDst := ep.ethDst
  ethSrc := ep.ethSrc
  src := ep.src
  dst := ep.dst
  ackSeq := ack

/-! ## Fields -/

theorem exists_two_bytes (n : Nat) :
    ∃ hi lo, toBeBytes 2 n = [hi, lo] ∧ fromBeBytes [hi, lo] = n % 2 ^ 16 := by
  obtain ⟨hi, lo, h⟩ := List.length_eq_two.mp (to_be_bytes_length 2 n)
  exact ⟨hi, lo, h, h ▸ from_be_bytes_to_be_bytes 2 n⟩

theorem exists_four_bytes (n : Nat) : ∃ b0 b1 b2 b3, toBeBytes 4 n = [b0, b1, b2, b3] ∧
    fromBeBytes [b0, b1, b2, b3] = n % 2 ^ 32 := by
  obtain ⟨b0, b1, b2, b3, h⟩ : ∃ b0 b1 b2 b3, toBeBytes 4 n = [b0, b1, b2, b3] := ⟨_, _, _, _, rfl⟩
  exact ⟨b0, b1, b2, b3, h, h ▸ from_be_bytes_to_be_bytes 4 n⟩

theorem exists_four_octets (o : Octets 4) : ∃ o0 o1 o2 o3, o.val = [o0, o1, o2, o3] := by
  match o with
  | ⟨[o0, o1, o2, o3], _⟩ => exact ⟨o0, o1, o2, o3, rfl⟩

theorem length_of_bytes {hi lo : UInt8} {n : Nat} (h : fromBeBytes [hi, lo] = n % 2 ^ 16) :
    (fromBeBytes [hi, lo]).toUInt16.toNat = n % 2 ^ 16 := by
  rw [h, Nat.toUInt16, UInt16.toNat_ofNat', Nat.mod_mod]

theorem port_of_bytes {hi lo : UInt8} {port : UInt16}
    (h : fromBeBytes [hi, lo] = port.toNat % 2 ^ 16) : (fromBeBytes [hi, lo]).toUInt16 = port := by
  rw [h, Nat.mod_eq_of_lt port.toNat_lt]
  exact UInt16.ofNat_toNat

theorem seq_of_bytes {b0 b1 b2 b3 : UInt8} {seq : Seq}
    (h : fromBeBytes [b0, b1, b2, b3] = seq.toNat % 2 ^ 32) :
    BitVec.ofNat 32 (fromBeBytes [b0, b1, b2, b3]) = seq := by
  rw [h, Nat.mod_eq_of_lt seq.isLt, BitVec.ofNat_toNat, BitVec.setWidth_eq]

/-- The segment that the TCP header of an endpoint is read as, when the IP header announces `len`
bytes. -/
theorem parse_tcp_bytes (ep : Endpoint) (seq ack : Seq) (flags : UInt8) (window checksum : UInt16)
    (payload : Bytes) (len : Nat) :
    parseTcp ep.ethDst ep.ethSrc ep.src.ip ep.dst.ip
        (tcpBytes ep seq ack flags window checksum payload) len =
      if len < 20 then none else some (ep.segment seq ack flags (payload.take (len - 20))) := by
  obtain ⟨p0, p1, hp, hport⟩ := exists_two_bytes ep.src.port.toNat
  obtain ⟨q0, q1, hq, hpeer⟩ := exists_two_bytes ep.dst.port.toNat
  obtain ⟨s0, s1, s2, s3, hs, hseq⟩ := exists_four_bytes seq.toNat
  obtain ⟨a0, a1, a2, a3, ha, hack⟩ := exists_four_bytes ack.toNat
  obtain ⟨w0, w1, hw, -⟩ := exists_two_bytes window.toNat
  obtain ⟨c0, c1, hc, -⟩ := exists_two_bytes checksum.toNat
  have hbytes : tcpBytes ep seq ack flags window checksum payload =
      p0 :: p1 :: q0 :: q1 :: s0 :: s1 :: s2 :: s3 :: a0 :: a1 :: a2 :: a3 :: 80 :: flags ::
        w0 :: w1 :: c0 :: c1 :: 0 :: 0 :: payload := by
    simp only [tcpBytes, hp, hq, hs, ha, hw, hc, List.cons_append, List.nil_append]
    rfl
  rw [hbytes, parseTcp, dif_neg (by simp only [List.length_cons]; omega)]
  by_cases hlen : len < 20
  · rw [if_pos hlen, if_pos hlen]
  rw [if_neg hlen, if_neg hlen]
  have hword : ((80 : UInt8) >>> 4).toNat * 4 = 20 := by decide
  simp only [List.getElem_cons_succ, List.getElem_cons_zero, hword, List.length_cons]
  rw [if_neg (by omega)]
  simp only [Endpoint.segment, Option.some.injEq, EthSegment.mk.injEq, TcpSegment.mk.injEq,
    List.drop_succ_cons, List.drop_zero, true_and]
  refine ⟨⟨seq_of_bytes hseq, ?_⟩, ?_, ?_, seq_of_bytes hack⟩
  · rw [List.drop_take]
    simp only [List.drop_succ_cons, List.drop_zero]
    rw [List.take_eq_take_iff]
    omega
  · rw [SocketAddr.mk.injEq]
    exact ⟨rfl, port_of_bytes hport⟩
  · rw [SocketAddr.mk.injEq]
    exact ⟨rfl, port_of_bytes hpeer⟩

/-- What `parse_ipv4` makes of an IPv4 header. -/
theorem parse_ipv4_bytes (front tcp : Bytes) (src dst : Octets 4) (ipId : UInt16) (tcpLen : Nat)
    (checksum : UInt16) :
    parseIpv4 (front ++ (ipv4Bytes src dst ipId tcpLen checksum ++ tcp)) front.length =
      if (20 + tcpLen) % 2 ^ 16 < 20 then none
      else some (.v4 src, .v4 dst, tcp, (20 + tcpLen) % 2 ^ 16 - 20) := by
  obtain ⟨t0, t1, ht, htotal⟩ := exists_two_bytes (20 + tcpLen)
  obtain ⟨i0, i1, hi, -⟩ := exists_two_bytes ipId.toNat
  obtain ⟨c0, c1, hc, -⟩ := exists_two_bytes checksum.toNat
  obtain ⟨s0, s1, s2, s3, hs⟩ := exists_four_octets src
  obtain ⟨d0, d1, d2, d3, hd⟩ := exists_four_octets dst
  obtain ⟨ip, hip⟩ : ∃ ip, ip = ipv4Bytes src dst ipId tcpLen checksum ++ tcp := ⟨_, rfl⟩
  have hbytes : ip = 0x45 :: 0 :: t0 :: t1 :: i0 :: i1 :: 0x40 :: 0 :: 64 :: 6 :: c0 :: c1 ::
      s0 :: s1 :: s2 :: s3 :: d0 :: d1 :: d2 :: d3 :: tcp := by
    simp only [hip, ipv4Bytes, ht, hi, hc, hs, hd, List.cons_append, List.nil_append]
    rfl
  -- the fields of the header
  have hlong : 20 ≤ ip.length := by
    simp only [hbytes, List.length_cons]
    omega
  have hfirst : ∀ h : 0 < ip.length, ip[0] = 0x45 := by
    subst hbytes
    exact fun h => rfl
  have hfragment : ∀ h, be16 (ip.drop 6) h &&& 0x3fff = 0 := by
    subst hbytes
    intro h
    show (fromBeBytes [0x40, 0]).toUInt16 &&& 0x3fff = 0
    decide
  have hprotocol : ∀ h : 9 < ip.length, ip[9] = ipprotoTcp := by
    subst hbytes
    exact fun h => rfl
  have hlength : ∀ h, (be16 (ip.drop 2) h).toNat = (20 + tcpLen) % 2 ^ 16 := by
    subst hbytes
    exact fun h => length_of_bytes htotal
  have hsrc : ∀ h, octetsAt ip 12 4 h = src := by
    subst hbytes
    exact fun h => Subtype.ext hs.symm
  have hdst : ∀ h, octetsAt ip 16 4 h = dst := by
    subst hbytes
    exact fun h => Subtype.ext hd.symm
  have htcp : getFrom ip 20 = some tcp := by
    rw [getFrom, if_pos hlong, hbytes]
    rfl
  have hihl : ((0x45 : UInt8) &&& 0x0f).toNat * 4 = 20 := by decide
  rw [← hip, parseIpv4, getFrom, if_pos (by rw [List.length_append]; omega), List.drop_left,
    Option.bind_eq_bind, Option.bind_some, dif_neg (by omega)]
  simp only [hfirst, hfragment, hprotocol, hlength, hsrc, hdst, hihl, htcp]
  rw [if_neg (by decide), if_neg (by omega), if_neg (by decide), if_neg (by decide)]
  rfl

/-- What `parse_ipv6` makes of an IPv6 header. -/
theorem parse_ipv6_bytes (front tcp : Bytes) (src dst : Octets 16) (tcpLen : Nat) :
    parseIpv6 (front ++ (ipv6Bytes src dst tcpLen ++ tcp)) front.length =
      some (.v6 src, .v6 dst, tcp, tcpLen % 2 ^ 16) := by
  obtain ⟨t0, t1, ht, htotal⟩ := exists_two_bytes tcpLen
  obtain ⟨ip, hip⟩ : ∃ ip, ip = ipv6Bytes src dst tcpLen ++ tcp := ⟨_, rfl⟩
  have hbytes : ip = 0x60 :: 0 :: 0 :: 0 :: t0 :: t1 :: 6 :: 64 ::
    (src.val ++ (dst.val ++ tcp)) := by
    simp only [hip, ipv6Bytes, ht, List.cons_append, List.nil_append, List.append_assoc]
    rfl
  -- the fields of the header
  have hlong : 40 ≤ ip.length := by
    simp only [hbytes, List.length_cons, List.length_append, src.2, dst.2]
    omega
  have hfirst : ∀ h : 0 < ip.length, ip[0] = 0x60 := by
    subst hbytes
    exact fun h => rfl
  have hnext : ∀ h : 6 < ip.length, ip[6] = ipprotoTcp := by
    subst hbytes
    exact fun h => rfl
  have hlength : ∀ h, (be16 (ip.drop 4) h).toNat = tcpLen % 2 ^ 16 := by
    subst hbytes
    exact fun h => length_of_bytes htotal
  have hsrc : ∀ h, octetsAt ip 8 16 h = src := by
    subst hbytes
    exact fun h => Subtype.ext (List.take_left' src.2)
  have hafter : ip.drop 24 = dst.val ++ tcp := by
    rw [hbytes]
    exact List.drop_left' src.2
  have hdst : ∀ h, octetsAt ip 24 16 h = dst :=
    fun h => Subtype.ext ((congrArg (List.take 16) hafter).trans (List.take_left' dst.2))
  have htcp : getFrom ip 40 = some tcp := by
    rw [getFrom, if_pos hlong, ← List.drop_drop (i := 16) (j := 24), hafter, List.drop_left' dst.2]
  rw [← hip, parseIpv6, getFrom, if_pos (by rw [List.length_append]; omega), List.drop_left,
    Option.bind_eq_bind, Option.bind_some, dif_neg (by omega)]
  simp only [hfirst, hnext, hlength, hsrc, hdst]
  rw [if_neg (by decide), skipExtensions, if_pos rfl]
  rw [Option.bind_eq_bind, Option.bind_some, htcp]
  rfl

/-! ## Tags -/

/-- A tag of 802.1Q or QinQ. -/
structure VlanTag where
  qinq : Bool
  control : Octets 2

/-- The TPID of a tag. -/
def VlanTag.ethertype (tag : VlanTag) : UInt16 := if tag.qinq then ethertypeQinq else ethertypeVlan

/-- The four bytes of a tag. -/
def VlanTag.bytes (tag : VlanTag) : Bytes := toBeBytes 2 tag.ethertype.toNat ++ tag.control.val

/-- A frame with tags behind its MAC addresses. -/
def tagged (tags : List VlanTag) (frame : Bytes) : Bytes :=
  frame.take 12 ++ tags.flatMap VlanTag.bytes ++ frame.drop 12

theorem VlanTag.ethertype_tagged (tag : VlanTag) :
    tag.ethertype = ethertypeVlan ∨ tag.ethertype = ethertypeQinq := by
  unfold VlanTag.ethertype
  cases tag.qinq
  · exact Or.inl rfl
  · exact Or.inr rfl

theorem VlanTag.bytes_length (tag : VlanTag) : tag.bytes.length = 4 := by
  rw [VlanTag.bytes, List.length_append, to_be_bytes_length, tag.control.2]

/-- The parts of a tagged and padded packet. -/
theorem tagged_append (ethDst ethSrc : Octets 6) (tags : List VlanTag)
    (ethertype ip tcp padding : Bytes) :
    tagged tags (ethDst.val ++ ethSrc.val ++ ethertype ++ ip ++ tcp) ++ padding =
      (ethDst.val ++ ethSrc.val ++ tags.flatMap VlanTag.bytes ++ ethertype) ++
        (ip ++ (tcp ++ padding)) := by
  have hlength : (ethDst.val ++ ethSrc.val).length = 12 := by
    rw [List.length_append, ethDst.2, ethSrc.2]
  rw [List.append_assoc, List.append_assoc (ethDst.val ++ ethSrc.val), tagged,
    List.take_left' hlength, List.drop_left' hlength]
  simp only [List.append_assoc]

/-- The two bytes behind `front` are read as the number they encode. -/
theorem be16_append {front rest b : Bytes} {value : UInt16} (h)
    (hb : b = front ++ (toBeBytes 2 value.toNat ++ rest)) :
    be16 (b.drop front.length) h = value := by
  obtain ⟨hi, lo, hbytes, hvalue⟩ := exists_two_bytes value.toNat
  have hdrop : b.drop front.length = hi :: lo :: rest := by
    rw [hb, List.drop_left, hbytes]
    rfl
  simp only [hdrop]
  exact port_of_bytes hvalue

/-- The loop over the tags ends behind the last of them. -/
theorem skip_vlan_tags_flat_map (tags : List VlanTag) {ethertype : UInt16}
    (huntagged : ¬(ethertype = ethertypeVlan ∨ ethertype = ethertypeQinq))
    {front rest frame : Bytes} (hframe : frame = front ++ (tags.flatMap VlanTag.bytes ++
      (toBeBytes 2 ethertype.toNat ++ rest))) (h) :
    skipVlanTags frame (front.length + 2) (be16 (frame.drop front.length) h) =
      some ((front ++ tags.flatMap VlanTag.bytes).length + 2, ethertype) := by
  -- one tag moves from the unread part to `front` with every iteration
  induction tags generalizing front with
  | nil =>
      rw [be16_append h hframe, skipVlanTags, if_neg huntagged, List.flatMap_nil, List.append_nil]
  | cons tag tags ih =>
      rw [List.flatMap_cons] at hframe
      have hnext : frame = (front ++ tag.bytes) ++ (tags.flatMap VlanTag.bytes ++
          (toBeBytes 2 ethertype.toNat ++ rest)) := by
        rw [hframe, List.append_assoc, List.append_assoc]
      have htag : frame = front ++ (toBeBytes 2 tag.ethertype.toNat ++ (tag.control.val ++
          (tags.flatMap VlanTag.bytes ++ (toBeBytes 2 ethertype.toNat ++ rest)))) := by
        rw [hframe, VlanTag.bytes, List.append_assoc, List.append_assoc]
      have hlength : (front ++ tag.bytes).length = front.length + 4 := by
        rw [List.length_append, tag.bytes_length]
      have hlong : front.length + 4 + 2 ≤ frame.length := by
        have htotal := congrArg List.length hnext
        rw [List.length_append, hlength, List.length_append, List.length_append,
          to_be_bytes_length] at htotal
        omega
      have hdrop : 2 ≤ (frame.drop (front ++ tag.bytes).length).length := by
        rw [List.length_drop, hlength]
        omega
      have htags := ih hnext hdrop
      rw [be16_append h htag, skipVlanTags, if_pos tag.ethertype_tagged, dif_neg (by omega),
        List.flatMap_cons, ← List.append_assoc, ← htags]
      simp only [hlength]

/-! ## The whole packet -/

/-- What `parse_ethernet` makes of a frame, behind its tags. -/
theorem parse_ethernet_flat_map (ethDst ethSrc : Octets 6) (tags : List VlanTag)
    {ethertype : UInt16}
    (huntagged : ¬(ethertype = ethertypeVlan ∨ ethertype = ethertypeQinq)) (rest : Bytes) :
    let front := ethDst.val ++ ethSrc.val ++ tags.flatMap VlanTag.bytes ++
      toBeBytes 2 ethertype.toNat
    parseEthernet (front ++ rest) =
      (if ethertype = ethertypeIpv4 then parseIpv4 (front ++ rest) front.length
        else if ethertype = ethertypeIpv6 then parseIpv6 (front ++ rest) front.length
        else none).bind fun p => parseTcp ethDst ethSrc p.1 p.2.1 p.2.2.1 p.2.2.2 := by
  intro front
  obtain ⟨macs, hmacs⟩ : ∃ macs, macs = ethDst.val ++ ethSrc.val := ⟨_, rfl⟩
  have hmacs_length : macs.length = 12 := by
    rw [hmacs, List.length_append, ethDst.2, ethSrc.2]
  obtain ⟨frame, hframe⟩ : ∃ frame, frame = front ++ rest := ⟨_, rfl⟩
  have hsplit : frame = macs ++ (tags.flatMap VlanTag.bytes ++
      (toBeBytes 2 ethertype.toNat ++ rest)) := by
    simp only [hframe, front, hmacs, List.append_assoc]
  have hbytes : frame = ethDst.val ++ (ethSrc.val ++ (tags.flatMap VlanTag.bytes ++
      (toBeBytes 2 ethertype.toNat ++ rest))) := by
    rw [hsplit, hmacs, List.append_assoc]
  have hlong : ¬frame.length < 14 := by
    rw [hsplit, List.length_append, List.length_append, List.length_append, hmacs_length,
      to_be_bytes_length]
    omega
  have hafter : frame.drop 6 = ethSrc.val ++ (tags.flatMap VlanTag.bytes ++
      (toBeBytes 2 ethertype.toNat ++ rest)) := by
    rw [hbytes]
    exact List.drop_left' ethDst.2
  have hdst : ∀ h, octetsAt frame 0 6 h = ethDst := by
    rw [hbytes]
    exact fun h => Subtype.ext (List.take_left' ethDst.2)
  have hsrc : ∀ h, octetsAt frame 6 6 h = ethSrc :=
    fun h => Subtype.ext ((congrArg (List.take 6) hafter).trans (List.take_left' ethSrc.2))
  have hfront : front.length = (macs ++ tags.flatMap VlanTag.bytes).length + 2 := by
    rw [hmacs, ← to_be_bytes_length 2 ethertype.toNat, ← List.length_append]
  have hskip := skip_vlan_tags_flat_map tags huntagged hsplit
  rw [← hfront, hmacs_length] at hskip
  rw [← hframe, parseEthernet, dif_neg hlong, hskip]
  simp only [hdst, hsrc, Option.bind_eq_bind, Option.bind_some]
  rw [apply_ite (Option.bind · _), apply_ite (Option.bind · _)]

/-- What follows a packet follows the payload of its segment. -/
theorem tcp_bytes_append (ep : Endpoint) (seq ack : Seq) (flags : UInt8) (window checksum : UInt16)
    (payload padding : Bytes) :
    tcpBytes ep seq ack flags window checksum payload ++ padding =
      tcpBytes ep seq ack flags window checksum (payload ++ padding) := by
  simp only [tcpBytes, List.append_assoc]

/-- A packet that was built is read back from behind its tags and in front of its padding, up to
what the length of its IP header lost. -/
theorem parse_ethernet_tagged_build {ep : Endpoint} (hversion : ep.SameVersion)
    (tags : List VlanTag) (seq ack : Seq) (flags : UInt8) (window ipId : UInt16)
    (payload padding : Bytes) :
    parseEthernet (tagged tags (buildTcpPacket ep seq ack flags window ipId payload) ++ padding) =
      if wrappedLen ep.src.ip payload < overhead ep.src.ip then none
      else some (ep.segment seq ack flags
        ((payload ++ padding).take (wrappedLen ep.src.ip payload - overhead ep.src.ip))) := by
  have htcp : ∀ checksum, (tcpBytes ep seq ack flags window checksum payload).length =
      20 + payload.length := by
    intro checksum
    simp only [tcpBytes, List.length_append, to_be_bytes_length, List.length_cons, List.length_nil]
  unfold Endpoint.SameVersion at hversion
  cases hsrc : ep.src.ip with
  | v4 s =>
      cases hdst : ep.dst.ip with
      | v6 d => rw [hsrc, hdst] at hversion; exact hversion.elim
      | v4 d =>
          simp only [buildTcpPacket, hsrc, hdst]
          rw [tagged_append, parse_ethernet_flat_map _ _ _ (by decide), if_pos rfl,
            tcp_bytes_append, parse_ipv4_bytes]
          simp only [htcp]
          have hwrapped : (20 + (20 + payload.length)) % 2 ^ 16 = wrappedLen (.v4 s) payload := by
            rw [wrappedLen, overhead, ← Nat.add_assoc]
          rw [hwrapped, overhead]
          by_cases hip : wrappedLen (.v4 s) payload < 20
          · rw [if_pos hip, if_pos (by omega)]
            rfl
          · rw [if_neg hip, Option.bind_some]
            dsimp only
            rw [← hsrc, ← hdst, parse_tcp_bytes, hsrc, Nat.sub_sub]
            exact if_congr (by omega) rfl rfl
  | v6 s =>
      cases hdst : ep.dst.ip with
      | v4 d => rw [hsrc, hdst] at hversion; exact hversion.elim
      | v6 d =>
          simp only [buildTcpPacket, hsrc, hdst]
          rw [tagged_append, parse_ethernet_flat_map _ _ _ (by decide), if_neg (by decide),
            if_pos rfl, tcp_bytes_append, parse_ipv6_bytes, Option.bind_some]
          simp only [htcp]
          rw [← hsrc, ← hdst, parse_tcp_bytes, hsrc]
          rfl

theorem tagged_nil (frame : Bytes) : tagged [] frame = frame := by
  rw [tagged, List.flatMap_nil, List.append_nil, List.take_append_drop]

/-- A packet that was built is read back, up to what the length of its IP header lost. -/
theorem parse_ethernet_build {ep : Endpoint} (hversion : ep.SameVersion) (seq ack : Seq)
    (flags : UInt8) (window ipId : UInt16) (payload : Bytes) :
    parseEthernet (buildTcpPacket ep seq ack flags window ipId payload) =
      if wrappedLen ep.src.ip payload < overhead ep.src.ip then none
      else some (ep.segment seq ack flags
        (payload.take (wrappedLen ep.src.ip payload - overhead ep.src.ip))) := by
  have hbuild := parse_ethernet_tagged_build hversion [] seq ack flags window ipId payload []
  rwa [tagged_nil, List.append_nil, List.append_nil] at hbuild

theorem wrapped_len_of_fits {ip : IpAddr} {payload : Bytes}
    (h : overhead ip + payload.length < 2 ^ 16) :
    wrappedLen ip payload = overhead ip + payload.length := Nat.mod_eq_of_lt h

/-- A packet whose length fits comes back as it was sent, behind any number of tags and in front of
any padding. -/
theorem parse_ethernet_undoes_build {ep : Endpoint} (hversion : ep.SameVersion) (seq ack : Seq)
    (flags : UInt8) (window ipId : UInt16) {payload : Bytes}
    (hfits : overhead ep.src.ip + payload.length < 2 ^ 16) (tags : List VlanTag)
    (padding : Bytes) :
    parseEthernet (tagged tags (buildTcpPacket ep seq ack flags window ipId payload) ++ padding) =
      some (ep.segment seq ack flags payload) := by
  rw [parse_ethernet_tagged_build hversion, wrapped_len_of_fits hfits, if_neg (by omega),
    Nat.add_sub_cancel_left, List.take_left]

/-- A packet of the reference client behind a QinQ and a VLAN tag, padded to the minimum size. -/
theorem parse_ethernet_undoes_build_qinq :
    parseEthernet (tagged [⟨true, ⟨[0, 7], rfl⟩⟩, ⟨false, ⟨[0, 100], rfl⟩⟩]
        (buildTcpPacket clientEndpoint 1000 2000 TcpFlags.ack 65535 7 [104, 105]) ++
          List.replicate 20 0) =
      some (clientEndpoint.segment 1000 2000 TcpFlags.ack [104, 105]) := by
  have hversion : clientEndpoint.SameVersion := trivial
  exact parse_ethernet_undoes_build hversion 1000 2000 TcpFlags.ack 65535 7 (by decide) _ _

/-! ## IP versions -/

theorem version_of_parse_ipv4 {frame : Bytes} {off : Nat} {payload : IpPayload}
    (h : parseIpv4 frame off = some payload) : ∃ s d, payload.1 = .v4 s ∧ payload.2.1 = .v4 d := by
  obtain ⟨ip, -, h⟩ := Option.bind_eq_some_iff.mp h
  dsimp only at h
  split at h
  · cases h
  split at h
  · cases h
  split at h
  · cases h
  split at h
  · cases h
  split at h
  · cases h
  split at h
  · cases h
  obtain ⟨l4, -, h⟩ := Option.bind_eq_some_iff.mp h
  cases h
  exact ⟨_, _, rfl, rfl⟩

theorem version_of_parse_ipv6 {frame : Bytes} {off : Nat} {payload : IpPayload}
    (h : parseIpv6 frame off = some payload) : ∃ s d, payload.1 = .v6 s ∧ payload.2.1 = .v6 d := by
  obtain ⟨ip, -, h⟩ := Option.bind_eq_some_iff.mp h
  split at h
  · cases h
  split at h
  · cases h
  obtain ⟨skipped, -, h⟩ := Option.bind_eq_some_iff.mp h
  obtain ⟨l4, -, h⟩ := Option.bind_eq_some_iff.mp h
  cases h
  exact ⟨_, _, rfl, rfl⟩

theorem addresses_of_parse_tcp {ethDst ethSrc : Octets 6} {src dst : IpAddr}
    {l4 : Bytes} {len : Nat}
    {seg : EthSegment} (h : parseTcp ethDst ethSrc src dst l4 len = some seg) :
    seg.src.ip = src ∧ seg.dst.ip = dst := by
  unfold parseTcp at h
  split at h
  · cases h
  split at h
  · cases h
  dsimp only at h
  split at h
  · cases h
  · cases h
    exact ⟨rfl, rfl⟩

/-- Both addresses of a parsed segment have the same IP version. -/
theorem same_version_of_parse {frame : Bytes} {seg : EthSegment}
    (h : parseEthernet frame = some seg) :
    Endpoint.SameVersion ⟨seg.ethDst, seg.ethSrc, seg.src, seg.dst⟩ := by
  unfold parseEthernet at h
  split at h
  · cases h
  obtain ⟨⟨off, ethertype⟩, -, h⟩ := Option.bind_eq_some_iff.mp h
  dsimp only at h
  unfold Endpoint.SameVersion
  split at h
  · obtain ⟨payload, hip, htcp⟩ := Option.bind_eq_some_iff.mp h
    obtain ⟨s, d, hs, hd⟩ := version_of_parse_ipv4 hip
    obtain ⟨hsrc, hdst⟩ := addresses_of_parse_tcp htcp
    simp only [hsrc, hdst, hs, hd]
  split at h
  · obtain ⟨payload, hip, htcp⟩ := Option.bind_eq_some_iff.mp h
    obtain ⟨s, d, hs, hd⟩ := version_of_parse_ipv6 hip
    obtain ⟨hsrc, hdst⟩ := addresses_of_parse_tcp htcp
    simp only [hsrc, hdst, hs, hd]
  · cases h

end H2Tap.Pkt
