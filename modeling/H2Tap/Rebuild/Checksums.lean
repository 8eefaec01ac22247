import H2Tap.Rebuild.ReadBack

/-!
# The checksums of a synthesized packet

`sum16` and `fold` of `pkt.rs` as one's-complement arithmetic. A packet of `build_tcp_packet` is
accepted by a receiver that sums it up, and none of the `u32` additions on the way overflows
(`build_checksums_verify`): the checked functions below stop at an overflow.
-/

namespace H2Tap.Pkt

/-! ## One's-complement sums -/

/-- The 16-bit one's-complement sum that a wide accumulator stands for: its residue modulo
`2^16 - 1`, where only zero itself is the zero of the sum. -/
def onesSum (acc : Nat) : Nat := if acc = 0 then 0 else (acc - 1) % 65535 + 1

/-- `fold` complements the one's-complement sum. -/
theorem fold_to_nat (acc : Nat) : (fold acc).toNat = 65535 - onesSum acc := by
  induction acc using fold.induct with
  | case1 acc hsmall =>
      rw [fold, if_pos hsmall, UInt16.toNat_not, Nat.toUInt16, UInt16.toNat_ofNat', onesSum]
      show 65535 - acc % 65536 = _
      split <;> omega
  | case2 acc hlarge ih =>
      rw [fold, if_neg hlarge, ih, onesSum, onesSum]
      split <;> split <;> omega

/-- Adding the complement of a sum gives all ones, which `fold` turns into zero. -/
theorem fold_add_fold (acc : Nat) : fold (acc + (fold acc).toNat) = 0 := by
  rw [← UInt16.toNat_inj, fold_to_nat, fold_to_nat, onesSum, onesSum]
  -- the sum of an empty accumulator is the corner case: its complement is all ones already
  by_cases hzero : acc = 0
  · rw [if_pos hzero, hzero]
    decide
  · rw [if_neg hzero, if_neg (by omega)]
    show 65535 - ((acc + (65535 - ((acc - 1) % 65535 + 1)) - 1) % 65535 + 1) = 0
    omega

/-! ## Sums over bytes -/

theorem word_le (hi lo : UInt8) : fromBeBytes [hi, lo] ≤ 65535 := by
  have hlt := from_be_bytes_lt [hi, lo]
  rw [List.length_cons, List.length_singleton] at hlt
  omega

theorem sum16_add (data : Bytes) (acc more : Nat) :
    sum16 data (acc + more) = sum16 data acc + more := by
  induction data, acc using sum16.induct with
  | case1 hi lo rest acc ih =>
      rw [sum16, sum16, ← ih]
      congr 1
      omega
  | case2 hi acc =>
      rw [sum16, sum16]
      omega
  | case3 acc => rfl

/-- Two summands of a sum over bytes, split at a word boundary. -/
theorem sum16_append {front : Bytes} (hfront : front.length % 2 = 0) (rest : Bytes) (acc : Nat) :
    sum16 (front ++ rest) acc = sum16 rest (sum16 front acc) := by
  induction front, acc using sum16.induct with
  | case1 hi lo front acc ih =>
      rw [List.length_cons, List.length_cons] at hfront
      rw [List.cons_append, List.cons_append, sum16, sum16, ih (by omega)]
  | case2 hi acc => cases hfront
  | case3 acc => rfl

/-- A word in place of zero adds its value. -/
theorem sum16_to_be_bytes (checksum : UInt16) (rest : Bytes) (acc : Nat) :
    sum16 (toBeBytes 2 checksum.toNat ++ rest) acc =
      sum16 (toBeBytes 2 (0 : UInt16).toNat ++ rest) acc + checksum.toNat := by
  obtain ⟨hi, lo, hbytes, hvalue⟩ := exists_two_bytes checksum.toNat
  rw [Nat.mod_eq_of_lt checksum.toNat_lt] at hvalue
  rw [hbytes, ← sum16_add]
  show sum16 rest (acc + fromBeBytes [hi, lo]) = sum16 rest (acc + checksum.toNat + 0)
  rw [hvalue, Nat.add_zero]

/-- Bytes that hold their own checksum at a word boundary sum up to zero. -/
theorem fold_sum16_of_checksum {front : Bytes} (hfront : front.length % 2 = 0) (rest : Bytes)
    (acc : Nat) {checksum : UInt16}
    (hchecksum : checksum = fold (sum16 (front ++ (toBeBytes 2 (0 : UInt16).toNat ++ rest)) acc)) :
    fold (sum16 (front ++ (toBeBytes 2 checksum.toNat ++ rest)) acc) = 0 := by
  rw [sum16_append hfront, sum16_to_be_bytes, ← sum16_append hfront]
  subst hchecksum
  exact fold_add_fold _

/-! ## 32-bit accumulators -/

/-- `+` on `u32`: `none` when it overflows. -/
def addU32 (a b : Nat) : Option Nat := if a + b < 2 ^ 32 then some (a + b) else none

/-- `sum16` with a `u32` accumulator. -/
def checkedSum16 : Bytes → Nat → Option Nat
  | hi :: lo :: rest, acc => do checkedSum16 rest (← addU32 acc (fromBeBytes [hi, lo]))
  | [hi], acc => addU32 acc (hi.toNat * 256)
  | [], acc => some acc

/-- `fold` of a `u32` accumulator. -/
def checkedFold (acc : Nat) : Option UInt16 :=
  if acc / 2 ^ 16 = 0 then some (~~~acc.toUInt16)
  else if acc % 2 ^ 16 + acc / 2 ^ 16 < 2 ^ 32 then checkedFold (acc % 2 ^ 16 + acc / 2 ^ 16)
  else none
termination_by acc
decreasing_by omega

/-- The sum over the pseudo-header with a `u32` accumulator. -/
def checkedPseudoHeaderSum (ep : Endpoint) (tcpLen : Nat) : Option Nat :=
  match ep.src.ip, ep.dst.ip with
  | .v4 s, .v4 d => do
      let pseudo ← checkedSum16 d.val (← checkedSum16 s.val 0)
      addU32 (← addU32 pseudo ipprotoTcp.toNat) tcpLen
  | .v6 s, .v6 d => do
      let pseudo ← checkedSum16 d.val (← checkedSum16 s.val 0)
      addU32 (← addU32 (← addU32 pseudo (tcpLen / 2 ^ 16)) (tcpLen % 2 ^ 16)) ipprotoTcp.toNat
  | _, _ => some 0

/-- `build_tcp_packet` with `u32` accumulators. -/
def checkedBuildTcpPacket (ep : Endpoint) (seq ack : Seq) (flags : UInt8) (window ipId : UInt16)
    (payload : Bytes) : Option Bytes := do
  let unsigned := tcpBytes ep seq ack flags window 0 payload
  let pseudo ← checkedPseudoHeaderSum ep unsigned.length
  let tcp := tcpBytes ep seq ack flags window (← checkedFold (← checkedSum16 unsigned pseudo))
    payload
  match ep.src.ip, ep.dst.ip with
  | .v4 s, .v4 d =>
      let checksum ← checkedFold (← checkedSum16 (ipv4Bytes s d ipId tcp.length 0) 0)
      return ep.ethDst.val ++ ep.ethSrc.val ++ toBeBytes 2 ethertypeIpv4.toNat ++
        ipv4Bytes s d ipId tcp.length checksum ++ tcp
  | .v6 s, .v6 d =>
      return ep.ethDst.val ++ ep.ethSrc.val ++ toBeBytes 2 ethertypeIpv6.toNat ++
        ipv6Bytes s d tcp.length ++ tcp
  | _, _ => return []

/-- The most that a sum over `n` bytes adds. -/
def maxSum (n : Nat) : Nat := 65535 * ((n + 1) / 2)

theorem sum16_le (data : Bytes) (acc : Nat) : sum16 data acc ≤ acc + maxSum data.length := by
  unfold maxSum
  induction data, acc using sum16.induct with
  | case1 hi lo rest acc ih =>
      have hword := word_le hi lo
      rw [sum16, List.length_cons, List.length_cons]
      omega
  | case2 hi acc =>
      have hhi := hi.toNat_lt
      rw [sum16, List.length_singleton]
      omega
  | case3 acc => exact Nat.le_add_right _ _

theorem add_u32_of_lt {a b : Nat} (h : a + b < 2 ^ 32) : addU32 a b = some (a + b) := if_pos h

/-- A sum that stays below `2^32` does so at every addition. -/
theorem checked_sum16_of_lt {data : Bytes} {acc : Nat} (h : sum16 data acc < 2 ^ 32) :
    checkedSum16 data acc = some (sum16 data acc) := by
  induction data, acc using sum16.induct with
  | case1 hi lo rest acc ih =>
      rw [sum16] at h
      have hfirst : acc + fromBeBytes [hi, lo] < 2 ^ 32 := by
        -- the accumulator only grows
        have hgrow := sum16_add rest 0 (acc + fromBeBytes [hi, lo])
        rw [Nat.zero_add] at hgrow
        omega
      rw [checkedSum16, add_u32_of_lt hfirst, sum16]
      exact ih h
  | case2 hi acc => exact add_u32_of_lt h
  | case3 acc => rfl

theorem checked_fold_of_lt {acc : Nat} (h : acc < 2 ^ 32) : checkedFold acc = some (fold acc) := by
  induction acc using fold.induct with
  | case1 acc hsmall => rw [checkedFold, fold, if_pos hsmall, if_pos hsmall]
  | case2 acc hlarge ih =>
      have hnext : acc % 2 ^ 16 + acc / 2 ^ 16 < 2 ^ 32 := by omega
      rw [checkedFold, fold, if_neg hlarge, if_neg hlarge, if_pos hnext]
      exact ih hnext

/-! ## The pseudo-header -/

variable {ep : Endpoint}

/-- The most that the pseudo-header of a segment of 16-bit length sums up to. -/
theorem pseudo_header_sum_lt (ep : Endpoint) {tcpLen : Nat} (hlen : tcpLen < 2 ^ 16) :
    pseudoHeaderSum ep tcpLen < 2 ^ 21 := by
  have htcp : ipprotoTcp.toNat = 6 := rfl
  unfold pseudoHeaderSum
  split
  · rename_i s d _ _
    have hsrc := sum16_le s.val 0
    have hdst := sum16_le d.val (sum16 s.val 0)
    rw [s.2, maxSum] at hsrc
    rw [d.2, maxSum] at hdst
    omega
  · rename_i s d _ _
    have hsrc := sum16_le s.val 0
    have hdst := sum16_le d.val (sum16 s.val 0)
    rw [s.2, maxSum] at hsrc
    rw [d.2, maxSum] at hdst
    omega
  · decide

/-- The sum over both addresses stays below `2^32` at every addition if it does at the end. -/
theorem checked_sum16_addresses (src dst : Bytes) (h : sum16 dst (sum16 src 0) < 2 ^ 32) :
    checkedSum16 src 0 = some (sum16 src 0) ∧
      checkedSum16 dst (sum16 src 0) = some (sum16 dst (sum16 src 0)) := by
  have hfirst : sum16 src 0 < 2 ^ 32 := by
    have hgrow := sum16_add dst 0 (sum16 src 0)
    rw [Nat.zero_add] at hgrow
    omega
  exact ⟨checked_sum16_of_lt hfirst, checked_sum16_of_lt h⟩

theorem checked_pseudo_header_sum (ep : Endpoint) {tcpLen : Nat} (hlen : tcpLen < 2 ^ 16) :
    checkedPseudoHeaderSum ep tcpLen = some (pseudoHeaderSum ep tcpLen) := by
  have hsum := pseudo_header_sum_lt ep hlen
  unfold pseudoHeaderSum at hsum
  unfold checkedPseudoHeaderSum pseudoHeaderSum
  cases hsrc : ep.src.ip with
  | v4 s =>
      cases hdst : ep.dst.ip with
      | v6 d => rfl
      | v4 d =>
          simp only [hsrc, hdst] at hsum ⊢
          obtain ⟨hs, hd⟩ := checked_sum16_addresses s.val d.val (by omega)
          simp only [Option.bind_eq_bind, hs, hd, Option.bind_some]
          rw [add_u32_of_lt (by omega), Option.bind_some, add_u32_of_lt (by omega)]
  | v6 s =>
      cases hdst : ep.dst.ip with
      | v4 d => rfl
      | v6 d =>
          simp only [hsrc, hdst] at hsum ⊢
          obtain ⟨hs, hd⟩ := checked_sum16_addresses s.val d.val (by omega)
          simp only [Option.bind_eq_bind, hs, hd, Option.bind_some]
          rw [add_u32_of_lt (by omega), Option.bind_some, add_u32_of_lt (by omega),
            Option.bind_some, add_u32_of_lt (by omega)]

/-! ## Packets -/

theorem tcp_bytes_length (ep : Endpoint) (seq ack : Seq) (flags : UInt8) (window checksum : UInt16)
    (payload : Bytes) :
    (tcpBytes ep seq ack flags window checksum payload).length = 20 + payload.length := by
  simp only [tcpBytes, List.length_append, to_be_bytes_length, List.length_cons, List.length_nil]

/-- The checksum of a segment is its ninth word. -/
theorem tcp_bytes_eq (ep : Endpoint) (seq ack : Seq) (flags : UInt8) (window : UInt16)
    (payload : Bytes) :
    ∃ front rest, front.length % 2 = 0 ∧ ∀ checksum : UInt16,
      tcpBytes ep seq ack flags window checksum payload =
        front ++ (toBeBytes 2 checksum.toNat ++ rest) := by
  refine ⟨toBeBytes 2 ep.src.port.toNat ++ toBeBytes 2 ep.dst.port.toNat ++
    toBeBytes 4 seq.toNat ++ toBeBytes 4 ack.toNat ++ [5 * 16, flags] ++
    toBeBytes 2 window.toNat, [0, 0] ++ payload, ?_, fun checksum => ?_⟩
  · simp only [List.length_append, to_be_bytes_length, List.length_cons, List.length_nil]
  · simp only [tcpBytes, List.append_assoc]

/-- The checksum of an IPv4 header is its sixth word. -/
theorem ipv4_bytes_eq (src dst : Octets 4) (ipId : UInt16) (tcpLen : Nat) :
    ∃ front rest, front.length % 2 = 0 ∧ ∀ checksum : UInt16,
      ipv4Bytes src dst ipId tcpLen checksum =
        front ++ (toBeBytes 2 checksum.toNat ++ rest) := by
  refine ⟨[0x45, 0] ++ toBeBytes 2 (20 + tcpLen) ++ toBeBytes 2 ipId.toNat ++
    toBeBytes 2 0x4000 ++ [64, ipprotoTcp], src.val ++ dst.val, ?_, fun checksum => ?_⟩
  · simp only [List.length_append, to_be_bytes_length, List.length_cons, List.length_nil]
  · simp only [ipv4Bytes, List.append_assoc]

/-- The sum of the receiver over a TCP segment and its pseudo-header. -/
def verifyTcp (ep : Endpoint) (tcp : Bytes) : Option UInt16 := do
  checkedFold (← checkedSum16 tcp (← checkedPseudoHeaderSum ep tcp.length))

/-- The sum of the receiver over an IPv4 header. -/
def verifyIpv4 (header : Bytes) : Option UInt16 := do checkedFold (← checkedSum16 header 0)

/-- The accumulator over a TCP segment of 16-bit length never overflows. -/
theorem sum16_pseudo_lt (ep : Endpoint) {tcp : Bytes} (hlen : tcp.length < 2 ^ 16) :
    sum16 tcp (pseudoHeaderSum ep tcp.length) < 2 ^ 32 := by
  have hpseudo := pseudo_header_sum_lt ep hlen
  have hsum := sum16_le tcp (pseudoHeaderSum ep tcp.length)
  unfold maxSum at hsum
  omega

theorem verify_tcp_eq (ep : Endpoint) {tcp : Bytes} (hlen : tcp.length < 2 ^ 16) :
    verifyTcp ep tcp = some (fold (sum16 tcp (pseudoHeaderSum ep tcp.length))) := by
  have hsum := sum16_pseudo_lt ep hlen
  rw [verifyTcp, checked_pseudo_header_sum ep hlen, Option.bind_eq_bind, Option.bind_some,
    checked_sum16_of_lt hsum, Option.bind_some, checked_fold_of_lt hsum]

theorem verify_ipv4_eq {header : Bytes} (hlen : header.length < 2 ^ 16) :
    verifyIpv4 header = some (fold (sum16 header 0)) := by
  have hsum : sum16 header 0 < 2 ^ 32 := by
    have hle := sum16_le header 0
    unfold maxSum at hle
    omega
  rw [verifyIpv4, checked_sum16_of_lt hsum, Option.bind_eq_bind, Option.bind_some,
    checked_fold_of_lt hsum]

theorem ipv4_bytes_length (src dst : Octets 4) (ipId : UInt16) (tcpLen : Nat)
    (checksum : UInt16) : (ipv4Bytes src dst ipId tcpLen checksum).length = 20 := by
  simp only [ipv4Bytes, List.length_append, to_be_bytes_length, List.length_cons, List.length_nil,
    src.2, dst.2]

/-- `build_tcp_packet` with `u32` accumulators is `build_tcp_packet`. -/
theorem checked_build_tcp_packet (ep : Endpoint) (seq ack : Seq) (flags : UInt8)
    (window ipId : UInt16) {payload : Bytes} (hlen : 20 + payload.length < 2 ^ 16) :
    checkedBuildTcpPacket ep seq ack flags window ipId payload =
      some (buildTcpPacket ep seq ack flags window ipId payload) := by
  rw [← tcp_bytes_length ep seq ack flags window 0 payload] at hlen
  have hsum := sum16_pseudo_lt ep hlen
  have hip : ∀ s d n, checkedSum16 (ipv4Bytes s d ipId n 0) 0 =
        some (sum16 (ipv4Bytes s d ipId n 0) 0) ∧
      checkedFold (sum16 (ipv4Bytes s d ipId n 0) 0) =
        some (fold (sum16 (ipv4Bytes s d ipId n 0) 0)) := by
    intro s d n
    have hle := sum16_le (ipv4Bytes s d ipId n 0) 0
    rw [ipv4_bytes_length, maxSum] at hle
    have hlt : sum16 (ipv4Bytes s d ipId n 0) 0 < 2 ^ 32 := by omega
    exact ⟨checked_sum16_of_lt hlt, checked_fold_of_lt hlt⟩
  unfold checkedBuildTcpPacket buildTcpPacket
  simp only [Option.bind_eq_bind, checked_pseudo_header_sum ep hlen, checked_sum16_of_lt hsum,
    checked_fold_of_lt hsum, Option.bind_some]
  cases ep.src.ip <;> cases ep.dst.ip
  · simp only [hip, Option.bind_some]
    rfl
  all_goals rfl

/-- Where the TCP segment of a packet that was built starts. -/
def tcpStart (ip : IpAddr) : Nat :=
  match ip with
  | .v4 _ => 34
  | .v6 _ => 54

/-- A packet that was built ends in a segment that holds its own checksum. -/
theorem drop_build_tcp_packet {ep : Endpoint} (hversion : ep.SameVersion) (seq ack : Seq)
    (flags : UInt8) (window ipId : UInt16) (payload : Bytes) :
    let unsigned := tcpBytes ep seq ack flags window 0 payload
    (buildTcpPacket ep seq ack flags window ipId payload).drop (tcpStart ep.src.ip) =
      tcpBytes ep seq ack flags window
        (fold (sum16 unsigned (pseudoHeaderSum ep unsigned.length))) payload := by
  intro unsigned
  unfold Endpoint.SameVersion at hversion
  unfold buildTcpPacket
  cases hsrc : ep.src.ip <;> cases hdst : ep.dst.ip
  case v4.v4 s d =>
    refine List.drop_left' ?_
    simp only [tcpStart, List.length_append, ep.ethDst.2, ep.ethSrc.2, to_be_bytes_length,
      ipv4_bytes_length]
  case v6.v6 s d =>
    refine List.drop_left' ?_
    simp only [tcpStart, ipv6Bytes, List.length_append, ep.ethDst.2, ep.ethSrc.2,
      to_be_bytes_length, List.length_cons, List.length_nil, s.2, d.2]
  all_goals
    rw [hsrc, hdst] at hversion
    exact hversion.elim

/-- The IPv4 header of a packet that was built holds its own checksum. -/
theorem ipv4_header_of_build {ep : Endpoint} {s d : Octets 4} (hsrc : ep.src.ip = .v4 s)
    (hdst : ep.dst.ip = .v4 d) (seq ack : Seq) (flags : UInt8) (window ipId : UInt16)
    (payload : Bytes) :
    ∃ n, ((buildTcpPacket ep seq ack flags window ipId payload).drop 14).take 20 =
      ipv4Bytes s d ipId n (fold (sum16 (ipv4Bytes s d ipId n 0) 0)) := by
  simp only [buildTcpPacket, hsrc, hdst]
  have hfront : (ep.ethDst.val ++ ep.ethSrc.val ++
      toBeBytes 2 ethertypeIpv4.toNat).length = 14 := by
    simp only [List.length_append, ep.ethDst.2, ep.ethSrc.2, to_be_bytes_length]
  rw [List.append_assoc, List.drop_left' hfront]
  exact ⟨_, List.take_left' (ipv4_bytes_length ..)⟩

/-- The checksums of a packet that was built verify, whatever it carries: its TCP segment with the
pseudo-header of its IP version and its IPv4 header sum up to zero, and no accumulator overflows,
neither while the packet is built nor while it is verified. -/
theorem build_checksums_verify {ep : Endpoint} (hversion : ep.SameVersion) (seq ack : Seq)
    (flags : UInt8) (window ipId : UInt16) {payload : Bytes}
    (hfits : overhead ep.src.ip + payload.length < 2 ^ 16) :
    let frame := buildTcpPacket ep seq ack flags window ipId payload
    let tcp := frame.drop (tcpStart ep.src.ip)
    let header := (frame.drop 14).take 20
    checkedBuildTcpPacket ep seq ack flags window ipId payload = some frame ∧
      (fold (sum16 tcp (pseudoHeaderSum ep tcp.length)) = 0 ∧ verifyTcp ep tcp = some 0) ∧
      ∀ s, ep.src.ip = .v4 s → fold (sum16 header 0) = 0 ∧ verifyIpv4 header = some 0 := by
  intro frame tcp header
  have hoverhead : 20 ≤ overhead ep.src.ip := by
    cases ep.src.ip
    · exact Nat.le_add_right 20 20
    · exact le_rfl
  have hlen : 20 + payload.length < 2 ^ 16 := by omega
  refine ⟨checked_build_tcp_packet ep seq ack flags window ipId hlen, ?_, fun s hs => ?_⟩
  · have htcp : tcp = _ := drop_build_tcp_packet hversion seq ack flags window ipId payload
    have htcp_len : tcp.length = 20 + payload.length := by rw [htcp, tcp_bytes_length]
    obtain ⟨front, rest, hfront, hsplit⟩ := tcp_bytes_eq ep seq ack flags window payload
    have hzero : fold (sum16 tcp (pseudoHeaderSum ep tcp.length)) = 0 := by
      rw [htcp, tcp_bytes_length, tcp_bytes_length, hsplit]
      refine fold_sum16_of_checksum hfront rest _ ?_
      rw [hsplit]
    rw [verify_tcp_eq ep (by omega), hzero]
    exact ⟨rfl, rfl⟩
  · obtain ⟨d, hd⟩ : ∃ d, ep.dst.ip = .v4 d := by
      unfold Endpoint.SameVersion at hversion
      cases hdst : ep.dst.ip with
      | v4 d => exact ⟨d, rfl⟩
      | v6 d =>
          rw [hs, hdst] at hversion
          exact hversion.elim
    obtain ⟨n, hheader⟩ := ipv4_header_of_build hs hd seq ack flags window ipId payload
    have hheader_len : header.length = 20 := by
      show ((frame.drop 14).take 20).length = 20
      rw [hheader, ipv4_bytes_length]
    obtain ⟨front, rest, hfront, hsplit⟩ := ipv4_bytes_eq s d ipId n
    have hzero : fold (sum16 header 0) = 0 := by
      show fold (sum16 ((frame.drop 14).take 20) 0) = 0
      rw [hheader, hsplit]
      refine fold_sum16_of_checksum hfront rest _ ?_
      rw [hsplit]
    rw [verify_ipv4_eq (by omega), hzero]
    exact ⟨rfl, rfl⟩

/-- A packet with a payload of odd length. -/
theorem build_checksums_verify_odd :
    let frame := buildTcpPacket clientEndpoint 1 1 TcpFlags.ack 100 1 [97, 98, 99]
    let tcp := frame.drop (tcpStart clientEndpoint.src.ip)
    let header := (frame.drop 14).take 20
    checkedBuildTcpPacket clientEndpoint 1 1 TcpFlags.ack 100 1 [97, 98, 99] = some frame ∧
      (fold (sum16 tcp (pseudoHeaderSum clientEndpoint tcp.length)) = 0 ∧
        verifyTcp clientEndpoint tcp = some 0) ∧
      ∀ s, clientEndpoint.src.ip = .v4 s →
        fold (sum16 header 0) = 0 ∧ verifyIpv4 header = some 0 := by
  have hversion : clientEndpoint.SameVersion := trivial
  exact build_checksums_verify hversion 1 1 TcpFlags.ack 100 1 (by decide)

end H2Tap.Pkt
